import Mathlib.Data.List.Basic
import Mathlib.Data.List.Induction
import Mathlib.Tactic.Common
import TomlQuery.FilePath
/-! # Normal forms of paths

The names of a path are read one after the other from the root: some are skipped, two dots lead back
by one name, and any other name leads down. The normal form of an absolute path consists of the names
of the place that is reached, so it stands for itself. A relative path that is brought into normal
form first leads to the same place from everywhere.
-/
namespace TomlQuery.FilePath

/-! ## Names between slashes -/

theorem names_eq_splitOn (path : List Char) : names path = path.splitOn '/' := by
  induction path with
  | nil => rfl
  | cons c rest ih =>
    rw [names, ih, List.splitOn_cons_eq_if_modifyHead]
    by_cases hc : c = '/'
    · rw [if_pos hc, if_pos (beq_iff_eq.2 hc)]
    · rw [if_neg hc, if_neg (mt beq_iff_eq.1 hc)]
      cases hs : rest.splitOn '/' with
      | nil => exact absurd hs (List.splitOn_ne_nil '/' rest)
      | cons name others => rfl

theorem names_joinNames {row : List (List Char)} (hne : row ≠ [])
    (h : ∀ name ∈ row, '/' ∉ name) : names (joinNames row) = row := by
  rw [names_eq_splitOn, joinNames, List.splitOn_intercalate '/' h hne]

theorem joinNames_cons_cons (name next : List Char) (row : List (List Char)) :
    joinNames (name :: next :: row) = name ++ '/' :: joinNames (next :: row) := by
  rw [joinNames, List.intercalate_cons_cons, List.append_assoc]
  rfl

theorem joinNames_concat {row : List (List Char)} (hne : row ≠ []) (name : List Char) :
    joinNames (row ++ [name]) = joinNames row ++ '/' :: name := by
  induction row with
  | nil => exact absurd rfl hne
  | cons first row ih =>
    cases row with
    | nil =>
      simp [joinNames]
    | cons next row =>
      have hrest := ih (List.cons_ne_nil next row)
      simp only [List.cons_append] at hrest ⊢
      rw [joinNames_cons_cons, joinNames_cons_cons, hrest, List.append_assoc, List.cons_append]

theorem mem_joinNames {row : List (List Char)} {c : Char} (h : c ∈ joinNames row) :
    c = '/' ∨ ∃ name ∈ row, c ∈ name := by
  induction row with
  | nil => exact absurd h List.not_mem_nil
  | cons name row ih =>
    cases row with
    | nil =>
      rw [joinNames, List.intercalate_singleton] at h
      exact Or.inr ⟨name, List.mem_cons_self, h⟩
    | cons next row =>
      rw [joinNames_cons_cons, List.mem_append, List.mem_cons] at h
      rcases h with hn | rfl | hr
      · exact Or.inr ⟨name, List.mem_cons_self, hn⟩
      · exact Or.inl rfl
      · rcases ih hr with hc | ⟨other, hm, hc⟩
        · exact Or.inl hc
        · exact Or.inr ⟨other, List.mem_cons_of_mem _ hm, hc⟩

theorem mem_of_mem_names {path name : List Char} (h : name ∈ names path) {c : Char}
    (hc : c ∈ name) : c ∈ path ∧ c ≠ '/' := by
  induction path generalizing name with
  | nil =>
    rw [List.mem_singleton.1 h] at hc
    exact absurd hc List.not_mem_nil
  | cons d rest ih =>
    have hrest : ∀ {other}, other ∈ names rest → c ∈ other → c ∈ d :: rest ∧ c ≠ '/' :=
      fun hm hc => (ih hm hc).imp_left (List.mem_cons_of_mem d)
    rw [names] at h
    split at h
    · rcases List.mem_cons.1 h with rfl | h
      · exact absurd hc List.not_mem_nil
      · exact hrest h hc
    · next hd =>
      split at h
      · rw [List.mem_singleton.1 h, List.mem_singleton] at hc
        subst hc
        exact ⟨List.mem_cons_self, hd⟩
      · next first others hrow =>
        rw [hrow] at hrest
        rcases List.mem_cons.1 h with rfl | h
        · rcases List.mem_cons.1 hc with rfl | hc
          · exact ⟨List.mem_cons_self, hd⟩
          · exact hrest List.mem_cons_self hc
        · exact hrest (List.mem_cons_of_mem first h) hc

theorem slash_not_mem {path name : List Char} (h : name ∈ names path) : '/' ∉ name :=
  fun hc => (mem_of_mem_names h hc).2 rfl

/-! ## Pushing names -/

structure Proper (name : List Char) : Prop where
  ne_nil : name ≠ []
  ne_dot : name ≠ ['.']
  ne_parent : name ≠ parent
  no_slash : '/' ∉ name

variable {absolute : Bool} {done row : List (List Char)} {name : List Char}

theorem push_skip (h : name = [] ∨ name = ['.']) : push absolute done name = done := by
  rw [push.eq_def, if_pos h]

theorem push_down (hs : ¬(name = [] ∨ name = ['.'])) (hp : name ≠ parent) :
    push absolute done name = name :: done := by
  rw [push.eq_def, if_neg hs, if_neg hp]

theorem push_parent_nil : push absolute [] parent = if absolute then [] else [parent] := rfl

theorem push_parent_parent : push absolute (parent :: done) parent = parent :: parent :: done := rfl

theorem push_parent_cons (h : name ≠ parent) : push absolute (name :: done) parent = done := by
  rw [push, if_neg (by decide), if_pos rfl]
  exact if_neg h

theorem Proper.push (h : Proper name) : push absolute done name = name :: done :=
  push_down (not_or.2 ⟨h.ne_nil, h.ne_dot⟩) h.ne_parent

theorem foldl_push_proper (h : ∀ name ∈ row, Proper name) :
    row.foldl (push absolute) done = row.reverse ++ done := by
  induction row generalizing done with
  | nil => rfl
  | cons name row ih =>
    obtain ⟨hn, hrow⟩ := List.forall_mem_cons.1 h
    rw [List.foldl_cons, hn.push, ih hrow, List.reverse_cons, List.append_assoc]
    rfl

theorem mem_push {n : List Char} (h : n ∈ push absolute done name) :
    n ∈ done ∨ n = name ∧ ¬(n = [] ∨ n = ['.']) ∧ (absolute = true → n ≠ parent) := by
  by_cases hs : name = [] ∨ name = ['.']
  · rw [push_skip hs] at h
    exact Or.inl h
  · by_cases hp : name = parent
    · subst hp
      cases done with
      | nil =>
        rw [push_parent_nil] at h
        cases absolute with
        | true => exact Or.inl h
        | false => exact Or.inr ⟨List.mem_singleton.1 h, List.mem_singleton.1 h ▸ hs, nofun⟩
      | cons last others =>
        by_cases hl : last = parent
        · subst hl
          rw [push_parent_parent] at h
          rcases List.mem_cons.1 h with rfl | h
          · exact Or.inl List.mem_cons_self
          · exact Or.inl h
        · rw [push_parent_cons hl] at h
          exact Or.inl (List.mem_cons_of_mem _ h)
    · rw [push_down hs hp] at h
      rcases List.mem_cons.1 h with rfl | h
      · exact Or.inr ⟨rfl, hs, fun _ => hp⟩
      · exact Or.inl h

theorem mem_foldl_push {n : List Char} (h : n ∈ row.foldl (push absolute) done) :
    n ∈ done ∨ n ∈ row ∧ ¬(n = [] ∨ n = ['.']) ∧ (absolute = true → n ≠ parent) := by
  induction row generalizing done with
  | nil => exact Or.inl h
  | cons name row ih =>
    rcases ih h with hn | ⟨hm, hn⟩
    · exact (mem_push hn).imp_right fun ⟨he, hn⟩ => ⟨he ▸ List.mem_cons_self, hn⟩
    · exact Or.inr ⟨List.mem_cons_of_mem _ hm, hn⟩

theorem mem_normalNames {n : List Char} (h : n ∈ normalNames absolute row) :
    n ∈ row ∧ ¬(n = [] ∨ n = ['.']) ∧ (absolute = true → n ≠ parent) := by
  rw [normalNames, List.mem_reverse] at h
  exact (mem_foldl_push h).resolve_left List.not_mem_nil

theorem proper_of_mem_normalNames (h : ∀ name ∈ row, '/' ∉ name) :
    ∀ name ∈ normalNames true row, Proper name := by
  intro name hm
  obtain ⟨hrow, hs, hp⟩ := mem_normalNames hm
  exact ⟨mt Or.inl hs, mt Or.inr hs, hp rfl, h name hrow⟩

theorem normalNames_concat (h : Proper name) :
    normalNames absolute (row ++ [name]) = normalNames absolute row ++ [name] := by
  rw [normalNames, List.foldl_concat, h.push, List.reverse_cons, normalNames]

/-! ## Places -/

/-- Reading a row of names leads from one place to another. Places are told by the names on the way
to them from the root, and above the root is only the root. -/
inductive Leads : List (List Char) → List (List Char) → List (List Char) → Prop
  | stay (place : List (List Char)) : Leads place [] place
  | skip {place row last : List (List Char)} {name : List Char} : name = [] ∨ name = ['.'] →
      Leads place row last → Leads place (name :: row) last
  | up {place row last : List (List Char)} :
      Leads place.dropLast row last → Leads place (parent :: row) last
  | down {place row last : List (List Char)} {name : List Char} : ¬(name = [] ∨ name = ['.']) →
      name ≠ parent → Leads (place ++ [name]) row last → Leads place (name :: row) last

theorem leads_foldl_push (h : parent ∉ done) :
    Leads done.reverse row (row.foldl (push true) done).reverse := by
  induction row generalizing done with
  | nil => exact .stay _
  | cons name row ih =>
    rw [List.foldl_cons]
    by_cases hs : name = [] ∨ name = ['.']
    · rw [push_skip hs]
      exact .skip hs (ih h)
    · by_cases hp : name = parent
      · subst hp
        apply Leads.up
        cases done with
        | nil => exact ih h
        | cons last others =>
          obtain ⟨hl, ho⟩ := not_or.1 (mt List.mem_cons.2 h)
          rw [push_parent_cons (Ne.symm hl), List.reverse_cons, List.dropLast_concat]
          exact ih ho
      · rw [push_down hs hp]
        apply Leads.down hs hp
        rw [← List.reverse_cons]
        exact ih (mt List.mem_cons.1 (not_or.2 ⟨Ne.symm hp, h⟩))

theorem Leads.unique {place last other : List (List Char)} (h : Leads place row last)
    (h' : Leads place row other) : other = last := by
  induction h with
  | stay =>
    cases h'
    rfl
  | skip hs _ ih =>
    cases h' with
    | skip _ h' => exact ih h'
    | up => exact absurd hs (by decide)
    | down hs' => exact absurd hs hs'
  | up _ ih =>
    cases h' with
    | skip hs => exact absurd hs (by decide)
    | up h' => exact ih h'
    | down _ hp => exact absurd rfl hp
  | down hs hp _ ih =>
    cases h' with
    | skip hs' => exact absurd hs' hs
    | up => exact absurd rfl hp
    | down _ _ h' => exact ih h'

/-- The names of the normal form are those of the place that the row leads to from the root. -/
theorem leads_iff {place : List (List Char)} :
    Leads [] row place ↔ place = normalNames true row := by
  have h : Leads [] row (normalNames true row) := leads_foldl_push List.not_mem_nil
  constructor
  · exact h.unique
  · rintro rfl
    exact h

/-! ## Relative paths in normal form -/

/-- One more name of a relative path leads where it would lead behind the normal form of the names
before it. -/
theorem foldl_push_reverse {others : List (List Char)}
    (h : ∀ n ∈ others, ¬(n = [] ∨ n = ['.'])) :
    (push false others name).reverse.foldl (push true) done =
      push true (others.reverse.foldl (push true) done) name := by
  have hlast : ∀ n ∈ others, n ≠ parent → ∀ top, push true (push true top n) parent = top :=
    fun n hm hp top => by rw [push_down (h n hm) hp, push_parent_cons hp]
  by_cases hs : name = [] ∨ name = ['.']
  · rw [push_skip hs, push_skip hs]
  · by_cases hp : name = parent
    · subst hp
      cases others with
      | nil => rfl
      | cons last others =>
        by_cases hl : last = parent
        · subst hl
          rw [push_parent_parent, List.reverse_cons, List.foldl_concat]
        · rw [push_parent_cons hl, List.reverse_cons, List.foldl_concat,
            hlast last List.mem_cons_self hl]
    · rw [push_down hs hp, List.reverse_cons, List.foldl_concat]

theorem foldl_push_normalNames :
    (normalNames false row).foldl (push true) done = row.foldl (push true) done := by
  induction row using List.reverseRecOn with
  | nil => rfl
  | append_singleton row name ih =>
    rw [normalNames, List.foldl_concat, foldl_push_reverse, List.foldl_concat, ← ih, normalNames]
    intro n hm
    exact ((mem_foldl_push hm).resolve_left List.not_mem_nil).2.1

theorem normalNames_append_congr {others : List (List Char)}
    (h : normalNames true row = normalNames true others) (rest : List (List Char)) :
    normalNames true (row ++ rest) = normalNames true (others ++ rest) := by
  rw [normalNames, normalNames, List.reverse_inj] at h
  rw [normalNames, List.foldl_append, h, ← List.foldl_append, normalNames]

theorem normalNames_append_normal (front : List (List Char)) :
    normalNames true (front ++ normalNames false row) = normalNames true (front ++ row) := by
  rw [normalNames, List.foldl_append, foldl_push_normalNames, ← List.foldl_append, normalNames]

/-! ## Resolved paths -/

/-- The names by which a path is read in a base directory, from the root on. -/
def trail (base path : List Char) : List (List Char) :=
  if isAbsolute path then path.splitOn '/' else base.splitOn '/' ++ path.splitOn '/'

/-- The text of a place in normal form: a slash, and the names of the place with single slashes
between them. -/
structure Normal (place : List (List Char)) (text : List Char) : Prop where
  proper : ∀ name ∈ place, Proper name
  text_eq : text = '/' :: ['/'].intercalate place

variable (base : List Char) {path text : List Char} {place : List (List Char)}

theorem resolveChars_eq (path : List Char) :
    resolveChars base path = '/' :: joinNames (normalNames true (trail base path)) := by
  simp only [resolveChars, trail, names_eq_splitOn]

theorem mem_trail {c : Char} (hm : name ∈ trail base path) (hc : c ∈ name) :
    c ≠ '/' ∧ (c ∈ path ∨ isAbsolute path = false ∧ c ∈ base) := by
  simp only [trail, ← names_eq_splitOn] at hm
  split at hm
  · exact (mem_of_mem_names hm hc).symm.imp_right Or.inl
  · next ha =>
    rcases List.mem_append.1 hm with hm | hm
    · exact (mem_of_mem_names hm hc).symm.imp_right
        fun h => Or.inr ⟨Bool.eq_false_iff.2 ha, h⟩
    · exact (mem_of_mem_names hm hc).symm.imp_right Or.inl

theorem slash_not_mem_trail : ∀ name ∈ trail base path, '/' ∉ name :=
  fun _ hm hc => (mem_trail base hm hc).1 rfl

theorem normal_resolveChars (path : List Char) :
    Normal (normalNames true (trail base path)) (resolveChars base path) :=
  ⟨proper_of_mem_normalNames (slash_not_mem_trail base), resolveChars_eq base path⟩

theorem mem_resolveChars {c : Char} (hc : c ∈ resolveChars base path) (hs : c ≠ '/') :
    c ∈ path ∨ isAbsolute path = false ∧ c ∈ base := by
  rw [resolveChars_eq, List.mem_cons] at hc
  rcases mem_joinNames (hc.resolve_left hs) with hs' | ⟨name, hm, hc⟩
  · exact absurd hs' hs
  · exact (mem_trail base (mem_normalNames hm).1 hc).2

theorem Normal.normalNames_names (h : Normal place text) : normalNames true (names text) = place := by
  have hnames : names text = [] :: names (joinNames place) := by
    rw [h.text_eq, names, if_pos rfl]
    rfl
  rw [hnames, normalNames, List.foldl_cons, push_skip (Or.inl rfl)]
  by_cases hne : place = []
  · subst hne
    rfl
  · rw [names_joinNames hne fun name hm => (h.proper name hm).no_slash,
      foldl_push_proper h.proper, List.append_nil, List.reverse_reverse]

theorem Normal.place_eq_nil_iff (h : Normal place text) : place = [] ↔ text = ['/'] := by
  constructor
  · rintro rfl
    exact h.text_eq
  · rintro rfl
    exact h.normalNames_names.symm

theorem Normal.resolveChars (h : Normal place text) : resolveChars base text = text := by
  rw [resolveChars_eq, trail, if_pos (by rw [h.text_eq]; rfl), ← names_eq_splitOn,
    h.normalNames_names, joinNames, ← h.text_eq]

theorem Normal.getLast?_ne (h : Normal place text) (hne : text ≠ ['/']) :
    text.getLast? ≠ some '/' := by
  induction place using List.reverseRecOn with
  | nil => exact absurd h.text_eq hne
  | append_singleton row name _ =>
    have hname : Proper name := h.proper name (by simp)
    have hends : name <:+ text := by
      rw [h.text_eq]
      by_cases hrow : row = []
      · subst hrow
        rw [List.nil_append, List.intercalate_singleton]
        exact List.suffix_cons '/' name
      · refine (List.suffix_append (joinNames row ++ ['/']) name).trans ?_
        have hjoin := joinNames_concat hrow name
        rw [joinNames] at hjoin
        rw [hjoin, List.append_assoc]
        exact List.suffix_cons '/' _
    obtain ⟨front, rfl⟩ := hends
    rw [List.getLast?_append_of_ne_nil _ hname.ne_nil]
    intro hlast
    exact hname.no_slash (List.mem_of_getLast? hlast)

/-! ## Files in directories -/

theorem mem_joinChars {directory : List Char} {c : Char} (hc : c ∈ joinChars directory name) :
    c = '/' ∨ c ∈ directory ∨ c ∈ name := by
  have hrow : ∀ {absolute}, c ∈ joinNames (normalNames absolute (names directory ++ [name])) →
      c = '/' ∨ c ∈ directory ∨ c ∈ name := by
    intro absolute hc
    rcases mem_joinNames hc with hc | ⟨other, hm, hc⟩
    · exact Or.inl hc
    · rcases List.mem_append.1 (mem_normalNames hm).1 with hm | hm
      · exact Or.inr (Or.inl (mem_of_mem_names hm hc).1)
      · exact Or.inr (Or.inr (List.mem_singleton.1 hm ▸ hc))
  rw [joinChars] at hc
  split at hc
  · rcases List.mem_cons.1 hc with hc | hc
    · exact Or.inl hc
    · exact hrow hc
  · exact hrow hc

theorem joinChars_ne_nil (h : Proper name) (directory : List Char) :
    joinChars directory name ≠ [] := by
  have hrow : ∀ row : List (List Char), joinNames (row ++ [name]) ≠ [] := by
    intro row
    by_cases hne : row = []
    · subst hne
      rw [List.nil_append, joinNames, List.intercalate_singleton]
      exact h.ne_nil
    · rw [joinNames_concat hne]
      simp
  simp only [joinChars, normalNames_concat h]
  split
  · exact List.cons_ne_nil _ _
  · exact hrow _

theorem isAbsolute_joinNames (hne : row ≠ []) (h : ∀ name ∈ row, name ≠ [] ∧ '/' ∉ name) :
    isAbsolute (joinNames row) = false := by
  cases row with
  | nil => exact absurd rfl hne
  | cons first row =>
    obtain ⟨⟨hfirst, hslash⟩, -⟩ := List.forall_mem_cons.1 h
    obtain ⟨c, first, rfl⟩ := List.exists_cons_of_ne_nil hfirst
    have hhead : (joinNames ((c :: first) :: row)).head? = some c := by
      cases row with
      | nil => rw [joinNames, List.intercalate_singleton, List.head?_cons]
      | cons next row => rw [joinNames_cons_cons, List.cons_append, List.head?_cons]
    rw [isAbsolute, hhead]
    apply decide_eq_false
    rintro ⟨⟩
    exact hslash List.mem_cons_self

theorem normal_joinChars {directory : List Char} (ha : isAbsolute directory = true)
    (h : Proper name) :
    Normal (normalNames true (names directory) ++ [name]) (joinChars directory name) := by
  constructor
  · intro other hm
    rcases List.mem_append.1 hm with hm | hm
    · exact proper_of_mem_normalNames (fun _ => slash_not_mem) other hm
    · rwa [List.mem_singleton.1 hm]
  · simp only [joinChars, ha, if_true, normalNames_concat h, joinNames]

theorem trail_joinChars {directory : List Char} (ha : isAbsolute directory = false)
    (h : Proper name) :
    trail base (joinChars directory name) =
      names base ++ normalNames false (names directory) ++ [name] := by
  have hjoin : joinChars directory name =
      joinNames (normalNames false (names directory) ++ [name]) := by
    simp only [joinChars, ha, Bool.false_eq_true, if_false, normalNames_concat h]
  have hrow : ∀ other ∈ normalNames false (names directory) ++ [name],
      other ≠ [] ∧ '/' ∉ other := by
    intro other hm
    rcases List.mem_append.1 hm with hm | hm
    · obtain ⟨hn, hs, -⟩ := mem_normalNames hm
      exact ⟨mt Or.inl hs, slash_not_mem hn⟩
    · rw [List.mem_singleton.1 hm]
      exact ⟨h.ne_nil, h.no_slash⟩
  have hne : normalNames false (names directory) ++ [name] ≠ [] := by simp
  have hrelative : isAbsolute (joinChars directory name) = false := by
    rw [hjoin, isAbsolute_joinNames hne hrow]
  rw [trail, hrelative, if_neg Bool.false_ne_true, ← names_eq_splitOn, ← names_eq_splitOn, hjoin,
    names_joinNames hne fun other hm => (hrow other hm).2, List.append_assoc]

/-- A name that is put behind a directory before the path is resolved lies in the directory that is
meant without it. -/
theorem resolveChars_joinChars (directory : List Char) (h : Proper name) :
    resolveChars base (joinChars directory name) =
      '/' :: joinNames (normalNames true (trail base directory) ++ [name]) := by
  cases ha : isAbsolute directory with
  | true =>
    have hplace : trail base directory = names directory := by
      rw [trail, if_pos ha, names_eq_splitOn]
    have hnormal := normal_joinChars ha h
    rw [hnormal.resolveChars, hnormal.text_eq, hplace, joinNames]
  | false =>
    -- Behind the names of the base, the normal form leads where the directory itself does.
    have hplace : trail base directory = names base ++ names directory := by
      rw [trail, ha, if_neg Bool.false_ne_true, names_eq_splitOn, names_eq_splitOn]
    rw [resolveChars_eq, trail_joinChars base ha h, normalNames_concat h, hplace,
      normalNames_append_normal]

end TomlQuery.FilePath
