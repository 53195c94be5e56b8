import TomlQuery.Proofs.Command.Bundle
/-! # The value of a file option

Words are spread out before it is known which of them are values. So the word behind a file option
is the name of the file as it stands only if it is neither a long option with a sign of equality nor
a bundle. Of such a word the option takes the first part for its file, and the rest is read as
further arguments.
-/
namespace TomlQuery.Command
open Outcome

/-- Words of two hyphens and a name with a value behind a sign of equality. -/
def Assigned (word : String) : Prop := ∃ name value : String, word = "--" ++ name ++ "=" ++ value

/-- Words of a hyphen and two or more lowercase letters. -/
def Bundled (word : String) : Prop :=
  ∃ letters : List Char, 2 ≤ letters.length ∧ (∀ c ∈ letters, isLetter c = true) ∧
    word = bundleWord letters

/-- The query of a property of the file of a name, or of standard input, with no option set. -/
def fileQuery (name property : String) : Query :=
  ⟨property, if name = "-" then .stdin else .file name, false, .empty⟩

/-! ## Words that are spread out -/

theorem assigned_of_assignment? {word name value : String}
    (h : assignment? word = some (name, value)) : Assigned word := by
  unfold assignment? at h
  split at h
  · next rest hw =>
    rw [List.span_eq_takeWhile_dropWhile] at h
    dsimp only at h
    split at h
    · nomatch h
    · next mark tail hd =>
      have hmark : mark = '=' := by
        have hhead := List.head?_dropWhile_not (fun c => decide (c ≠ '=')) rest
        rw [hd] at hhead
        simpa using hhead
      have hm : '=' ∈ rest := by
        apply (List.dropWhile_suffix fun c => decide (c ≠ '=')).subset
        rw [hd, hmark]
        exact List.mem_cons_self
      obtain ⟨front, back, rfl, -⟩ := List.eq_append_cons_of_mem hm
      refine ⟨String.ofList front, String.ofList back, ?_⟩
      apply String.toList_injective
      simp [hw]
  · nomatch h

theorem Assigned.split {word : String} (h : Assigned word) : ∃ (name : List Char) (value : String),
    '=' ∉ name ∧ word = String.ofList ('-' :: '-' :: name) ++ "=" ++ value := by
  obtain ⟨name, value, rfl⟩ := h
  have hm : '=' ∈ name.toList ++ '=' :: value.toList := by simp
  obtain ⟨front, back, hsplit, hfront⟩ := List.eq_append_cons_of_mem hm
  refine ⟨front, String.ofList back, hfront, ?_⟩
  apply String.toList_injective
  simp [hsplit]

theorem bundled_of_bundle? {word : String} {letters : List Char}
    (h : bundle? word = some letters) : Bundled word := by
  unfold bundle? at h
  split at h
  · next a b rest hw =>
    split at h
    · next hall =>
      refine ⟨a :: b :: rest, by simp, List.all_eq_true.1 hall, ?_⟩
      apply String.toList_injective
      rw [hw, bundleWord, String.toList_ofList]
    · nomatch h
  · nomatch h

theorem kept_of_not {word : String} (hne : word ≠ "--") (ha : ¬Assigned word)
    (hb : ¬Bundled word) : Kept word := by
  refine ⟨hne, ?_, ?_⟩
  · cases h : assignment? word with
    | none => rfl
    | some parts => exact absurd (assigned_of_assignment? h) ha
  · cases h : bundle? word with
    | none => rfl
    | some letters => exact absurd (bundled_of_bundle? h) hb

theorem mem_options_of_spreadBundle {last : Option Char} {letters : List Char}
    {words : List String} (h : spreadBundle last letters = .ok words) :
    ∀ word ∈ words, word ∈ "--file" :: Switch.all.map Switch.longName := by
  induction letters generalizing words with
  | nil =>
    obtain rfl := Except.ok.inj h
    exact fun _ hm => absurd hm List.not_mem_nil
  | cons c rest ih =>
    rw [spreadBundle] at h
    split at h
    · next s _ =>
      obtain ⟨more, hm, hw⟩ := bind_eq_ok_iff.1 h
      obtain rfl := Except.ok.inj hw
      exact List.forall_mem_cons.2
        ⟨List.mem_cons_of_mem _ (List.mem_map_of_mem s.mem_all), ih hm⟩
    · split at h
      · obtain ⟨more, hm, hw⟩ := bind_eq_ok_iff.1 h
        obtain rfl := Except.ok.inj hw
        exact List.forall_mem_cons.2 ⟨List.mem_cons_self, ih hm⟩
      · cases h

theorem spread_other {word : String} (h : Assigned word ∨ Bundled word) {rest tokens : List String}
    (hs : spread (word :: rest) = .ok tokens) :
    ∃ first more, tokens = first :: more ∧ first ≠ word ∧ first ≠ "-" := by
  rcases h with ha | ⟨letters, hlen, hall, rfl⟩
  · obtain ⟨name, value, hname, rfl⟩ := ha.split
    rw [spread_assigned hname] at hs
    obtain ⟨more, -, ht⟩ := bind_eq_ok_iff.1 hs
    obtain rfl := Except.ok.inj ht
    refine ⟨_, _, rfl, ?_, ?_⟩
    · intro he
      have hlength := congrArg (fun word : String => word.toList.length) he
      simp at hlength
    · intro he
      have hlength := congrArg (fun word : String => word.toList.length) he
      simp at hlength
  · rw [spread_bundleWord hlen hall] at hs
    obtain ⟨words, hw, hs⟩ := bind_eq_ok_iff.1 hs
    obtain ⟨more, -, ht⟩ := bind_eq_ok_iff.1 hs
    obtain rfl := Except.ok.inj ht
    obtain ⟨a, letters, rfl⟩ := List.exists_cons_of_length_pos (by omega : 0 < letters.length)
    obtain ⟨first, others, rfl, -⟩ := spreadBundle_cons hw
    -- Every option that a letter stands for begins with two hyphens, and no letter is a hyphen.
    have hyphens : ∀ option ∈ "--file" :: Switch.all.map Switch.longName,
        option.toList[1]? = some '-' ∧ option ≠ "-" := by decide
    obtain ⟨hsecond, hne⟩ := hyphens first
      (mem_options_of_spreadBundle hw first List.mem_cons_self)
    refine ⟨first, _, rfl, ?_, hne⟩
    rintro rfl
    rw [bundleWord, String.toList_ofList] at hsecond
    obtain rfl := Option.some.inj hsecond
    exact absurd (hall '-' List.mem_cons_self) (by decide)

/-! ## The file that is gathered -/

theorem gather_keeps_file {g g' : Gathered} {words : List String} (h : gather g words = .ok g')
    {path : String} (hf : g.file = some path) : g'.file = some path := by
  fun_induction gather g words with
  | case1 =>
    obtain rfl := Except.ok.inj h
    exact hf
  | case2 =>
    obtain rfl := Except.ok.inj h
    exact hf
  | case4 g _ _ format _ _ ih => exact ih h (by rwa [(g.addFormat_keeps format).1])
  | case8 g _ _ _ _ hnone => exact absurd (by rw [hf]; rfl) hnone
  | case9 g _ _ _ _ _ s _ ih => exact ih h (by rwa [g.turnOn_file])
  | case11 g _ _ _ _ _ _ _ ih => exact ih h hf
  | case3 | case5 | case6 | case7 | case10 => nomatch h

theorem judge_file {g : Gathered} {q : Query} (h : g.judge = .ok (.query q)) {path : String}
    (hf : g.file = some path) (hne : path ≠ "-") : q.source = .file path := by
  obtain ⟨format, property, -, hboth, -, rfl⟩ := Gathered.of_judge_query h
  exact (Gathered.source_file_iff hboth path).2 ⟨hne, hf⟩

/-! ## Whole command lines -/

section Option

variable {option value property : String} (ho : option ∈ ["-f", "--file"])

include ho

theorem spread_option (rest : List String) :
    spread (option :: rest) = (do return option :: (← spread rest)) :=
  spread_kept (kept_fileOption ho) rest

theorem gather_option (rest : List String) :
    gather .empty (option :: value :: rest) =
      gather { Gathered.empty with file := some value } rest := by
  rw [gather_file ho]
  rfl

theorem read_file_kept (hv : ¬Assigned value ∧ ¬Bundled value)
    (hp : property.toList.head? ≠ some '-') :
    Arguments.read [option, value, property] = .ok (.query (fileQuery value property)) := by
  have hspread : spread [value, property] = .ok [value, property] := by
    by_cases hne : value = "--"
    · rw [spread, if_pos hne]
    · rw [spread_kept (kept_of_not hne hv.1 hv.2), spread_kept (Plain.kept (Or.inr hp))]
      rfl
  rw [Arguments.read, spread_option ho, hspread, ok_bind]
  change (gather .empty [option, value, property] >>= _) = _
  rw [gather_option ho, gather_plain (Or.inr hp)]
  rfl

theorem read_file_other (hv : Assigned value ∨ Bundled value) {q : Query}
    (h : Arguments.read [option, value, property] = .ok (.query q)) :
    ∃ other, other ≠ value ∧ q.source = .file other := by
  rw [Arguments.read, spread_option ho] at h
  obtain ⟨words, hw, h⟩ := bind_eq_ok_iff.1 h
  obtain ⟨tokens, ht, hw⟩ := bind_eq_ok_iff.1 hw
  obtain rfl := Except.ok.inj hw
  obtain ⟨first, more, rfl, hother, hne⟩ := spread_other hv ht
  obtain ⟨g, hg, hj⟩ := bind_eq_ok_iff.1 h
  rw [gather_option ho] at hg
  exact ⟨first, hother, judge_file hj (gather_keeps_file hg rfl) hne⟩

/-- The word behind a file option is taken as it stands exactly if it is no long option with a sign
of equality and no bundle. If it is, a query of another file is all that may come of it. -/
theorem read_fileValue (hp : property.toList.head? ≠ some '-') :
    (Arguments.read [option, value, property] = .ok (.query (fileQuery value property)) ↔
      ¬Assigned value ∧ ¬Bundled value) ∧
    (Assigned value ∨ Bundled value → ∀ q,
      Arguments.read [option, value, property] = .ok (.query q) →
      ∃ other, other ≠ value ∧ q.source = .file other) := by
  refine ⟨⟨?_, fun hv => read_file_kept ho hv hp⟩, fun hv _ => read_file_other ho hv⟩
  intro h
  rw [← not_or]
  intro hv
  obtain ⟨other, hne, hs⟩ := read_file_other ho hv h
  rw [fileQuery] at hs
  dsimp only at hs
  split at hs
  · nomatch hs
  · exact hne (Source.file.inj hs).symm

end Option

/-- A switch behind the option is the name of its file. -/
theorem read_fileValue_switch :
    Arguments.read ["-f", "--json", "a"] = .ok (.query ⟨"a", .file "--json", false, .empty⟩) := by
  have ha : ¬Assigned "--json" := by
    rintro ⟨name, value, h⟩
    have hm : '=' ∈ "--json".toList := by
      rw [h]
      simp
    exact absurd hm (by decide)
  have hb : ¬Bundled "--json" := by
    rintro ⟨letters, -, hall, h⟩
    have hlist : "--json".toList = '-' :: letters := by rw [h, bundleWord, String.toList_ofList]
    obtain rfl := (List.cons.inj hlist).2
    exact absurd (hall '-' (by decide)) (by decide)
  exact (read_fileValue (List.mem_cons_self) (by decide)).1.2 ⟨ha, hb⟩

/-- A bundle is spread out, so that its first switch is taken for the name and the other one is
turned on. -/
theorem read_fileValue_bundle :
    Arguments.read ["-f", "-jq", "a"] =
      .ok (.query ⟨"a", .file "--json", false, ⟨none, some true, none, none⟩⟩) ∧
    Arguments.read ["-f", "-jq", "a"] ≠ .ok (.query (fileQuery "-jq" "a")) := by
  constructor <;> decide

end TomlQuery.Command
