import TomlQuery.Proofs.Command.Judgement
import TomlQuery.Proofs.Text.Span
/-! # Spellings of options

A command line spells a row of options. There is more than one spelling of an option, and options
may stand in any order. What the command line means depends only on the options that it spells, not
on how or where it spells them.
-/
namespace TomlQuery.Command
open Outcome

/-- What may stand alone on a command line without being taken for an option. -/
def Plain (word : String) : Prop := word = "-" ∨ word.toList.head? ≠ some '-'

instance (word : String) : Decidable (Plain word) := inferInstanceAs (Decidable (_ ∨ _))

/-- The word for a row of letters behind one hyphen. -/
def bundleWord (letters : List Char) : String := String.ofList ('-' :: letters)

/-- The ways to spell a row of options. A value that looks like an option stands behind a sign of
equality. -/
inductive Spells : List Group → List String → Prop
  | nil : Spells [] []
  | short (s : Switch) {groups : List Group} {words : List String} : Spells groups words →
      Spells (.switch s :: groups) (s.shortName :: words)
  | long (s : Switch) {groups : List Group} {words : List String} : Spells groups words →
      Spells (.switch s :: groups) (s.longName :: words)
  | bundle {switches : List Switch} {groups : List Group} {words : List String} :
      2 ≤ switches.length → Spells groups words →
      Spells (switches.map .switch ++ groups) (bundleWord (switches.map Switch.letter) :: words)
  | bundledFile {switches : List Switch} {value : String} {groups : List Group}
      {words : List String} : switches ≠ [] → Plain value → Spells groups words →
      Spells (switches.map .switch ++ .file value :: groups)
        (bundleWord (switches.map Switch.letter ++ ['f']) :: value :: words)
  | file {option value : String} {groups : List Group} {words : List String} :
      option ∈ ["-f", "--file"] → Plain value → Spells groups words →
      Spells (.file value :: groups) (option :: value :: words)
  | assignedFile (value : String) {groups : List Group} {words : List String} :
      Spells groups words → Spells (.file value :: groups) (("--file=" ++ value) :: words)
  | format {value : String} {groups : List Group} {words : List String} : Plain value →
      Spells groups words → Spells (.format value :: groups) ("--format" :: value :: words)
  | assignedFormat (value : String) {groups : List Group} {words : List String} :
      Spells groups words → Spells (.format value :: groups) (("--format=" ++ value) :: words)
  | word {text : String} {groups : List Group} {words : List String} : Plain text →
      Spells groups words → Spells (.word text :: groups) (text :: words)

/-! ## Spreading out a spelling -/

theorem Switch.mem_all (s : Switch) : s ∈ all := by
  cases s <;> decide

/-- Words that are not spread out. -/
def Kept (word : String) : Prop := word ≠ "--" ∧ assignment? word = none ∧ bundle? word = none

instance (word : String) : Decidable (Kept word) := inferInstanceAs (Decidable (_ ∧ _ ∧ _))

theorem Plain.kept {word : String} (h : Plain word) : Kept word := by
  rcases h with rfl | h
  · decide
  · refine ⟨?_, ?_, ?_⟩
    · rintro rfl
      exact absurd rfl h
    · unfold assignment?
      split
      · next heq => exact absurd (congrArg List.head? heq) h
      · rfl
    · unfold bundle?
      split
      · next heq => exact absurd (congrArg List.head? heq) h
      · rfl

theorem Switch.kept (s : Switch) : Kept s.shortName ∧ Kept s.longName := by
  have hall : ∀ s ∈ all, Kept s.shortName ∧ Kept s.longName := by decide
  exact hall s s.mem_all

theorem kept_fileOption {option : String} (h : option ∈ ["-f", "--file"]) : Kept option := by
  have hall : ∀ option ∈ ["-f", "--file"], Kept option := by decide
  exact hall option h

theorem spread_kept {word : String} (h : Kept word) (rest : List String) :
    spread (word :: rest) = (do return word :: (← spread rest)) := by
  obtain ⟨hne, ha, hb⟩ := h
  rw [spread, if_neg hne, ha]
  dsimp only
  rw [hb]

theorem spread_assigned {name : List Char} (h : '=' ∉ name) (value : String) (rest : List String) :
    spread ((String.ofList ('-' :: '-' :: name) ++ "=" ++ value) :: rest) =
      (do return String.ofList ('-' :: '-' :: name) :: value :: (← spread rest)) := by
  have hlist : (String.ofList ('-' :: '-' :: name) ++ "=" ++ value).toList =
      '-' :: '-' :: (name ++ '=' :: value.toList) := by
    rw [String.toList_append, String.toList_append, String.toList_ofList]
    simp
  have hspan : (name ++ '=' :: value.toList).span (· ≠ '=') = (name, '=' :: value.toList) := by
    apply Text.span_append
    · intro c hc
      exact decide_eq_true (fun he => h (he ▸ hc))
    · intro c hc
      obtain rfl := Option.some.inj hc
      rfl
  have hassigned : assignment? (String.ofList ('-' :: '-' :: name) ++ "=" ++ value) =
      some (String.ofList ('-' :: '-' :: name), value) := by
    unfold assignment?
    rw [hlist]
    simp only [hspan, String.ofList_toList]
  have hne : String.ofList ('-' :: '-' :: name) ++ "=" ++ value ≠ "--" := by
    intro he
    have hnone : assignment? "--" = none := by decide
    rw [he, hnone] at hassigned
    nomatch hassigned
  rw [spread, if_neg hne, hassigned]

theorem spreadBundle_switches (last : Option Char) (switches : List Switch) (rest : List Char) :
    spreadBundle last (switches.map Switch.letter ++ rest) =
      (do return switches.map Switch.longName ++ (← spreadBundle last rest)) := by
  induction switches with
  | nil =>
    rw [List.map_nil, List.nil_append]
    cases spreadBundle last rest <;> rfl
  | cons s switches ih =>
    have hs : Switch.ofLetter? s.letter = some s := by cases s <;> rfl
    rw [List.map_cons, List.cons_append, spreadBundle, hs]
    dsimp only
    rw [ih]
    cases spreadBundle last rest <;> rfl

theorem spread_bundleWord {letters : List Char} (hlen : 2 ≤ letters.length)
    (hall : ∀ c ∈ letters, isLetter c = true) (rest : List String) :
    spread (bundleWord letters :: rest) = (do
      let words ← spreadBundle letters.getLast? letters
      return words ++ (← spread rest)) := by
  obtain ⟨a, b, tail, rfl⟩ : ∃ a b tail, letters = a :: b :: tail := by
    match letters, hlen with
    | a :: b :: tail, _ => exact ⟨a, b, tail, rfl⟩
  have ha : a ≠ '-' := by
    rintro rfl
    exact absurd (hall '-' List.mem_cons_self) (by decide)
  have hlist : (bundleWord (a :: b :: tail)).toList = '-' :: a :: b :: tail := String.toList_ofList
  have hne : bundleWord (a :: b :: tail) ≠ "--" := by
    intro he
    rw [he] at hlist
    have hlen := congrArg List.length hlist
    simp at hlen
  have hassigned : assignment? (bundleWord (a :: b :: tail)) = none := by
    unfold assignment?
    rw [hlist]
    split
    · next heq => exact absurd (List.cons.inj (List.cons.inj heq).2).1 ha
    · rfl
  have hbundle : bundle? (bundleWord (a :: b :: tail)) = some (a :: b :: tail) := by
    unfold bundle?
    rw [hlist]
    exact if_pos (List.all_eq_true.2 hall)
  rw [spread, if_neg hne, hassigned]
  dsimp only
  rw [hbundle]

theorem Switch.isLetter_of_mem_letters {switches : List Switch} {c : Char}
    (h : c ∈ switches.map Switch.letter) : isLetter c = true := by
  obtain ⟨s, -, rfl⟩ := List.mem_map.1 h
  cases s <;> rfl

theorem spread_bundle {switches : List Switch} (hlen : 2 ≤ switches.length)
    (rest : List String) :
    spread (bundleWord (switches.map Switch.letter) :: rest) =
      (do return switches.map Switch.longName ++ (← spread rest)) := by
  have hb := spreadBundle_switches (switches.map Switch.letter).getLast? switches []
  rw [List.append_nil] at hb
  rw [spread_bundleWord (by rwa [List.length_map]) (fun _ => Switch.isLetter_of_mem_letters), hb]
  simp [spreadBundle]

theorem spread_bundledFile {switches : List Switch} (hne : switches ≠ []) (rest : List String) :
    spread (bundleWord (switches.map Switch.letter ++ ['f']) :: rest) =
      (do return switches.map Switch.longName ++ "--file" :: (← spread rest)) := by
  have hlen : 2 ≤ (switches.map Switch.letter ++ ['f']).length := by
    have := List.length_pos_iff.2 hne
    rw [List.length_append, List.length_map, List.length_singleton]
    omega
  have hall : ∀ c ∈ switches.map Switch.letter ++ ['f'], isLetter c = true :=
    List.forall_mem_append.2
      ⟨fun _ => Switch.isLetter_of_mem_letters, List.forall_mem_singleton.2 rfl⟩
  have hlast : spreadBundle (some 'f') ['f'] = .ok ["--file"] := rfl
  rw [spread_bundleWord hlen hall, List.getLast?_concat, spreadBundle_switches, hlast]
  cases spread rest with
  | error e => rfl
  | ok words => simp

/-! ## Gathering the words of a spelling -/

theorem gather_switch {s : Switch} {word : String} (h : word ∈ [s.shortName, s.longName])
    (g : Gathered) (rest : List String) :
    gather g (word :: rest) = gather (g.turnOn s) rest := by
  have hall : ∀ s ∈ Switch.all, ∀ word ∈ [s.shortName, s.longName],
      word ≠ "--" ∧ word ≠ "--format" ∧ ¬(word = "-f" || word = "--file") = true ∧
        Switch.ofWord? word = some s := by decide
  obtain ⟨hend, hformat, hfile, hs⟩ := hall s s.mem_all word h
  rw [gather.eq_def]
  dsimp only
  rw [if_neg hend, if_neg hformat, if_neg hfile, hs]

theorem gather_file {option : String} (h : option ∈ ["-f", "--file"]) (g : Gathered)
    (value : String) (rest : List String) :
    gather g (option :: value :: rest) = (do gather (← g.take (.file value)) rest) := by
  have hall : ∀ option ∈ ["-f", "--file"], option ≠ "--" ∧ option ≠ "--format" ∧
      (option = "-f" || option = "--file") = true := by decide
  obtain ⟨hend, hformat, hfile⟩ := hall option h
  rw [gather.eq_def]
  dsimp only
  rw [if_neg hend, if_neg hformat, if_pos hfile, Gathered.take]
  split <;> rfl

theorem gather_format (g : Gathered) (value : String) (rest : List String) :
    gather g ("--format" :: value :: rest) = (do gather (← g.take (.format value)) rest) := by
  rw [gather.eq_def]
  dsimp only
  rw [if_neg (by decide), if_pos rfl, Gathered.take]
  cases Format.ofName? value <;> rfl

theorem gather_plain {word : String} (h : Plain word) (g : Gathered) (rest : List String) :
    gather g (word :: rest) = gather (g.addWords [word]) rest := by
  have hnames : ∀ name ∈ ["--", "--format", "-f", "--file"], word ≠ name := by
    have hnot : ∀ name ∈ ["--", "--format", "-f", "--file"], ¬Plain name := by decide
    rintro name hm rfl
    exact hnot word hm h
  have hfile : ¬(word = "-f" || word = "--file") = true := by
    rw [Bool.or_eq_true, decide_eq_true_eq, decide_eq_true_eq]
    exact not_or.2 ⟨hnames _ (by simp), hnames _ (by simp)⟩
  have hswitch : Switch.ofWord? word = none := by
    have hnot : ∀ s ∈ Switch.all, ¬Plain s.longName ∧ ¬Plain s.shortName := by decide
    apply List.find?_eq_none.2
    intro s hs
    rw [Bool.or_eq_true, decide_eq_true_eq, decide_eq_true_eq]
    rintro (rfl | rfl)
    · exact (hnot s hs).1 h
    · exact (hnot s hs).2 h
  have hoption : isOption word = false := by
    rw [isOption, Bool.and_eq_false_iff, decide_eq_false_iff_not, decide_eq_false_iff_not, not_not]
    exact h.symm
  rw [gather.eq_def]
  dsimp only
  rw [if_neg (hnames _ (by simp)), if_neg (hnames _ (by simp)), if_neg hfile, hswitch]
  dsimp only
  rw [hoption]
  rfl

theorem gather_switches (switches : List Switch) (g : Gathered) (rest : List String) :
    gather g (switches.map Switch.longName ++ rest) =
      (do gather (← (switches.map Group.switch).foldlM Gathered.take g) rest) := by
  induction switches generalizing g with
  | nil => rfl
  | cons s switches ih =>
    rw [List.map_cons, List.cons_append, gather_switch (s := s) (by simp), ih, List.map_cons,
      List.foldlM_cons]
    rfl

/-- The words of a spelling, spread out, are gathered one option after the other. -/
theorem spread_of_spells {groups : List Group} {words : List String} (h : Spells groups words) :
    ∃ tokens, spread words = .ok tokens ∧
      ∀ g, gather g tokens = groups.foldlM Gathered.take g := by
  -- No spelling holds the word that ends options, so each option is spread out by itself.
  induction h with
  | nil => exact ⟨[], rfl, fun _ => rfl⟩
  | short s _ ih =>
    obtain ⟨tokens, hs, hg⟩ := ih
    refine ⟨s.shortName :: tokens, by rw [spread_kept s.kept.1, hs]; rfl, fun g => ?_⟩
    rw [gather_switch (s := s) (by simp), hg]
    rfl
  | long s _ ih =>
    obtain ⟨tokens, hs, hg⟩ := ih
    refine ⟨s.longName :: tokens, by rw [spread_kept s.kept.2, hs]; rfl, fun g => ?_⟩
    rw [gather_switch (s := s) (by simp), hg]
    rfl
  | @bundle switches groups words hlen _ ih =>
    obtain ⟨tokens, hs, hg⟩ := ih
    refine ⟨switches.map Switch.longName ++ tokens, by rw [spread_bundle hlen, hs]; rfl, ?_⟩
    intro g
    rw [gather_switches, List.foldlM_append]
    simp only [hg]
  | @bundledFile switches value groups words hne hplain _ ih =>
    obtain ⟨tokens, hs, hg⟩ := ih
    refine ⟨switches.map Switch.longName ++ "--file" :: value :: tokens, ?_, fun g => ?_⟩
    · rw [spread_bundledFile hne, spread_kept hplain.kept, hs]
      rfl
    · rw [gather_switches, List.foldlM_append]
      simp only [gather_file (by simp : "--file" ∈ ["-f", "--file"]), List.foldlM_cons, hg]
  | @file option value groups words ho hplain _ ih =>
    obtain ⟨tokens, hs, hg⟩ := ih
    refine ⟨option :: value :: tokens, ?_, fun g => ?_⟩
    · rw [spread_kept (kept_fileOption ho), spread_kept hplain.kept, hs]
      rfl
    · simp only [gather_file ho, List.foldlM_cons, hg]
  | @assignedFile value groups words _ ih =>
    obtain ⟨tokens, hs, hg⟩ := ih
    refine ⟨"--file" :: value :: tokens, ?_, fun g => ?_⟩
    · have h := @spread_assigned "file".toList (by decide) value words
      rw [hs] at h
      exact h
    · simp only [gather_file (by simp : "--file" ∈ ["-f", "--file"]), List.foldlM_cons, hg]
  | @format value groups words hplain _ ih =>
    obtain ⟨tokens, hs, hg⟩ := ih
    refine ⟨"--format" :: value :: tokens, ?_, fun g => ?_⟩
    · rw [spread_kept (by decide), spread_kept hplain.kept, hs]
      rfl
    · simp only [gather_format, List.foldlM_cons, hg]
  | @assignedFormat value groups words _ ih =>
    obtain ⟨tokens, hs, hg⟩ := ih
    refine ⟨"--format" :: value :: tokens, ?_, fun g => ?_⟩
    · have h := @spread_assigned "format".toList (by decide) value words
      rw [hs] at h
      exact h
    · simp only [gather_format, List.foldlM_cons, hg]
  | @word text groups words hplain _ ih =>
    obtain ⟨tokens, hs, hg⟩ := ih
    refine ⟨text :: tokens, by rw [spread_kept hplain.kept, hs]; rfl, fun g => ?_⟩
    rw [gather_plain hplain, hg]
    rfl

/-! ## Whole command lines -/

theorem read_eq_ok_iff_means {groups : List Group} {words : List String}
    (h : Spells groups words) {a : Arguments} :
    Arguments.read words = .ok a ↔ Means groups a := by
  obtain ⟨tokens, hs, hg⟩ := spread_of_spells h
  have hread : Arguments.read words = (do (← groups.foldlM Gathered.take .empty).judge) := by
    rw [Arguments.read, hs, ok_bind, hg]
  rw [hread, bind_eq_ok_iff]
  constructor
  · rintro ⟨g, ht, hj⟩
    have hrecords := Gathered.foldlM_take_records Gathered.records_empty ht
    have hreadable := (Gathered.exists_foldlM_take_iff Gathered.records_empty readable_nil
      groups).1 ⟨g, ht⟩
    exact (Gathered.judge_eq_ok_iff hrecords hreadable).1 hj
  · intro hm
    have hreadable : Readable groups := by
      cases hm <;> assumption
    obtain ⟨g, ht⟩ := (Gathered.exists_foldlM_take_iff Gathered.records_empty readable_nil
      groups).2 hreadable
    have hrecords := Gathered.foldlM_take_records Gathered.records_empty ht
    exact ⟨g, ht, (Gathered.judge_eq_ok_iff hrecords hreadable).2 hm⟩

/-- Two command lines that spell the same options, in whatever order and in whatever way, are read
as the same arguments, which are what the options mean, or both of them fail, and the options mean
nothing. -/
theorem read_spelling {groups others : List Group} {words words' : List String}
    (hp : groups.Perm others) (h : Spells groups words) (h' : Spells others words') :
    (∃ a, Means groups a ∧ Arguments.read words = .ok a ∧ Arguments.read words' = .ok a) ∨
    ((∀ a, ¬Means groups a) ∧
      ∃ e e', Arguments.read words = .error e ∧ Arguments.read words' = .error e') := by
  have hread : ∀ a, Arguments.read words = .ok a ↔ Means groups a := fun _ =>
    read_eq_ok_iff_means h
  have hread' : ∀ a, Arguments.read words' = .ok a ↔ Means groups a := by
    intro a
    rw [read_eq_ok_iff_means h']
    exact ⟨Means.perm hp.symm, Means.perm hp⟩
  cases hw : Arguments.read words with
  | ok a =>
    have hm := (hread a).1 hw
    exact Or.inl ⟨a, hm, rfl, (hread' a).2 hm⟩
  | error e =>
    have hnone : ∀ a, ¬Means groups a := by
      intro a hm
      exact absurd (hw.symm.trans ((hread a).2 hm)) nofun
    cases hw' : Arguments.read words' with
    | ok a => exact absurd ((hread' a).1 hw') (hnone a)
    | error e' => exact Or.inr ⟨hnone, e, e', rfl, rfl⟩

/-- A file at the end of a bundle, and the same file behind a sign of equality, with the options in
another order. -/
theorem read_spelling_bundle :
    Arguments.read ["a.b", "-qjf", "x=y", "--format=json"] = .ok (.query
      ⟨"a.b", .file "x=y", false, ⟨some .json, some true, none, none⟩⟩) ∧
    Arguments.read ["--file=x=y", "--format", "json", "--json", "a.b", "-q"] = .ok (.query
      ⟨"a.b", .file "x=y", false, ⟨some .json, some true, none, none⟩⟩) := by
  have h : Spells [.word "a.b", .switch .quiet, .switch .json, .file "x=y", .format "json"]
      ["a.b", "-qjf", "x=y", "--format=json"] :=
    .word (by decide +kernel) (@Spells.bundledFile [.quiet, .json] "x=y" _ _ nofun
      (by decide +kernel) (.assignedFormat "json" .nil))
  have h' : Spells [.file "x=y", .format "json", .switch .json, .word "a.b", .switch .quiet]
      ["--file=x=y", "--format", "json", "--json", "a.b", "-q"] :=
    .assignedFile "x=y" (.format (by decide +kernel) (.long .json
      (.word (by decide +kernel) (.short .quiet .nil))))
  have hread : Arguments.read ["a.b", "-qjf", "x=y", "--format=json"] = .ok (.query
      ⟨"a.b", .file "x=y", false, ⟨some .json, some true, none, none⟩⟩) := by decide +kernel
  rcases read_spelling (by decide +kernel) h h' with ⟨a, -, ha, ha'⟩ | ⟨-, e, e', he, -⟩
  · rw [hread] at ha
    rw [← ha] at ha'
    exact ⟨hread, ha'⟩
  · rw [hread] at he
    nomatch he

end TomlQuery.Command
