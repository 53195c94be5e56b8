import TomlQuery.Proofs.Command.Spelling
/-! # Bundles that cannot be read

In a bundle only the last letter may ask for a value. The letters are compared with the last one
and not their places, so a second `f` at the end lets the first one through as well, and the word
that the second one becomes is the file that the first one names. The other bundles with a letter
in front of the last one that is no switch cannot be read, whatever follows them.
-/
namespace TomlQuery.Command
open Outcome

/-- Switches and then the option with a value twice. -/
def DoublesFile (letters : List Char) : Prop :=
  ∃ switches : List Switch, letters = switches.map Switch.letter ++ ['f', 'f']

/-! ## Spreading out letters -/

theorem Switch.letter_of_ofLetter? {c : Char} {s : Switch} (h : ofLetter? c = some s) :
    s.letter = c := by
  simpa using List.find?_some h

theorem Switch.not_mem_letters (switches : List Switch) : 'f' ∉ switches.map letter := by
  intro h
  obtain ⟨s, -, hs⟩ := List.mem_map.1 h
  cases s <;> exact absurd hs (by decide)

/-- Letters that can be spread out are switches up to the first `f`, which the last letter has to
allow. -/
theorem spreadBundle_eq_ok {last : Option Char} {letters : List Char} {words : List String}
    (h : spreadBundle last letters = .ok words) :
    (∃ switches : List Switch, letters = switches.map Switch.letter) ∨
    ∃ (switches : List Switch) (tail : List Char) (more : List String), last = some 'f' ∧
      letters = switches.map Switch.letter ++ 'f' :: tail ∧ spreadBundle last tail = .ok more ∧
      words = switches.map Switch.longName ++ "--file" :: more := by
  induction letters generalizing words with
  | nil => exact Or.inl ⟨[], rfl⟩
  | cons c rest ih =>
    rw [spreadBundle] at h
    split at h
    · next s hs =>
      obtain ⟨others, ho, hw⟩ := bind_eq_ok_iff.1 h
      obtain rfl := Except.ok.inj hw
      obtain rfl := Switch.letter_of_ofLetter? hs
      rcases ih ho with ⟨switches, rfl⟩ | ⟨switches, tail, more, hlast, rfl, hmore, rfl⟩
      · exact Or.inl ⟨s :: switches, rfl⟩
      · exact Or.inr ⟨s :: switches, tail, more, hlast, rfl, hmore, rfl⟩
    · split at h
      · next hf =>
        obtain ⟨more, hm, hw⟩ := bind_eq_ok_iff.1 h
        obtain rfl := Except.ok.inj hw
        rw [Bool.and_eq_true, decide_eq_true_eq, decide_eq_true_eq] at hf
        obtain ⟨rfl, hlast⟩ := hf
        exact Or.inr ⟨[], rest, more, hlast, rfl, hm, rfl⟩
      · cases h

theorem spreadBundle_cons {last : Option Char} {c : Char} {rest : List Char}
    {words : List String} (h : spreadBundle last (c :: rest) = .ok words) :
    ∃ word more, words = word :: more ∧ spreadBundle last rest = .ok more := by
  rw [spreadBundle] at h
  split at h
  · obtain ⟨more, hm, hw⟩ := bind_eq_ok_iff.1 h
    exact ⟨_, more, (Except.ok.inj hw).symm, hm⟩
  · split at h
    · obtain ⟨more, hm, hw⟩ := bind_eq_ok_iff.1 h
      exact ⟨_, more, (Except.ok.inj hw).symm, hm⟩
    · cases h

/-! ## A file that is asked for again -/

theorem gather_repeatedFile {g : Gathered} (h : g.file.isSome = true) (switches : List Switch)
    (rest : List String) :
    gather g (switches.map Switch.longName ++ "--file" :: rest) = .error .repeatedFile := by
  induction switches generalizing g with
  | nil =>
    rw [List.map_nil, List.nil_append, gather.eq_def]
    dsimp only
    rw [if_neg (by decide), if_neg (by decide), if_pos (by decide), if_pos h]
  | cons s switches ih =>
    rw [List.map_cons, List.cons_append, gather_switch (s := s) (by simp)]
    exact ih (by rwa [g.turnOn_file])

theorem gather_twoFiles (g : Gathered) (switches others : List Switch) (value : String)
    (rest : List String) :
    gather g (switches.map Switch.longName ++
      "--file" :: value :: (others.map Switch.longName ++ "--file" :: rest)) =
        .error .repeatedFile := by
  induction switches generalizing g with
  | nil =>
    rw [List.map_nil, List.nil_append, gather_file (by simp)]
    rw [Gathered.take]
    split
    · rfl
    · exact gather_repeatedFile rfl others rest
  | cons s switches ih =>
    rw [List.map_cons, List.cons_append, gather_switch (s := s) (by simp)]
    exact ih _

/-! ## Whole command lines -/

theorem read_bundleWord {letters : List Char} (hlen : 2 ≤ letters.length)
    (hall : ∀ c ∈ letters, isLetter c = true) (rest : List String) :
    Arguments.read (bundleWord letters :: rest) = (do
      let words ← spreadBundle letters.getLast? letters
      (← gather .empty (words ++ (← spread rest))).judge) := by
  rw [Arguments.read, spread_bundleWord hlen hall]
  cases spreadBundle letters.getLast? letters with
  | error e => rfl
  | ok words => cases spread rest <;> rfl

/-- Where a letter in front of the last one is no switch, that is an `f`, and so is the last letter.
Unless they end the bundle side by side, the second one is spread out into a request of its own. -/
theorem doublesFile_or_repeats {letters : List Char} {words : List String}
    (hbad : ∃ c ∈ letters.dropLast, ∀ s : Switch, s.letter ≠ c)
    (h : spreadBundle letters.getLast? letters = .ok words) :
    DoublesFile letters ∨ ∃ (switches between : List Switch) (value : String) (more : List String),
      words = switches.map Switch.longName ++
        "--file" :: value :: (between.map Switch.longName ++ "--file" :: more) := by
  obtain ⟨c, hc, hnone⟩ := hbad
  have hno : ∀ switches : List Switch, c ∉ switches.map Switch.letter := by
    intro switches hm
    obtain ⟨s, -, hs⟩ := List.mem_map.1 hm
    exact hnone s hs
  rcases spreadBundle_eq_ok h with ⟨switches, rfl⟩ | ⟨switches, tail, more, hlast, rfl, hm, rfl⟩
  · exact absurd (List.dropLast_subset _ hc) (hno switches)
  · cases tail with
    | nil =>
      rw [List.dropLast_concat] at hc
      exact absurd hc (hno switches)
    | cons d tail =>
      have hend : (d :: tail).getLast? = some 'f' := by
        rwa [List.getLast?_append_of_ne_nil _ (List.cons_ne_nil _ _),
          List.getLast?_cons_cons] at hlast
      obtain ⟨word, others, rfl, ho⟩ := spreadBundle_cons hm
      rcases spreadBundle_eq_ok ho with ⟨between, rfl⟩ | ⟨between, _, more, -, -, -, rfl⟩
      · cases between with
        | nil =>
          obtain rfl := Option.some.inj hend
          exact Or.inl ⟨switches, rfl⟩
        | cons s between =>
          rw [List.map_cons, List.getLast?_cons_cons] at hend
          exact absurd (List.mem_of_getLast? hend) (Switch.not_mem_letters (s :: between))
      · exact Or.inr ⟨switches, between, word, more, rfl⟩

theorem bundle_fails {letters : List Char} (hlen : 2 ≤ letters.length)
    (hall : ∀ c ∈ letters, isLetter c = true)
    (hbad : ∃ c ∈ letters.dropLast, ∀ s : Switch, s.letter ≠ c) (hf : ¬DoublesFile letters)
    (rest : List String) : ∃ e, Arguments.read (bundleWord letters :: rest) = .error e := by
  rw [read_bundleWord hlen hall]
  cases hb : spreadBundle letters.getLast? letters with
  | error e => exact ⟨e, rfl⟩
  | ok words =>
    rw [ok_bind]
    cases spread rest with
    | error e => exact ⟨e, rfl⟩
    | ok tokens =>
      rw [ok_bind]
      obtain ⟨switches, between, value, more, rfl⟩ :=
        (doublesFile_or_repeats hbad hb).resolve_left hf
      have hg := gather_twoFiles .empty switches between value (more ++ tokens)
      simp only [List.append_assoc, List.cons_append] at hg ⊢
      rw [hg]
      exact ⟨_, rfl⟩

/-! ## A doubled `f` -/

theorem spread_longNames (switches : List Switch) (rest : List String) :
    spread (switches.map Switch.longName ++ rest) =
      (do return switches.map Switch.longName ++ (← spread rest)) := by
  induction switches with
  | nil =>
    rw [List.map_nil, List.nil_append]
    cases spread rest <;> rfl
  | cons s switches ih =>
    rw [List.map_cons, List.cons_append, spread_kept s.kept.2, ih]
    cases spread rest <;> rfl

theorem read_doubledFile (switches : List Switch) (rest : List String) :
    Arguments.read (bundleWord (switches.map Switch.letter ++ ['f', 'f']) :: rest) =
      Arguments.read (switches.map Switch.longName ++ "--file=--file" :: rest) := by
  have hlen : 2 ≤ (switches.map Switch.letter ++ ['f', 'f']).length := by simp
  have hall : ∀ c ∈ switches.map Switch.letter ++ ['f', 'f'], isLetter c = true :=
    List.forall_mem_append.2
      ⟨fun _ => Switch.isLetter_of_mem_letters, List.all_eq_true.1 rfl⟩
  have hlast : (switches.map Switch.letter ++ ['f', 'f']).getLast? = some 'f' := by simp
  have hends : spreadBundle (some 'f') ['f', 'f'] = .ok ["--file", "--file"] := rfl
  have hassigned : spread ("--file=--file" :: rest) =
      (do return "--file" :: "--file" :: (← spread rest)) :=
    @spread_assigned "file".toList (by decide) "--file" rest
  rw [read_bundleWord hlen hall, hlast, spreadBundle_switches, hends, Arguments.read,
    spread_longNames, hassigned]
  cases spread rest with
  | error e => rfl
  | ok tokens => simp

/-- Help goes before everything, so there is always a way to read such a bundle. -/
theorem read_doubledFile_help (switches : List Switch) :
    Arguments.read [bundleWord (switches.map Switch.letter ++ ['f', 'f']), "--help"] =
      .ok .help := by
  have hspells : Spells (switches.map .switch ++ [.file "--file", .switch .help])
      (switches.map Switch.longName ++ ["--file=--file", "--help"]) := by
    induction switches with
    | nil => exact .assignedFile "--file" (.long .help .nil)
    | cons s switches ih => exact .long s ih
  rw [read_doubledFile, read_eq_ok_iff_means hspells]
  refine .help ⟨?_, ?_⟩ (by simp)
  · intro value hm
    simp at hm
  · simp [Group.file?, Function.comp_def]

/-- A bundle with a letter in front of the last one that is no switch fails whatever follows it,
unless it is switches and two `f`s. Then it asks for the file of the name that the second `f` stands
for, and can be read. -/
theorem bundle_lastLetter {letters : List Char} (hlen : 2 ≤ letters.length)
    (hall : ∀ c ∈ letters, isLetter c = true)
    (hbad : ∃ c ∈ letters.dropLast, ∀ s : Switch, s.letter ≠ c) :
    ((∀ rest, ∃ e, Arguments.read (bundleWord letters :: rest) = .error e) ↔
      ¬DoublesFile letters) ∧
    ∀ switches : List Switch, letters = switches.map Switch.letter ++ ['f', 'f'] → ∀ rest,
      Arguments.read (bundleWord letters :: rest) =
        Arguments.read (switches.map Switch.longName ++ "--file=--file" :: rest) := by
  refine ⟨⟨?_, bundle_fails hlen hall hbad⟩, ?_⟩
  · rintro h ⟨switches, rfl⟩
    obtain ⟨e, he⟩ := h ["--help"]
    rw [read_doubledFile_help] at he
    nomatch he
  · rintro switches rfl
    exact read_doubledFile switches

/-- A bundle with an `f` in its middle, and one that ends with two. -/
theorem bundle_lastLetter_switches :
    (∀ rest, ∃ e, Arguments.read ("-qfj" :: rest) = .error e) ∧
    ∀ rest, Arguments.read ("-qff" :: rest) =
      Arguments.read ("--quiet" :: "--file=--file" :: rest) := by
  have hfirst := @bundle_lastLetter ['q', 'f', 'j'] (by decide) (List.all_eq_true.1 rfl)
    ⟨'f', by decide, by intro s; cases s <;> decide⟩
  have hsecond := @bundle_lastLetter ['q', 'f', 'f'] (by decide) (List.all_eq_true.1 rfl)
    ⟨'f', by decide, by intro s; cases s <;> decide⟩
  refine ⟨hfirst.1.2 ?_, hsecond.2 [.quiet] rfl⟩
  rintro ⟨switches, h⟩
  have hlast := congrArg List.getLast? h
  rw [List.getLast?_append_of_ne_nil _ (List.cons_ne_nil _ _)] at hlast
  exact absurd hlast (by decide)

/-- The first `f` is in front of the last letter and no switch, and still a query is read. -/
theorem bundle_doubledFile :
    (∃ c ∈ ['f', 'f'].dropLast, ∀ s : Switch, s.letter ≠ c) ∧ bundleWord ['f', 'f'] = "-ff" ∧
      Arguments.read ["-ff", "a"] = .ok (.query ⟨"a", .file "--file", false, .empty⟩) := by
  refine ⟨⟨'f', List.mem_singleton_self 'f', ?_⟩, by decide, by decide⟩
  intro s
  cases s <;> decide

end TomlQuery.Command
