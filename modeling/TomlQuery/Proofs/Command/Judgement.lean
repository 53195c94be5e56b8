import TomlQuery.Proofs.Command.Options
/-! # Judging options

What has been gathered is judged to be what the options mean: help before the version, both before
a query, and a query only if the options ask for one and for nothing else.
-/
namespace TomlQuery.Command
namespace Gathered

theorem source_manifest_iff (g : Gathered) : g.source = .manifest ↔ g.pyproject = true := by
  rw [source]
  cases g.pyproject with
  | true => simp
  | false =>
    cases g.file with
    | none => simp
    | some path => by_cases hp : path = "-" <;> simp [hp]

theorem source_file_iff {g : Gathered} (h : g.pyproject = true → g.file = none) (path : String) :
    g.source = .file path ↔ path ≠ "-" ∧ g.file = some path := by
  rw [source]
  cases hm : g.pyproject with
  | true => simp [h hm]
  | false =>
    cases g.file with
    | none => simp
    | some other =>
      by_cases hp : other = "-"
      · subst hp
        simp [eq_comm]
      · simp only [hp, if_false, Source.file.injEq, Option.some.injEq, Bool.false_eq_true]
        constructor
        · rintro rfl
          exact ⟨hp, rfl⟩
        · exact And.right

end Gathered

theorem source_eq_of_iff {a b : Source} (hm : a = .manifest ↔ b = .manifest)
    (hf : ∀ path, a = .file path ↔ b = .file path) : a = b := by
  cases a with
  | manifest => exact (hm.1 rfl).symm
  | file path => exact ((hf path).1 rfl).symm
  | stdin =>
    cases b with
    | manifest => exact hm.2 rfl
    | file path => exact (hf path).2 rfl
    | stdin => rfl

/-- A row without repetition of everything that is in an option is at most that. -/
theorem eq_toList_of_nodup {α : Type} {row : List α} {o : Option α} (hn : row.Nodup)
    (h : ∀ a, o = some a ↔ a ∈ row) : row = o.toList := by
  have hp : row.Perm o.toList := by
    apply (List.perm_ext_iff_of_nodup hn _).2
    · intro a
      rw [← h, Option.mem_toList]
    · cases o with
      | none => exact List.nodup_nil
      | some a => exact List.nodup_singleton a
  cases o with
  | none => exact hp.eq_nil
  | some a => exact List.perm_singleton.1 hp

namespace Gathered

variable {g : Gathered} {groups : List Group} (h : Records g groups)

theorem judge_query_iff (hhelp : g.help = false) (hversion : g.version = false) {a : Arguments} :
    g.judge = .ok a ↔ ∃ format property, g.formats = format.toList ∧
      (g.pyproject = true → g.file = none) ∧ g.words = [property] ∧
      a = .query ⟨property, g.source, g.probe, ⟨format, flag g.quiet, flag g.debug, none⟩⟩ := by
  rw [judge, if_neg (by simp [hhelp]), if_neg (by simp [hversion])]
  constructor
  · intro hj
    split at hj
    · nomatch hj
    · next hlen =>
      split at hj
      · nomatch hj
      · next hboth =>
        split at hj
        · nomatch hj
        · next property hw =>
          refine ⟨g.formats.head?, property, ?_, ?_, hw, (Except.ok.inj hj).symm⟩
          · match hf : g.formats with
            | [] => rfl
            | [f] => rfl
            | f :: f' :: rest =>
              rw [hf] at hlen
              exact absurd (by simp) hlen
          · intro hm
            simpa [hm] using hboth
        · nomatch hj
  · rintro ⟨format, property, hf, hboth, hw, rfl⟩
    have hlen : ¬1 < g.formats.length := by
      rw [hf]
      cases format <;> simp
    have hnot : ¬(g.file.isSome && g.pyproject) = true := by
      rw [Bool.and_eq_true]
      rintro ⟨hfile, hm⟩
      simp [hboth hm] at hfile
    rw [if_neg hlen, if_neg hnot, hw, hf]
    cases format <;> rfl

theorem of_judge_query {q : Query} (hj : g.judge = .ok (.query q)) :
    ∃ format property, g.formats = format.toList ∧
      (g.pyproject = true → g.file = none) ∧ g.words = [property] ∧
      q = ⟨property, g.source, g.probe, ⟨format, flag g.quiet, flag g.debug, none⟩⟩ := by
  have hhelp : g.help ≠ true := by
    intro hon
    rw [judge, if_pos hon] at hj
    cases hj
  have hversion : g.version ≠ true := by
    intro hon
    rw [judge, if_neg hhelp, if_pos hon] at hj
    cases hj
  obtain ⟨format, property, hf, hboth, hw, hq⟩ :=
    (judge_query_iff (Bool.eq_false_iff.2 hhelp) (Bool.eq_false_iff.2 hversion)).1 hj
  exact ⟨format, property, hf, hboth, hw, Arguments.query.inj hq⟩

include h

theorem file_eq_some_iff (path : String) : g.file = some path ↔ .file path ∈ groups := by
  rw [← Option.mem_toList, h.file, List.mem_filterMap]
  constructor
  · rintro ⟨group, hm, hg⟩
    cases group with
    | file value =>
      rw [← Option.some.inj hg]
      exact hm
    | _ => nomatch hg
  · exact fun hm => ⟨_, hm, rfl⟩

theorem flag_eq {s : Switch} (hs : (Group.switch s).format? = none) :
    flag (g.isOn s) = if .switch s ∈ groups then some true else none := by
  rw [flag]
  simp only [h.switches s hs]

/-- A query is judged to be what the options ask for. -/
theorem asks_iff (q : Query) :
    Asks groups q ↔ ∃ format property, g.formats = format.toList ∧
      (g.pyproject = true → g.file = none) ∧ g.words = [property] ∧
      q = ⟨property, g.source, g.probe, ⟨format, flag g.quiet, flag g.debug, none⟩⟩ := by
  have hmanifest : g.pyproject = true ↔ .switch .pyproject ∈ groups := h.switches .pyproject rfl
  have hprobe : g.probe = true ↔ .switch .probe ∈ groups := h.switches .probe rfl
  have hnone : groups.filterMap Group.file? = [] ↔ g.file = none := by
    rw [← h.file, Option.toList_eq_nil_iff]
  constructor
  · intro ha
    -- A manifest goes before a file, so only without it does the file tell the source.
    have hsingle : g.pyproject = true → g.file = none := fun hm =>
      hnone.1 (ha.single (hmanifest.1 hm))
    refine ⟨q.flags.format, q.property, ?_, hsingle, by rw [h.words, ha.property], ?_⟩
    · apply eq_toList_of_nodup h.nodup
      intro f
      rw [ha.format, h.formats]
    · have hsource : q.source = g.source := by
        apply source_eq_of_iff
        · rw [ha.manifest, source_manifest_iff, hmanifest]
        · intro path
          rw [ha.file, source_file_iff hsingle, file_eq_some_iff h]
      have hq : q.probe = g.probe := Bool.eq_iff_iff.2 (ha.probe.trans hprobe.symm)
      have hquiet : q.flags.quiet = flag g.quiet :=
        ha.quiet.trans (flag_eq h (s := .quiet) rfl).symm
      have hdebug : q.flags.debug = flag g.debug :=
        ha.debug.trans (flag_eq h (s := .debug) rfl).symm
      have hroot := ha.projectRoot
      obtain ⟨property, source, probe, format, quiet, debug, root⟩ := q
      simp only at hsource hq hquiet hdebug hroot
      rw [hsource, hq, hquiet, hdebug, hroot]
  · rintro ⟨format, property, hf, hsingle, hw, rfl⟩
    constructor
    · rw [← h.words, hw]
    · rw [source_manifest_iff, hmanifest]
    · intro path
      rw [source_file_iff hsingle, file_eq_some_iff h]
    · intro hm
      exact hnone.2 (hsingle (hmanifest.2 hm))
    · exact hprobe
    · intro f
      rw [← h.formats, hf, Option.mem_toList]
    · exact flag_eq h (s := .quiet) rfl
    · exact flag_eq h (s := .debug) rfl
    · rfl

theorem judge_eq_ok_iff (hr : Readable groups) {a : Arguments} :
    g.judge = .ok a ↔ Means groups a := by
  have hhelp : g.help = true ↔ .switch .help ∈ groups := h.switches .help rfl
  have hversion : g.version = true ↔ .switch .version ∈ groups := h.switches .version rfl
  by_cases hh : .switch .help ∈ groups
  · rw [judge, if_pos (hhelp.2 hh)]
    constructor
    · intro ha
      obtain rfl := Except.ok.inj ha
      exact .help hr hh
    · intro hm
      cases hm with
      | help => rfl
      | version _ hnot => exact absurd hh hnot
      | query _ hnot => exact absurd hh hnot
  · have hh' : g.help = false := Bool.eq_false_iff.2 (mt hhelp.1 hh)
    by_cases hv : .switch .version ∈ groups
    · rw [judge, if_neg (by simp [hh']), if_pos (hversion.2 hv)]
      constructor
      · intro ha
        obtain rfl := Except.ok.inj ha
        exact .version hr hh hv
      · intro hm
        cases hm with
        | help _ hyes => exact absurd hyes hh
        | version => rfl
        | query _ _ hnot => exact absurd hv hnot
    · have hv' : g.version = false := Bool.eq_false_iff.2 (mt hversion.1 hv)
      rw [judge_query_iff hh' hv']
      constructor
      · rintro ⟨format, property, hf, hsingle, hw, rfl⟩
        exact .query hr hh hv ((asks_iff h _).2 ⟨format, property, hf, hsingle, hw, rfl⟩)
      · intro hm
        cases hm with
        | help _ hyes => exact absurd hyes hh
        | version _ _ hyes => exact absurd hyes hv
        | @query q _ _ _ ha =>
          obtain ⟨format, property, hf, hsingle, hw, rfl⟩ := (asks_iff h q).1 ha
          exact ⟨format, property, hf, hsingle, hw, rfl⟩

end Gathered
end TomlQuery.Command
