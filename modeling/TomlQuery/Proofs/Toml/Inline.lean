import Mathlib
import TomlQuery.Document
import TomlQuery.Proofs.Text.Joined
import TomlQuery.Proofs.Toml.Proper
import TomlQuery.Proofs.Toml.Scalar
/-! # Inline values read back

The inline text of a proper node is read as the value that the node comes from, as long as the
nesting of the node is within the depth of the reader. The induction is on the depth: the items of
an array and the members of a table are nested one less deep. The members of a table come in the
order of its entries, so each of them is put at the end of those before it.
-/
namespace TomlQuery
namespace Toml
open Text Outcome Node
open TomlQuery.Path (DottedChars keyChars_keyText)

variable {closer : Option Char} {rest : List Char}

/-! ## First characters -/

theorem head_of_digits {digits : List Char} (text : List Char) (hne : digits ≠ [])
    (h : ∀ c ∈ digits, c.isDigit = true) :
    ∃ c after, digits ++ text = c :: after ∧ c.isDigit = true := by
  cases digits with
  | nil => exact absurd rfl hne
  | cons c digits => exact ⟨c, digits ++ text, rfl, h c List.mem_cons_self⟩

theorem head_moment {moment : Moment} {text : List Char} (h : MomentText moment text) :
    ∃ c after, text = c :: after ∧ c.isDigit = true := by
  have hdate : ∀ {date : List Char} (after : List Char), DateText date →
      ∃ c after', date ++ after = c :: after' ∧ c.isDigit = true := by
    intro date after hd
    obtain ⟨a, b, c, d, e, f, g, i, rfl, hx⟩ := hd.shape
    exact ⟨a, _, rfl, hx a List.mem_cons_self⟩
  cases h with
  | localDate hd => simpa using hdate [] hd
  | localTime ht =>
    obtain ⟨a, b, c, d, e, f, fraction, rfl, -, hx⟩ := ht.shape
    exact ⟨a, _, rfl, hx a List.mem_cons_self⟩
  | localDateTime hd ht => exact hdate _ hd
  | offsetDateTime hd ht ho =>
    rw [List.append_assoc]
    exact hdate _ hd

theorem head_float (value : Binary64) :
    ∃ c after, value.text = c :: after ∧ (c.isDigit = true ∨ c ∈ ['"', '-', 'n', 'i', 't', 'f']) := by
  cases value with
  | nan => exact ⟨'n', _, rfl, by simp⟩
  | infinity negative =>
    cases negative with
    | false => exact ⟨'i', _, rfl, by simp⟩
    | true => exact ⟨'-', _, rfl, by simp⟩
  | finite negative word hw =>
    cases negative with
    | true =>
      rw [Binary64.text]
      split
      · exact ⟨'-', _, rfl, by simp⟩
      · exact ⟨'-', _, rfl, by simp⟩
    | false =>
      rw [Binary64.text]
      split
      · exact ⟨'0', _, rfl, by simp⟩
      · next hz =>
        have hpos := Binary64.shortest_digits_pos (Nat.pos_of_ne_zero hz) hw
        generalize Binary64.shortest word = d at hpos
        obtain ⟨whole, x, after, he, hne, hd, -⟩ := (floatText_layout hpos d.power).front hpos
        obtain ⟨c, after', hc, hcd⟩ := head_of_digits (x :: after) hne hd
        exact ⟨c, after', he.trans hc, Or.inl hcd⟩

/-- The inline text of a node that holds no other node begins like a scalar. -/
theorem head_scalar {node : Node} (hn : node.nesting = 0) (hp : Proper node) :
    ∃ c after, node.inlineChars = c :: after ∧
      (c.isDigit = true ∨ c ∈ ['"', '-', 'n', 'i', 't', 'f']) := by
  cases node with
  | table entries => exact absurd hn (Nat.succ_ne_zero _)
  | array items => exact absurd hn (Nat.succ_ne_zero _)
  | string text => exact ⟨'"', _, rfl, by simp⟩
  | integer value =>
    cases value with
    | ofNat n =>
      obtain ⟨c, after, hc, hd⟩ := head_of_digits [] (decimal_ne_nil n)
        fun _ => isDigit_of_mem_decimal
      rw [List.append_nil] at hc
      exact ⟨c, after, hc, Or.inl hd⟩
    | negSucc n => exact ⟨'-', _, rfl, by simp⟩
  | float value => exact head_float value
  | boolean value => cases value <;> exact ⟨_, _, rfl, by simp⟩
  | datetime text moment =>
    obtain ⟨c, after, hc, hd⟩ := head_moment hp
    exact ⟨c, after, hc, Or.inl hd⟩

/-- The inline text of a node begins neither like a gap nor like the end of an array or table. -/
theorem head_inlineChars {node : Node} (hp : Proper node) :
    ∃ c after, node.inlineChars = c :: after ∧
      c ∉ [' ', '\t', '\n', '\r', '#', ']', '\x7d'] := by
  cases node with
  | table entries =>
    rw [inlineChars]
    split
    · exact ⟨'\x7b', _, rfl, by simp⟩
    · exact ⟨'\x7b', _, rfl, by simp⟩
  | array items => exact ⟨'[', _, rfl, by simp⟩
  | _ =>
    obtain ⟨c, after, hc, hd⟩ := head_scalar rfl hp
    refine ⟨c, after, hc, ?_⟩
    rcases hd with hd | hd
    · exact not_mem_of_class hd (by simp)
    · have hall : ∀ c ∈ ['"', '-', 'n', 'i', 't', 'f'],
          c ∉ [' ', '\t', '\n', '\r', '#', ']', '\x7d'] := by simp
      exact hall c hd

theorem skipGap_of_head {c : Char} (h : c ∉ [' ', '\t', '\n', '\r', '#', ']', '\x7d'])
    (text : List Char) : skipGap (c :: text) = .ok (c :: text) := by
  simp only [List.mem_cons, List.not_mem_nil, or_false, not_or] at h
  obtain ⟨h1, h2, h3, h4, h5, -⟩ := h
  unfold skipGap skipGapFrom
  split <;> simp_all [isSpace]

/-! ## Arrays -/

/-- A text that leads to a value by way of a gap. -/
structure LeadsTo (text inner : List Char) : Prop where
  gap : skipGap text = .ok inner
  ne_nil : text ≠ []
  head : ∀ c ∈ inner.head?, c ≠ ']' ∧ c ≠ '\x7d'

theorem leadsTo_of_head {c : Char} (h : c ∉ [' ', '\t', '\n', '\r', '#', ']', '\x7d'])
    {pad : List Char} (hpad : pad = [] ∨ pad = [' ']) (after : List Char) :
    LeadsTo (pad ++ c :: after) (c :: after) := by
  have hgap := skipGap_of_head h after
  have hskip : skipGap (pad ++ c :: after) = skipGap (c :: after) := by
    rcases hpad with rfl | rfl <;> rfl
  refine ⟨hskip.trans hgap, by simp, fun d hd => ?_⟩
  obtain rfl := Option.some.inj hd
  simp only [List.mem_cons, List.not_mem_nil, or_false, not_or] at h
  exact ⟨h.2.2.2.2.2.1, h.2.2.2.2.2.2⟩

theorem leadsTo_node {node : Node} (hp : Proper node) {pad : List Char}
    (hpad : pad = [] ∨ pad = [' ']) (after : List Char) :
    LeadsTo (pad ++ (node.inlineChars ++ after)) (node.inlineChars ++ after) := by
  obtain ⟨c, chars, hc, hm⟩ := head_inlineChars hp
  rw [hc, List.cons_append]
  exact leadsTo_of_head hm hpad _

theorem readItems_last {item : ValueReader} {opening text inner : List Char} {value : Untyped}
    (hl : LeadsTo text inner) (hi : item inner = .ok (value, ']' :: rest)) (n : ℕ)
    (done : List Untyped) :
    readItems item opening (n + 1) done text = .ok (.array (value :: done).reverse, rest) := by
  have hclose : skipGap (']' :: rest) = .ok (']' :: rest) := rfl
  rw [readItems, hl.gap, ok_bind]
  · split
    · exact absurd rfl (hl.head ']' rfl).1
    · rw [hi, ok_bind]
      simp only [hclose, ok_bind]
  · exact hl.ne_nil

theorem readItems_next {item : ValueReader} {opening text inner : List Char} {value : Untyped}
    (hl : LeadsTo text inner) (hi : item inner = .ok (value, ',' :: rest)) (n : ℕ)
    (done : List Untyped) :
    readItems item opening (n + 1) done text = readItems item opening n (value :: done) rest := by
  have hcomma : skipGap (',' :: rest) = .ok (',' :: rest) := rfl
  rw [readItems, hl.gap, ok_bind]
  · split
    · exact absurd rfl (hl.head ']' rfl).1
    · rw [hi, ok_bind]
      simp only [hcomma, ok_bind]
  · exact hl.ne_nil

theorem readItems_inlineItems {item : ValueReader} {items : List Node} (hne : items ≠ [])
    (hp : ∀ node ∈ items, Proper node)
    (hi : ∀ node ∈ items, ∀ after, Follows (some ']') after →
      item (node.inlineChars ++ after) = .ok (node.source, after))
    {n : ℕ} (hn : items.length ≤ n) {pad : List Char} (hpad : pad = [] ∨ pad = [' '])
    (opening : List Char) (done : List Untyped) (rest : List Char) :
    readItems item opening n done
        (pad ++ ([',', ' '].intercalate (inlineItems items) ++ ']' :: rest)) =
      .ok (.array (done.reverse ++ sourceItems items), rest) := by
  induction items generalizing n done pad with
  | nil => exact absurd rfl hne
  | cons node items ih =>
    obtain ⟨hpn, hps⟩ := List.forall_mem_cons.1 hp
    obtain ⟨hin, his⟩ := List.forall_mem_cons.1 hi
    obtain ⟨n, rfl⟩ : ∃ m, n = m + 1 := ⟨n - 1, by simp at hn; omega⟩
    have hlen : items.length ≤ n := by simpa using hn
    cases items with
    | nil =>
      have hread := hin (']' :: rest) (.bracket rest)
      simp only [inlineItems, List.intercalate_singleton]
      rw [readItems_last (leadsTo_node hpn hpad _) hread, List.reverse_cons, sourceItems,
        sourceItems]
    | cons next items =>
      have hread := hin (',' :: ' ' :: ([',', ' '].intercalate (inlineItems (next :: items)) ++
        ']' :: rest)) (.comma (Or.inl rfl) _)
      have hjoin : [',', ' '].intercalate (inlineItems (node :: next :: items)) =
          node.inlineChars ++ ',' :: ' ' :: [',', ' '].intercalate (inlineItems (next :: items)) := by
        simp [inlineItems, List.intercalate_cons_cons]
      have hrest := ih (List.cons_ne_nil _ _) hps his hlen (Or.inr rfl) (node.source :: done)
      rw [hjoin, List.append_assoc, List.cons_append, List.cons_append,
        readItems_next (leadsTo_node hpn hpad _) hread, sourceItems]
      simpa using hrest

/-! ## Tables -/

def valueDrafts (members : Entries Untyped) : Entries Draft :=
  members.map fun member => (member.1, Draft.value member.2)

theorem sealEntries_valueDrafts (members : Entries Untyped) :
    Draft.sealEntries (valueDrafts members) = members := by
  induction members with
  | nil => rfl
  | cons member rest ih =>
    rw [valueDrafts, List.map_cons, Draft.sealEntries, Draft.toUntyped]
    exact congrArg _ ih

/-- A key above all keys so far may be filled, and its entry comes last. -/
theorem slot?_valueDrafts {front : Entries Untyped} {key : String}
    (h : ∀ member ∈ front, member.1 ≠ key ∧ Entries.rank member.1 ≤ Entries.rank key) :
    ∃ fill, Draft.slot? [key] (valueDrafts front) = some fill ∧
      ∀ value, fill value = valueDrafts (front ++ [(key, value)]) := by
  have hnone : (valueDrafts front).get? key = none := by
    rw [valueDrafts, Entries.get?_map, Option.map_eq_none_iff, Entries.get?_eq_none_iff]
    exact fun member hm => (h member hm).1
  refine ⟨_, by rw [Draft.slot?, hnone], fun value => ?_⟩
  rw [valueDrafts, Entries.put_map, Entries.put_eq_append h]
  rfl

theorem keyHead_plain {c : Char} (h : isBareChar c = true ∨ c = '"' ∨ c = '\'') :
    c ∉ [' ', '\t', '\n', '\r', '#', ']', '\x7d'] ∧ c ≠ '[' ∧ c ≠ '\ufeff' := by
  rcases h with h | rfl | rfl
  · exact ⟨not_mem_of_class h (by simp [isBareChar]), ne_of_class h (by decide),
      ne_of_class h (by decide)⟩
  · decide
  · decide

theorem leadsTo_key (key : String) {pad : List Char} (hpad : pad = [] ∨ pad = [' '])
    (after : List Char) : LeadsTo (pad ++ (keyText key ++ after)) (keyText key ++ after) := by
  obtain ⟨c, chars, hc, hb⟩ := head_keyChars (keyChars_keyText key)
  rw [hc, List.cons_append]
  exact leadsTo_of_head (keyHead_plain hb).1 hpad _

section

variable {member : ValueReader} {opening text inner after behind : List Char} {key : List String}
  {done : Entries Draft} {fill : Untyped → Entries Draft} {value : Untyped}

theorem readMembers_last (hl : LeadsTo text inner) (hk : readKey '=' inner = .ok (key, after))
    (hs : Draft.slot? key done = some fill) (hm : member (skipSpaces after) = .ok (value, behind))
    (hg : skipGap behind = .ok ('\x7d' :: rest)) (n : ℕ) :
    readMembers member opening (n + 1) done text =
      .ok (.object (Draft.sealEntries (fill value)), rest) := by
  rw [readMembers, hl.gap, ok_bind]
  · split
    · exact absurd rfl (hl.head '\x7d' rfl).2
    · rw [hk, ok_bind]
      simp only [hs, hm, hg, ok_bind]
  · exact hl.ne_nil

theorem readMembers_next (hl : LeadsTo text inner) (hk : readKey '=' inner = .ok (key, after))
    (hs : Draft.slot? key done = some fill)
    (hm : member (skipSpaces after) = .ok (value, ',' :: rest)) (n : ℕ) :
    readMembers member opening (n + 1) done text =
      readMembers member opening n (fill value) rest := by
  have hcomma : skipGap (',' :: rest) = .ok (',' :: rest) := rfl
  rw [readMembers, hl.gap, ok_bind]
  · split
    · exact absurd rfl (hl.head '\x7d' rfl).2
    · rw [hk, ok_bind]
      simp only [hs, hm, hcomma, ok_bind]
  · exact hl.ne_nil

end

theorem skipSpaces_node {node : Node} (hp : Proper node) (after : List Char) :
    skipSpaces (' ' :: (node.inlineChars ++ after)) = node.inlineChars ++ after := by
  obtain ⟨c, chars, hc, hm⟩ := head_inlineChars hp
  simp only [List.mem_cons, List.not_mem_nil, or_false, not_or] at hm
  have hs : isSpace c = false := by simp [isSpace, hm]
  rw [hc]
  exact skipSpaces_of_head hs _

theorem readMembers_inlineMembers {member : ValueReader} {entries : Entries Node}
    (hne : entries ≠ []) (hp : ∀ entry ∈ entries, Proper entry.2)
    (hm : ∀ entry ∈ entries, ∀ after, Follows (some '\x7d') after →
      member (entry.2.inlineChars ++ after) = .ok (entry.2.source, after))
    (front : Entries Untyped) (ho : Entries.Ordered (front ++ sourceEntries entries))
    {n : ℕ} (hn : entries.length ≤ n) {pad : List Char} (hpad : pad = [] ∨ pad = [' '])
    (opening rest : List Char) :
    readMembers member opening n (valueDrafts front)
        (pad ++ ([',', ' '].intercalate (inlineMembers entries) ++ ' ' :: '\x7d' :: rest)) =
      .ok (.object (front ++ sourceEntries entries), rest) := by
  induction entries generalizing n front pad with
  | nil => exact absurd rfl hne
  | cons entry entries ih =>
    obtain ⟨key, node⟩ := entry
    obtain ⟨hpn, hps⟩ := List.forall_mem_cons.1 hp
    obtain ⟨hmn, hms⟩ := List.forall_mem_cons.1 hm
    obtain ⟨n, rfl⟩ : ∃ m, n = m + 1 := ⟨n - 1, by simp at hn; omega⟩
    have hlen : entries.length ≤ n := by simpa using hn
    have ho' : Entries.Ordered (front ++ [(key, node.source)] ++ sourceEntries entries) := by
      simpa [sourceEntries] using ho
    obtain ⟨fill, hslot, hfill⟩ :=
      slot?_valueDrafts (Entries.ordered_append_one (List.pairwise_append.1 ho').1)
    have hassoc : ∀ after, keyText key ++ [' ', '=', ' '] ++ node.inlineChars ++ after =
        keyText key ++ ' ' :: '=' :: ' ' :: (node.inlineChars ++ after) := by simp
    have hkey := fun after => readKey_keyText key (' ' :: (node.inlineChars ++ after))
    have hl := fun after =>
      leadsTo_key key hpad (' ' :: '=' :: ' ' :: (node.inlineChars ++ after))
    cases entries with
    | nil =>
      have hread := hmn (' ' :: '\x7d' :: rest) (.brace rest)
      rw [← skipSpaces_node hpn] at hread
      have hclose : skipGap (' ' :: '\x7d' :: rest) = .ok ('\x7d' :: rest) := rfl
      simp only [inlineMembers, List.intercalate_singleton]
      rw [hassoc, readMembers_last (hl _) (hkey _) hslot hread hclose, hfill,
        sealEntries_valueDrafts, sourceEntries, sourceEntries]
    | cons next entries =>
      have hread := hmn (',' :: ' ' :: ([',', ' '].intercalate (inlineMembers (next :: entries)) ++
        ' ' :: '\x7d' :: rest)) (.comma (Or.inr rfl) _)
      rw [← skipSpaces_node hpn] at hread
      have hjoin : [',', ' '].intercalate (inlineMembers ((key, node) :: next :: entries)) =
          keyText key ++ [' ', '=', ' '] ++ node.inlineChars ++
            ',' :: ' ' :: [',', ' '].intercalate (inlineMembers (next :: entries)) := by
        simp [inlineMembers, List.intercalate_cons_cons]
      have hrest := ih (List.cons_ne_nil _ _) hps hms _ ho' hlen (Or.inr rfl)
      rw [hjoin, List.append_assoc, List.cons_append, List.cons_append, hassoc,
        readMembers_next (hl _) (hkey _) hslot hread, hfill, sourceEntries]
      simpa using hrest

/-! ## Values -/

theorem length_inlineItems {items : List Node} (h : ∀ node ∈ items, Proper node) :
    items.length ≤ ([',', ' '].intercalate (inlineItems items)).length := by
  have hlen : (inlineItems items).length = items.length ∧ ∀ text ∈ inlineItems items, text ≠ [] := by
    induction items with
    | nil => exact ⟨rfl, nofun⟩
    | cons node items ih =>
      obtain ⟨hp, hps⟩ := List.forall_mem_cons.1 h
      obtain ⟨hl, hne⟩ := ih hps
      obtain ⟨c, after, hc, -⟩ := head_inlineChars hp
      rw [inlineItems]
      exact ⟨congrArg (· + 1) hl, List.forall_mem_cons.2 ⟨by rw [hc]; exact nofun, hne⟩⟩
  rw [← hlen.1]
  exact length_le_intercalate _ hlen.2

theorem length_inlineMembers (entries : Entries Node) :
    entries.length ≤ ([',', ' '].intercalate (inlineMembers entries)).length := by
  have hlen : (inlineMembers entries).length = entries.length ∧
      ∀ text ∈ inlineMembers entries, text ≠ [] := by
    induction entries with
    | nil => exact ⟨rfl, nofun⟩
    | cons entry entries ih =>
      obtain ⟨hl, hne⟩ := ih
      rw [inlineMembers]
      exact ⟨congrArg (· + 1) hl, List.forall_mem_cons.2 ⟨by simp, hne⟩⟩
  rw [← hlen.1]
  exact length_le_intercalate _ hlen.2

theorem readValue_of_head {c : Char} (hopen : c ≠ '[') (hbrace : c ≠ '\x7b') (depth : ℕ)
    (closer : Option Char) (text : List Char) :
    readValue depth closer (c :: text) = readScalar closer (c :: text) := by
  cases depth with
  | zero =>
    unfold readValue
    split
    · next he => exact absurd (List.cons.inj he).1 hopen
    · next he => exact absurd (List.cons.inj he).1 hbrace
    · rfl
  | succ depth =>
    unfold readValue
    split
    · next he => exact absurd (List.cons.inj he).1 hopen
    · next he => exact absurd (List.cons.inj he).1 hbrace
    · rfl

theorem readValue_scalar {node : Node} (hn : node.nesting = 0) (hp : Proper node) (depth : ℕ)
    (h : Follows closer rest) :
    readValue depth closer (node.inlineChars ++ rest) = .ok (node.source, rest) := by
  have hread := readScalar_inlineChars hn hp h
  obtain ⟨c, after, hc, hd⟩ := head_scalar hn hp
  have hne : c ≠ '[' ∧ c ≠ '\x7b' := by
    constructor
    · rintro rfl
      exact absurd hd (by simp)
    · rintro rfl
      exact absurd hd (by simp)
  rw [hc] at hread ⊢
  rw [List.cons_append, readValue_of_head hne.1 hne.2]
  exact hread

theorem readValue_table (depth : ℕ) (closer : Option Char) (text : List Char) :
    readValue (depth + 1) closer ('\x7b' :: text) =
      readMembers (readValue depth (some '\x7d')) ('\x7b' :: text) (text.length + 1) [] text := rfl

theorem readValue_array (depth : ℕ) (closer : Option Char) (text : List Char) :
    readValue (depth + 1) closer ('[' :: text) =
      readItems (readValue depth (some ']')) ('[' :: text) (text.length + 1) [] text := rfl

theorem readValue_inlineChars {node : Node} {depth : ℕ} (hp : Everywhere Proper node)
    (hd : node.nesting ≤ depth) (h : Follows closer rest) :
    readValue depth closer (node.inlineChars ++ rest) = .ok (node.source, rest) := by
  induction depth generalizing node closer rest with
  | zero => exact readValue_scalar (Nat.le_zero.1 hd) (hp node .self) 0 h
  | succ depth ih =>
    cases node with
    | table entries =>
      obtain ⟨ho, hs⟩ := (everywhere_table entries).1 hp
      rw [nesting, Nat.succ_le_succ_iff] at hd
      by_cases he : entries = []
      · subst he
        rfl
      · have htext : (Node.table entries).inlineChars ++ rest = '\x7b' ::
            ([' '] ++ ([',', ' '].intercalate (inlineMembers entries) ++ ' ' :: '\x7d' :: rest)) := by
          rw [inlineChars, if_neg (by simpa using he)]
          simp
        have hlen := length_inlineMembers entries
        have hkeys : (sourceEntries entries).map Prod.fst = entries.map Prod.fst := by
          rw [sourceEntries_eq_map, List.map_map]
          rfl
        rw [htext, readValue_table, source]
        refine readMembers_inlineMembers he (fun e hm => hs e hm _ .self) (fun e hm _ hf => ?_)
          [] (Entries.ordered_of_keys hkeys ho) ?_ (Or.inr rfl) _ rest
        · exact ih (hs e hm) (Nat.le_trans (nesting_le_of_mem_entries hm) hd) hf
        · simp only [List.length_append]
          omega
    | array items =>
      obtain ⟨-, hs⟩ := (everywhere_array items).1 hp
      rw [nesting, Nat.succ_le_succ_iff] at hd
      by_cases he : items = []
      · subst he
        rfl
      · have hproper : ∀ item ∈ items, Proper item := fun item hm => hs item hm _ .self
        have htext : (Node.array items).inlineChars ++ rest =
            '[' :: ([] ++ ([',', ' '].intercalate (inlineItems items) ++ ']' :: rest)) := by
          rw [inlineChars]
          simp
        have hlen := length_inlineItems hproper
        rw [htext, readValue_array, source]
        refine readItems_inlineItems he hproper (fun item hm _ hf => ?_) ?_ (Or.inl rfl) _ [] rest
        · exact ih (hs item hm) (Nat.le_trans (nesting_le_of_mem_items hm) hd) hf
        · simp only [List.length_append]
          omega
    | _ => exact readValue_scalar rfl (hp _ .self) _ h

/-! ## Documents -/

theorem head_dotted {text : List Char} {names : List (List Char)} (h : DottedChars text names) :
    ∃ c rest, text = c :: rest ∧ (isBareChar c = true ∨ c = '"' ∨ c = '\'') := by
  cases h with
  | last hk => exact head_keyChars hk
  | dot hk =>
    obtain ⟨c, rest, rfl, hc⟩ := head_keyChars hk
    exact ⟨c, _, List.cons_append, hc⟩

theorem readStatements_nil (n : ℕ) (tables : Tables) :
    readStatements n tables [] = .ok tables.entries := by
  cases n <;> rfl

/-- A pair of a dotted key and an inline value on a line of its own is a statement. -/
theorem readPair_dotted {text : List Char} {names : List (List Char)} (h : DottedChars text names)
    (ha : Allowed text) {fill : Untyped → Entries Draft}
    (hs : Draft.slot? (names.map String.ofList) [] = some fill) {node : Node}
    (hp : Everywhere Proper node) (hd : node.nesting ≤ maxDepth) (rest : List Char) :
    readPair ⟨[], []⟩ (text ++ ' ' :: '=' :: ' ' :: (node.inlineChars ++ '\n' :: rest)) =
      .ok (⟨[], fill node.source⟩, '\n' :: rest) := by
  have hslot : Draft.slotWithin? [] (names.map String.ofList) [] = some fill := hs
  have hread := readValue_inlineChars hp hd (Follows.line rest)
  rw [readPair, readKey_dotted h ha, ok_bind]
  simp only [hslot, skipSpaces_node (hp node .self), hread, ok_bind]

theorem dropMark_of_head {c : Char} (h : c ≠ '\ufeff') (text : List Char) :
    dropMark (c :: text) = c :: text := by
  unfold dropMark
  split
  · next he => exact absurd (List.cons.inj he).1 h
  · rfl

theorem readStatement_of_head {c : Char} (h : c ≠ '[') (tables : Tables) (text : List Char) :
    readStatement tables (c :: text) = readPair tables (c :: text) := by
  unfold readStatement
  split
  · next he => exact absurd (List.cons.inj he).1 h
  · rfl

theorem readChars_dotted {text : List Char} {names : List (List Char)} (h : DottedChars text names)
    (ha : Allowed text) {fill : Untyped → Entries Draft}
    (hs : Draft.slot? (names.map String.ofList) [] = some fill) {node : Node}
    (hp : Everywhere Proper node) (hd : node.nesting ≤ maxDepth) :
    readChars (text ++ ' ' :: '=' :: ' ' :: (node.inlineChars ++ ['\n'])) =
      .ok (.object (Draft.sealEntries (fill node.source))) := by
  have hpair := readPair_dotted h ha hs hp hd []
  have hline : skipToLineEnd ['\n'] = .ok ['\n'] := rfl
  have hafter : skipGap ['\n'] = .ok [] := rfl
  obtain ⟨c, chars, rfl, hb⟩ := head_dotted h
  obtain ⟨hgap, hopen, hmark⟩ := keyHead_plain hb
  rw [List.cons_append] at hpair
  rw [List.cons_append, readChars, dropMark_of_head hmark, skipGap_of_head hgap, ok_bind,
    List.length_cons, readStatements, readStatement_of_head hopen, hpair, ok_bind]
  · simp only [hline, hafter, ok_bind, startsLine, Bool.or_true, if_true, readStatements_nil]
  · exact List.cons_ne_nil _ _

theorem readChars_pair (key : String) {node : Node} (hp : Everywhere Proper node)
    (hd : node.nesting ≤ maxDepth) :
    readChars (keyText key ++ ' ' :: '=' :: ' ' :: (node.inlineChars ++ ['\n'])) =
      .ok (.object [(key, node.source)]) := by
  obtain ⟨fill, hslot, hfill⟩ := @slot?_valueDrafts [] key nofun
  have hs : Draft.slot? ([key.toList].map String.ofList) [] = some fill := by
    rw [List.map_singleton, String.ofList_toList]
    exact hslot
  rw [readChars_dotted (.last (keyChars_keyText key)) (allowed_keyText key) hs hp hd, hfill,
    sealEntries_valueDrafts]
  rfl

end Toml

/-- A document with the inline value of any node of a document reads back as that node. -/
theorem Document.read_inlineText {text : String} {root node : Node}
    (hr : Document.read text = .ok root) (hw : Node.Within node root)
    (hd : node.nesting ≤ Toml.maxDepth) :
    Document.read ("value = " ++ node.inlineText ++ "\n") = .ok (.table [("value", node)]) := by
  have hp := (Document.read_proper hr).within hw
  have hread := Toml.readChars_pair "value" hp hd
  have hkey : Text.keyText "value" = ['v', 'a', 'l', 'u', 'e'] := by decide
  have htext : ("value = " ++ node.inlineText ++ "\n").toList =
      Text.keyText "value" ++ ' ' :: '=' :: ' ' :: (node.inlineChars ++ ['\n']) := by
    simp [Node.inlineText, hkey]
  refine Document.read_eq_ok_iff.2 ⟨_, htext ▸ hread, ?_⟩
  rw [Untyped.toNode, Untyped.toEntries, Node.toNode_source hp]
  rfl

theorem Document.read_inlineText_table :
    Document.read "t.x = [+1, -0e7]\nt.'d' = 1979-05-27\n" = .ok (.table [("t", .table
      [("x", .array [.integer 1, .float (.zero true)]), ("d", .datetime "1979-05-27" .localDate)])]) ∧
    Document.read "value = \x7b x = [1, -0.0], d = 1979-05-27 \x7d\n" = .ok (.table [("value", .table
      [("x", .array [.integer 1, .float (.zero true)]), ("d", .datetime "1979-05-27" .localDate)])]) := by
  have hr : Document.read "t.x = [+1, -0e7]\nt.'d' = 1979-05-27\n" = .ok (.table [("t", .table
      [("x", .array [.integer 1, .float (.zero true)]),
        ("d", .datetime "1979-05-27" .localDate)])]) := by decide +kernel
  have h := Document.read_inlineText hr (.entry List.mem_cons_self .self) (by decide)
  have htext : "value = " ++ (Node.table [("x", .array [.integer 1, .float (.zero true)]),
      ("d", .datetime "1979-05-27" .localDate)]).inlineText ++ "\n" =
        "value = \x7b x = [1, -0.0], d = 1979-05-27 \x7d\n" := by decide +kernel
  rw [htext] at h
  exact ⟨hr, h⟩

end TomlQuery
