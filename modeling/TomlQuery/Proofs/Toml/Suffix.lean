import Mathlib.Data.List.TakeDrop
import Mathlib.Tactic.Common
import TomlQuery.Proofs.Outcome
import TomlQuery.Toml.Key
import TomlQuery.Toml.Number
/-! # What readers leave

What a reader of a gap, of a string, of a key or of a row of digits leaves of a text is an end of
that text.
-/
namespace TomlQuery.Toml
open Outcome

variable {text rest : List Char}

/-! ## Gaps -/

theorem skipSpaces_suffix (text : List Char) : skipSpaces text <:+ text := List.dropWhile_suffix _

theorem skipComment_suffix (h : skipComment text = .ok rest) : rest <:+ text := by
  fun_induction skipComment text with
  | case1 => cases h; exact List.suffix_rfl
  | case2 => cases h; exact List.suffix_rfl
  | case3 => cases h; exact List.suffix_cons _ _
  | case4 => cases h
  | case5 c text _ _ _ ih => exact (ih h).trans (List.suffix_cons _ _)

theorem skipToLineEnd_suffix (h : skipToLineEnd text = .ok rest) : rest <:+ text := by
  have hspaces := skipSpaces_suffix text
  unfold skipToLineEnd at h
  split at h
  · next he =>
    rw [he] at hspaces
    exact ((skipComment_suffix h).trans (List.suffix_cons _ _)).trans hspaces
  · cases h
    exact hspaces

theorem skipGapFrom_suffix {commented : Bool} (h : skipGapFrom commented text = .ok rest) :
    rest <:+ text := by
  fun_induction skipGapFrom commented text with
  | case1 => cases h; exact List.suffix_rfl
  | case2 _ text ih => exact (ih h).trans (List.suffix_cons _ _)
  | case3 _ text ih => exact (ih h).trans ⟨['\r', '\n'], rfl⟩
  | case4 => cases h
  | case5 c text _ _ _ ih => exact (ih h).trans (List.suffix_cons _ _)
  | case6 c text _ _ _ ih => exact (ih h).trans (List.suffix_cons _ _)
  | case7 _ _ _ _ ih => exact (ih h).trans (List.suffix_cons _ _)
  | case8 => cases h; exact List.suffix_rfl

theorem skipGap_suffix (h : skipGap text = .ok rest) : rest <:+ text := skipGapFrom_suffix h

/-! ## Strings -/

theorem closing?_suffix {q : Quote} {extra : List Char} (h : closing? q text = some (extra, rest)) :
    rest <:+ text := by
  unfold closing? at h
  split at h
  · cases h
  · next c after =>
    split at h
    · cases h
    split at h
    · cases h
      exact List.suffix_cons _ _
    -- of a longer row of marks, up to two more are passed
    split at h
    · next a b behind =>
      have hpassed : behind <:+ c :: a :: b :: behind := ⟨[c, a, b], rfl⟩
      split at h
      · cases h
      split at h
      · next d e behind =>
        split at h
        · cases h
          exact hpassed
        split at h
        · cases h
          exact (List.suffix_cons d _).trans hpassed
        · cases h
          exact (List.suffix_append [d, e] _).trans hpassed
      · split at h
        · cases h
          exact List.nil_suffix
        · cases h
          exact hpassed
      · cases h
        exact List.nil_suffix
    · cases h

theorem guarded_closed {q : Quote} {c : Char} {after text rest : List Char} {progress : Progress}
    {done : List Char} {inside : Except Fault Turn}
    (h : guarded q c after (.on progress done) inside = .ok (.closed text rest)) :
    inside = .ok (.closed text rest) := by
  unfold guarded at h
  split at h
  · cases h
  split at h
  · cases h
  · exact h

section Turns

variable {q : Quote} {done after : List Char} {c : Char}

theorem plainTurn_suffix (h : plainTurn q done c after = .closed text rest) :
    rest <:+ c :: after := by
  unfold plainTurn at h
  split at h
  · next hc =>
    cases h
    exact closing?_suffix hc
  · split at h <;> cases h

theorem freshTurn_suffix (h : freshTurn q done c after = .closed text rest) :
    rest <:+ c :: after := by
  unfold freshTurn at h
  split at h
  · next hc =>
    cases h
    exact closing?_suffix hc
  · split at h
    · cases h
    · split at h <;> cases h

theorem escapeTurn_ne_closed (backslash : List Char) :
    escapeTurn q backslash done c after ≠ .ok (.closed text rest) := by
  intro h
  unfold escapeTurn at h
  split at h
  · cases h
  split at h
  · cases h
  · split at h <;> cases h

theorem codedTurn_ne_closed (backslash : List Char) (left value : ℕ) :
    codedTurn backslash left value done c after ≠ .ok (.closed text rest) := by
  intro h
  unfold codedTurn at h
  split at h
  · cases h
  · dsimp only at h
    split at h
    · cases h
    · split at h <;> cases h

/-- A string is closed by its marks only, and what is behind them is left. -/
theorem turn_suffix {progress : Progress}
    (h : turn q done c after progress = .ok (.closed text rest)) : rest <:+ c :: after := by
  cases progress with
  | plain => exact plainTurn_suffix (Except.ok.inj (guarded_closed h))
  | fresh => exact freshTurn_suffix (Except.ok.inj (guarded_closed h))
  | trailing backslash =>
    have hclosed := guarded_closed h
    split at hclosed <;> cases hclosed
  | escape backslash => exact absurd (guarded_closed h) (escapeTurn_ne_closed backslash)
  | coded backslash left value => exact absurd h (codedTurn_ne_closed backslash left value)

end Turns

theorem readString_suffix {q : Quote} {opening done literal : List Char} {progress : Progress}
    (h : readString q opening progress done text = .ok (literal, rest)) : rest <:+ text := by
  induction text generalizing progress done with
  | nil => cases progress <;> cases h
  | cons c after ih =>
    rw [readString, bind_eq_ok_iff] at h
    obtain ⟨outcome, ht, h⟩ := h
    cases outcome with
    | on next done => exact (ih h).trans (List.suffix_cons _ _)
    | closed =>
      cases h
      exact turn_suffix ht

theorem dropLineEnd_suffix (text : List Char) : dropLineEnd text <:+ text := by
  unfold dropLineEnd
  split
  · exact List.suffix_cons _ _
  · exact ⟨['\r', '\n'], rfl⟩
  · exact List.suffix_rfl

theorem readLiteral_suffix {literal : List Char} (h : readLiteral text = .ok (literal, rest)) :
    rest <:+ text := by
  unfold readLiteral at h
  split at h
  · cases h
  · next m _ =>
    split at h
    · next a b after =>
      split at h
      · exact ((readString_suffix h).trans (dropLineEnd_suffix _)).trans ⟨[m, a, b], rfl⟩
      · exact (readString_suffix h).trans (List.suffix_cons _ _)
    · exact (readString_suffix h).trans (List.suffix_cons _ _)

/-! ## Keys -/

theorem readPart_suffix {closer : Char} {start : List Char} {part : String}
    (h : readPart closer start text = .ok (part, rest)) : rest <:+ text := by
  unfold readPart at h
  split at h
  · cases h
  · split at h
    · cases h
    split at h
    · cases h
    split at h
    · split at h
      · cases h
      · obtain ⟨⟨literal, after⟩, hl, h⟩ := bind_eq_ok_iff.1 h
        cases h
        exact readLiteral_suffix hl
    split at h
    · rw [List.span_eq_takeWhile_dropWhile] at h
      cases h
      exact List.dropWhile_suffix _
    split at h <;> cases h

theorem readParts_suffix {closer : Char} {start : List Char} {n : ℕ} {done key : List String}
    (h : readParts closer start n done text = .ok (key, rest)) : rest <:+ text := by
  induction n generalizing done text with
  | zero => cases h
  | succ n ih =>
    obtain ⟨⟨part, after⟩, hp, h⟩ := bind_eq_ok_iff.1 h
    have hafter := (readPart_suffix hp).trans (skipSpaces_suffix text)
    have hspaces := (skipSpaces_suffix after).trans hafter
    dsimp only at h
    split at h
    · cases h
    · next c behind he =>
      rw [he] at hspaces
      have hbehind := (List.suffix_cons c behind).trans hspaces
      split at h
      · cases h
        exact hbehind
      split at h
      · exact (ih h).trans hbehind
      split at h <;> cases h

theorem readKey_suffix {closer : Char} {key : List String}
    (h : readKey closer text = .ok (key, rest)) : rest <:+ text := readParts_suffix h

/-! ## Words and digits -/

theorem readWord_suffix {start word : List Char} (h : readWord start word text = .ok rest) :
    rest <:+ text := by
  fun_induction readWord start word text with
  | case1 =>
    cases h
    exact List.suffix_rfl
  | case2 _ _ _ ih => exact (ih h).trans (List.suffix_cons _ _)
  | case3 => cases h
  | case4 => cases h

theorem readRow_suffix {row : Row} {needed : Bool} {done digits : List Char}
    (h : readRow row needed done text = .ok (digits, rest)) : rest <:+ text := by
  induction text generalizing needed done with
  | nil =>
    unfold readRow at h
    split at h
    · cases h
    · cases h
      exact List.suffix_rfl
  | cons c text ih =>
    unfold readRow at h
    split at h
    · exact (ih h).trans (List.suffix_cons _ _)
    split at h
    · split at h
      · cases h
      · split at h <;> cases h
    split at h
    · exact (ih h).trans (List.suffix_cons _ _)
    · cases h
      exact List.suffix_rfl

end TomlQuery.Toml
