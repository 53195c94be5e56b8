import TomlQuery.Text.Units
/-! # Text from bytes

Bytes are read as UTF-8. Every longest front part of a character that the next byte does not
continue, and every byte that begins no character, becomes one replacement character. A byte
order mark is kept.
-/
namespace TomlQuery.Text.Utf8

/-- What the bytes read so far ask of the next one: nothing, or a number of further bytes,
the first of them between two bounds. -/
inductive State
  | idle
  | pending (left lower upper value : Nat)
  deriving DecidableEq, Repr

/-- A byte that may begin a character. -/
def lead (b : Nat) : List Char × State :=
  if b < 0x80 then ([Char.ofNat b], .idle)
  else if 0xc2 ≤ b ∧ b ≤ 0xdf then ([], .pending 1 0x80 0xbf (b - 0xc0))
  else if b = 0xe0 then ([], .pending 2 0xa0 0xbf 0)
  else if b = 0xed then ([], .pending 2 0x80 0x9f 0xd)
  else if 0xe1 ≤ b ∧ b ≤ 0xef then ([], .pending 2 0x80 0xbf (b - 0xe0))
  else if b = 0xf0 then ([], .pending 3 0x90 0xbf 0)
  else if 0xf1 ≤ b ∧ b ≤ 0xf3 then ([], .pending 3 0x80 0xbf (b - 0xf0))
  else if b = 0xf4 then ([], .pending 3 0x80 0x8f 4)
  else ([replacement], .idle)

def step (b : Nat) : State → List Char × State
  | .idle => lead b
  | .pending left lower upper value =>
    if lower ≤ b ∧ b ≤ upper then
      let value := value * 64 + (b - 0x80)
      if left = 1 then ([Char.ofNat value], .idle) else ([], .pending (left - 1) 0x80 0xbf value)
    else
      let (text, state) := lead b
      (replacement :: text, state)

def decodeFrom (state : State) (done : List Char) : List UInt8 → List Char
  | [] => if state = .idle then done.reverse else (replacement :: done).reverse
  | b :: bytes =>
    let (text, state) := step b.toNat state
    decodeFrom state (text.reverse ++ done) bytes

def decode (bytes : List UInt8) : List Char := decodeFrom .idle [] bytes

def encode (text : List Char) : List UInt8 := text.flatMap String.utf8EncodeChar

end TomlQuery.Text.Utf8
