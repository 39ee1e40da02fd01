/-! Reading bytes as UTF-8.

Bytes that form no character are replaced: the longest start of a character that cannot be completed counts as
one replacement character. -/
namespace LivePreview.Text

/-- The character that stands for bytes which form none. -/
def replacement : Char := '\uFFFD'

/-- What a first byte asks for: the number of bytes that follow it and the range of the next one. -/
def lead? (b : UInt8) : Option (Nat × UInt8 × UInt8) :=
  if b < 0x80 then some (0, 0, 0)
  else if 0xC2 ≤ b && b ≤ 0xDF then some (1, 0x80, 0xBF)
  else if b == 0xE0 then some (2, 0xA0, 0xBF)
  else if b == 0xED then some (2, 0x80, 0x9F)
  else if 0xE1 ≤ b && b ≤ 0xEF then some (2, 0x80, 0xBF)
  else if b == 0xF0 then some (3, 0x90, 0xBF)
  else if 0xF1 ≤ b && b ≤ 0xF3 then some (3, 0x80, 0xBF)
  else if b == 0xF4 then some (3, 0x80, 0x8F)
  else none

/-- The value bits of a first byte that `n` bytes follow. -/
def leadBits (b : UInt8) (n : Nat) : Nat :=
  match n with
  | 0 => b.toNat
  | 1 => b.toNat % 32
  | 2 => b.toNat % 16
  | _ => b.toNat % 8

/-- Where the reader stands: how many bytes the character still needs, the range of the next one, and the value
of those read. -/
structure Pending where
  need : Nat
  low : UInt8
  high : UInt8
  value : Nat

/-- The characters of the bytes, with replacements, where a character may be half read. -/
def decodeFrom (pending : Option Pending) : List UInt8 → List Char
  | [] => if pending.isSome then [replacement] else []
  | b :: r =>
    match pending with
    | some p =>
      if p.low ≤ b && b ≤ p.high then
        let value := p.value * 64 + b.toNat % 64
        if p.need == 1 then Char.ofNat value :: decodeFrom none r
        else decodeFrom (some ⟨p.need - 1, 0x80, 0xBF, value⟩) r
      else replacement :: start b r
    | none => start b r
where
  start (b : UInt8) (r : List UInt8) : List Char :=
    match lead? b with
    | none => replacement :: decodeFrom none r
    | some (0, _, _) => Char.ofNat b.toNat :: decodeFrom none r
    | some (n, low, high) => decodeFrom (some ⟨n, low, high, leadBits b n⟩) r

/-- The text of the bytes, with replacements. -/
def decodeLossy (bytes : ByteArray) : String :=
  match String.fromUTF8? bytes with
  | some s => s
  | none => String.ofList (decodeFrom none bytes.toList)

/-- The number of bytes of the longest valid start of a text, and the number of bytes that are wrong after it;
none are when the text ends inside a character. -/
def invalidAt (pos : Nat) (pending : Option (Pending × Nat)) : List UInt8 → Option (Nat × Option Nat)
  | [] => pending.map fun (_, taken) => (pos - taken, none)
  | b :: r =>
    match pending with
    | some (p, taken) =>
      if p.low ≤ b && b ≤ p.high then
        if p.need == 1 then invalidAt (pos + 1) none r
        else invalidAt (pos + 1) (some (⟨p.need - 1, 0x80, 0xBF, 0⟩, taken + 1)) r
      else some (pos - taken, some taken)
    | none =>
      match lead? b with
      | none => some (pos, some 1)
      | some (0, _, _) => invalidAt (pos + 1) none r
      | some (n, low, high) => invalidAt (pos + 1) (some (⟨n, low, high, 0⟩, 1)) r

/-- What is wrong with bytes that are no UTF-8 text. -/
def utf8Complaint? (bytes : ByteArray) : Option String :=
  (invalidAt 0 none bytes.toList).map fun (pos, wrong) =>
    match wrong with
    | some n => "invalid utf-8 sequence of " ++ toString n ++ " bytes from index " ++ toString pos
    | none => "incomplete utf-8 byte sequence from index " ++ toString pos

end LivePreview.Text
