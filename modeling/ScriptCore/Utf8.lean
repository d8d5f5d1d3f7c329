import ScriptCore.Bytes

/-!
# UTF-8

Characters are written as one to four bytes. Bytes that were not written that
way are still shown: `decode` reads the longest possible beginning of a
character that goes no further as one replacement character, and goes on with
the byte that did not fit. `decode?` reads written text only.
-/

namespace ScriptCore.Utf8

/-- The bytes of a list of characters. -/
def encode (cs : List Char) : Bytes :=
  cs.flatMap String.utf8EncodeChar

/-- The character shown for bytes that spell none. -/
abbrev replacement : Char := '\ufffd'

/-- The beginning of a character: `owed + 1` bytes are to come, the next one
    between `low` and `high`, and `value` is what the bytes so far spell. -/
structure Opening where
  owed : Nat
  low : UInt8
  high : UInt8
  value : Nat
  deriving DecidableEq, Repr

/-- What a byte opens where a character may begin: the character it spells
    alone, or the replacement character, or the beginning of a longer one.
    The ranges keep out spellings that are longer than need be, surrogates and
    values above the last character. -/
def lead (b : UInt8) : Char ⊕ Opening :=
  if b ≤ 0x7F then .inl (Char.ofNat b.toNat)
  else if 0xC2 ≤ b ∧ b ≤ 0xDF then .inr ⟨0, 0x80, 0xBF, b.toNat - 0xC0⟩
  else if b = 0xE0 then .inr ⟨1, 0xA0, 0xBF, 0⟩
  else if 0xE1 ≤ b ∧ b ≤ 0xEC then .inr ⟨1, 0x80, 0xBF, b.toNat - 0xE0⟩
  else if b = 0xED then .inr ⟨1, 0x80, 0x9F, 0x0D⟩
  else if 0xEE ≤ b ∧ b ≤ 0xEF then .inr ⟨1, 0x80, 0xBF, b.toNat - 0xE0⟩
  else if b = 0xF0 then .inr ⟨2, 0x90, 0xBF, 0⟩
  else if 0xF1 ≤ b ∧ b ≤ 0xF3 then .inr ⟨2, 0x80, 0xBF, b.toNat - 0xF0⟩
  else if b = 0xF4 then .inr ⟨2, 0x80, 0x8F, 4⟩
  else .inl replacement

/-- An opening continued by the byte `b`: the character it completes or the
    longer opening, or nothing if `b` cannot continue it. -/
def Opening.push (o : Opening) (b : UInt8) : Option (Char ⊕ Opening) :=
  if o.low ≤ b ∧ b ≤ o.high then
    let value := 64 * o.value + (b.toNat - 0x80)
    match o.owed with
    | 0 => some (.inl (Char.ofNat value))
    | n + 1 => some (.inr ⟨n, 0x80, 0xBF, value⟩)
  else none

/-- One step of decoding, from between characters or after an opening: the
    characters shown and the new opening. -/
def step : Option Opening → UInt8 → List Char × Option Opening
  | none, b => match lead b with
    | .inl c => ([c], none)
    | .inr o => ([], some o)
  | some o, b => match o.push b with
    | some (.inl c) => ([c], none)
    | some (.inr o) => ([], some o)
    | none => match lead b with
      | .inl c => ([replacement, c], none)
      | .inr o => ([replacement], some o)

/-- The characters that bytes show after an opening. -/
def decodeFrom : Option Opening → Bytes → List Char
  | none, [] => []
  | some _, [] => [replacement]
  | o, b :: bs => (step o b).1 ++ decodeFrom (step o b).2 bs

/-- The text that bytes show. -/
def decode (bs : Bytes) : String :=
  String.ofList (decodeFrom none bs)

/-- The text written by bytes, if they are the bytes of a text. -/
def decode? (bs : Bytes) : Option String :=
  let cs := decodeFrom none bs
  if encode cs = bs then some (String.ofList cs) else none

end ScriptCore.Utf8

namespace ScriptCore

/-- The bytes of a text. -/
def Bytes.ofString (s : String) : Bytes :=
  Utf8.encode s.toList

end ScriptCore
