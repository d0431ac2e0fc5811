/-
  Subject:   Strings of bytes.

  * `Text.validUtf8` -- whether they are.
-/

namespace MlmForge

/-- A string of bytes. -/
abbrev Text := List UInt8

namespace Text

/-- The range of an ordinary continuation byte. -/
def continuation : UInt8 × UInt8 := (0x80, 0xBF)

/-- The ranges of the bytes that must follow a first byte, if it is one. -/
def following (b : UInt8) : Option (List (UInt8 × UInt8)) :=
  if b < 0x80 then some []
  else if 0xC2 ≤ b ∧ b ≤ 0xDF then some [continuation]
  else if b = 0xE0 then some [(0xA0, 0xBF), continuation]
  else if b = 0xED then some [(0x80, 0x9F), continuation]
  else if 0xE1 ≤ b ∧ b ≤ 0xEF then some [continuation, continuation]
  else if b = 0xF0 then some [(0x90, 0xBF), continuation, continuation]
  else if 0xF1 ≤ b ∧ b ≤ 0xF3 then some [continuation, continuation, continuation]
  else if b = 0xF4 then some [(0x80, 0x8F), continuation, continuation]
  else none

/-- One byte of a scan; `pending` are the ranges of the bytes still to come in this character. -/
def utf8Step (pending : List (UInt8 × UInt8)) (b : UInt8) : Option (List (UInt8 × UInt8)) :=
  match pending with
  | [] => following b
  | (low, high) :: rest => if low ≤ b ∧ b ≤ high then some rest else none

/-- Whether the bytes are UTF-8: no overlong form, no surrogate, nothing past U+10FFFF. -/
def validUtf8 (t : Text) : Bool := t.foldlM utf8Step [] = some []

end Text

end MlmForge
