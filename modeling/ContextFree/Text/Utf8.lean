/-!
# Decoding UTF-8

Bytes are taken one at a time. The first byte of a character tells how many more follow and, so that
no code point has two encodings and none is a surrogate, which second bytes may follow it.
-/

namespace ContextFree

namespace Text

/-- Why bytes are not UTF-8. The index is that of the first byte that belongs to no character. -/
inductive Utf8Error where
  /-- A byte appears that cannot follow the `length` bytes from `index` on, or the single byte there
  begins no character. -/
  | invalid (length index : Nat)
  /-- The bytes end within a character. -/
  | incomplete (index : Nat)
deriving DecidableEq

namespace Utf8Error

def message : Utf8Error → String
  | invalid length index => s!"invalid utf-8 sequence of {length} bytes from index {index}"
  | incomplete index => s!"incomplete utf-8 byte sequence from index {index}"

end Utf8Error

/-- A character of which some bytes are read. -/
structure PartialChar where
  /-- The bits read so far. -/
  value : Nat
  /-- The number of bytes read so far. -/
  length : Nat
  /-- The number of bytes that are missing. -/
  missing : Nat
  /-- The least byte that may come next. -/
  low : UInt8
  /-- The greatest byte that may come next. -/
  high : UInt8

namespace PartialChar

/-- What the first byte of a character stands for. -/
def ofLead? (byte : UInt8) : Option PartialChar :=
  if byte < 0x80 then some ⟨byte.toNat, 1, 0, 0x80, 0xBF⟩
  else if byte < 0xC2 then none
  else if byte < 0xE0 then some ⟨byte.toNat - 0xC0, 1, 1, 0x80, 0xBF⟩
  else if byte = 0xE0 then some ⟨0, 1, 2, 0xA0, 0xBF⟩
  else if byte = 0xED then some ⟨0xD, 1, 2, 0x80, 0x9F⟩
  else if byte < 0xF0 then some ⟨byte.toNat - 0xE0, 1, 2, 0x80, 0xBF⟩
  else if byte = 0xF0 then some ⟨0, 1, 3, 0x90, 0xBF⟩
  else if byte < 0xF4 then some ⟨byte.toNat - 0xF0, 1, 3, 0x80, 0xBF⟩
  else if byte = 0xF4 then some ⟨4, 1, 3, 0x80, 0x8F⟩
  else none

/-- Adds one more byte if it may come next. -/
def push? (char : PartialChar) (byte : UInt8) : Option PartialChar :=
  if char.low ≤ byte ∧ byte ≤ char.high then
    some ⟨char.value * 64 + (byte.toNat - 0x80), char.length + 1, char.missing - 1, 0x80, 0xBF⟩
  else none

end PartialChar

/-- Decodes bytes, the first of which belongs to the character that starts at `index` and of which
`char?` is already read. -/
def decodeFrom (index : Nat) (char? : Option PartialChar) :
    List UInt8 → Except Utf8Error (List Char)
  | [] => if char?.isSome then .error (.incomplete index) else .ok []
  | byte :: bytes =>
    match char?.elim (PartialChar.ofLead? byte) (PartialChar.push? · byte) with
    | none => .error (.invalid (char?.elim 1 PartialChar.length) index)
    | some char =>
      if char.missing = 0 then
        (decodeFrom (index + char.length) none bytes).map (Char.ofNat char.value :: ·)
      else decodeFrom index (some char) bytes

/-- The text that the bytes encode. -/
def decode (bytes : List UInt8) : Except Utf8Error String :=
  (decodeFrom 0 none bytes).map String.ofList

end Text

end ContextFree
