/-!
# White space and positions

White space consists of the characters with the Unicode property `White_Space`; the words of a text
are what it leaves. A place in a text is given by its offset in bytes of UTF-8, and for the reader
by line and column, both counted from 1 and columns counted in characters.
-/

namespace ContextFree

namespace Text

/-! ## White space -/

/-- The ranges of white-space characters, by first and last code point. -/
def blankRanges : List (Nat × Nat) :=
  [(0x0009, 0x000D), (0x0020, 0x0020), (0x0085, 0x0085), (0x00A0, 0x00A0), (0x1680, 0x1680),
    (0x2000, 0x200A), (0x2028, 0x2029), (0x202F, 0x202F), (0x205F, 0x205F), (0x3000, 0x3000)]

/-- Whether a character is white space. -/
def isBlank (c : Char) : Bool :=
  blankRanges.any fun range => decide (range.1 ≤ c.toNat) && decide (c.toNat ≤ range.2)

/-- The longest runs of characters that are not white space. -/
def words (cs : List Char) : List (List Char) :=
  match cs with
  | [] => []
  | c :: cs =>
    if isBlank c then words cs
    else match cs, words cs with
      | d :: _, word :: rest => if isBlank d then [c] :: word :: rest else (c :: word) :: rest
      | _, rest => [c] :: rest

/-! ## Positions -/

/-- The number of bytes that the characters take in UTF-8. -/
def byteLength : List Char → Nat
  | [] => 0
  | c :: cs => c.utf8Size + byteLength cs

@[simp] theorem byteLength_nil : byteLength [] = 0 := rfl

@[simp] theorem byteLength_cons (c : Char) (cs : List Char) :
    byteLength (c :: cs) = c.utf8Size + byteLength cs := rfl

@[simp] theorem byteLength_append (cs ds : List Char) :
    byteLength (cs ++ ds) = byteLength cs + byteLength ds := by
  induction cs with
  | nil => simp
  | cons c cs ih => simp [ih, Nat.add_assoc]

/-- The characters that lie before a byte offset. There is no answer for an offset inside of a
character; one past the end counts as the end. -/
def charsBefore? : List Char → Nat → Option (List Char)
  | _, 0 => some []
  | [], _ + 1 => some []
  | c :: cs, offset + 1 =>
    if c.utf8Size ≤ offset + 1 then
      (charsBefore? cs (offset + 1 - c.utf8Size)).map (c :: ·)
    else none

/-- A line and a column. -/
structure Position where
  line : Nat
  column : Nat
deriving DecidableEq

namespace Position

/-- The position right after the given characters. -/
def after (before : List Char) : Position where
  line := before.count '\n' + 1
  column := (before.reverse.takeWhile fun c => c != '\n').length + 1

/-- The position of a byte offset in a source. An offset inside of a character counts as the end of
the source. -/
def ofOffset (source : String) (offset : Nat) : Position :=
  after ((charsBefore? source.toList offset).getD source.toList)

end Position

end Text

end ContextFree
