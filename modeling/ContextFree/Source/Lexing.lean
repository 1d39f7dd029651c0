import ContextFree.Text.Basic

/-!
# Cutting a source into lexemes

A line of a grammar is made of words, quoted text and bars. A line break is a lexeme as well, since
it ends a rule.

A source is cut into pieces: white space and comments, which are skipped, and lexemes. Comments run
from two slashes to the end of the line or between `/*` and `*/`. A word ends at white space, a bar
or a comment; text in single quotes may hold any character, with a backslash before those that would
end it. Pieces are taken off the front of a source until nothing is left or a quote or comment has
no end. No character is lost: a piece and what comes after it together are what there was.
-/

namespace ContextFree

/-! ## Lexemes -/

/-- The smallest parts of a source that mean something. -/
inductive Lexeme where
  | ident (name : String)
  | quoted (text : String)
  | arrow
  | pipe
  | epsilon
  | newline
deriving DecidableEq

/-- The lexeme that a word is. -/
def Lexeme.ofWord (word : List Char) : Lexeme :=
  if word = ['-', '>'] ∨ word = ['→'] then .arrow
  else if word = ['ε'] then .epsilon
  else .ident (String.ofList word)

/-- A lexeme with the offsets of its first byte and of the byte after its last one. -/
structure LocatedLexeme where
  start : Nat
  stop : Nat
  lexeme : Lexeme
deriving DecidableEq

/-- Why a source cannot be cut into lexemes. -/
inductive LexicalError where
  | unterminatedComment
  | unterminatedQuote
deriving DecidableEq

def LexicalError.message : LexicalError → String
  | unterminatedComment => "unterminated comment"
  | unterminatedQuote => "unterminated quote"

/-! ## Comments -/

/-- Whether a comment starts here. -/
def opensComment : List Char → Bool
  | '/' :: '/' :: _ | '/' :: '*' :: _ => true
  | _ => false

/-- Splits the characters after the first `*/`. -/
def splitAtCommentEnd : List Char → Option (List Char × List Char)
  | [] => none
  | '*' :: '/' :: rest => some (['*', '/'], rest)
  | c :: cs => (splitAtCommentEnd cs).map fun split => (c :: split.1, split.2)

/-! ## Quotes -/

/-- Splits the characters at the first quote that a backslash does not take the meaning of, leaving
the quote out. -/
def splitAtQuote : List Char → Option (List Char × List Char)
  | [] => none
  | '\'' :: rest => some ([], rest)
  | '\\' :: [] => none
  | '\\' :: c :: cs => (splitAtQuote cs).map fun split => ('\\' :: c :: split.1, split.2)
  | c :: cs => (splitAtQuote cs).map fun split => (c :: split.1, split.2)

/-- Drops the backslashes that take away the meaning of the next character. -/
def unescape : List Char → List Char
  | [] => []
  | '\\' :: c :: cs => c :: unescape cs
  | c :: cs => c :: unescape cs

/-! ## Words -/

/-- Whether a word cannot go on with these characters. -/
def endsWord : List Char → Bool
  | [] => true
  | c :: cs => Text.isBlank c || c == '|' || opensComment (c :: cs)

/-- Splits the characters where a word ends. -/
def splitAtWordEnd : List Char → List Char × List Char
  | [] => ([], [])
  | c :: cs =>
    if endsWord (c :: cs) then ([], c :: cs)
    else
      let split := splitAtWordEnd cs
      (c :: split.1, split.2)

/-! ## Pieces -/

/-- A piece of a source: its characters, the lexeme that they are unless they are skipped, and the
characters after it. -/
structure Piece where
  chars : List Char
  lexeme? : Option Lexeme
  rest : List Char

/-- The first piece of the characters `c :: cs`. -/
def Piece.first (c : Char) (cs : List Char) : Except LexicalError Piece :=
  if c = '\n' then .ok ⟨[c], some .newline, cs⟩
  else if Text.isBlank c then .ok ⟨[c], none, cs⟩
  else if c = '|' then .ok ⟨[c], some .pipe, cs⟩
  else if c = '\'' then
    match splitAtQuote cs with
    | some (inside, rest) =>
      .ok ⟨c :: (inside ++ ['\'']), some (.quoted (String.ofList (unescape inside))), rest⟩
    | none => .error .unterminatedQuote
  else if opensComment (c :: cs) then
    match cs with
    | '*' :: inside =>
      match splitAtCommentEnd inside with
      | some (inside, rest) => .ok ⟨c :: '*' :: inside, none, rest⟩
      | none => .error .unterminatedComment
    | _ => .ok ⟨c :: cs.takeWhile (· != '\n'), none, cs.dropWhile (· != '\n')⟩
  else
    let split := splitAtWordEnd cs
    .ok ⟨c :: split.1, some (.ofWord (c :: split.1)), split.2⟩

theorem splitAtCommentEnd_append {cs : List Char} {split : List Char × List Char}
    (h : splitAtCommentEnd cs = some split) : split.1 ++ split.2 = cs := by
  fun_induction splitAtCommentEnd cs generalizing split with
  | case1 => simp at h
  | case2 rest => cases h; rfl
  | case3 c cs _ ih =>
    obtain ⟨inner, hinner, rfl⟩ := Option.map_eq_some_iff.mp h
    simp [ih hinner]

theorem splitAtQuote_append {cs : List Char} {split : List Char × List Char}
    (h : splitAtQuote cs = some split) : split.1 ++ '\'' :: split.2 = cs := by
  fun_induction splitAtQuote cs generalizing split with
  | case1 | case3 => simp at h
  | case2 rest => cases h; rfl
  | case4 c cs ih =>
    obtain ⟨inner, hinner, rfl⟩ := Option.map_eq_some_iff.mp h
    simp [ih hinner]
  | case5 c cs _ _ _ ih =>
    obtain ⟨inner, hinner, rfl⟩ := Option.map_eq_some_iff.mp h
    simp [ih hinner]

theorem splitAtWordEnd_append (cs : List Char) :
    (splitAtWordEnd cs).1 ++ (splitAtWordEnd cs).2 = cs := by
  fun_induction splitAtWordEnd cs with
  | case1 | case2 => rfl
  | case3 c cs _ _ ih => simpa using ih

/-- A piece and the rest together are what there was. -/
theorem Piece.chars_append_rest {c : Char} {cs : List Char} {piece : Piece}
    (h : Piece.first c cs = .ok piece) : piece.chars ++ piece.rest = c :: cs := by
  simp only [Piece.first] at h
  split at h
  · cases h; rfl
  split at h
  · cases h; rfl
  split at h
  · cases h; rfl
  split at h
  · split at h
    · next hsplit => cases h; simpa using splitAtQuote_append hsplit
    · simp at h
  split at h
  · split at h
    · split at h
      · next hsplit => cases h; simpa using splitAtCommentEnd_append hsplit
      · simp at h
    · cases h; simp
  · cases h
    simp [splitAtWordEnd_append]

theorem Piece.chars_ne_nil {c : Char} {cs : List Char} {piece : Piece}
    (h : Piece.first c cs = .ok piece) : piece.chars ≠ [] := by
  simp only [Piece.first] at h
  repeat' split at h
  all_goals first | cases h; simp | simp at h

theorem Piece.length_rest_lt {c : Char} {cs : List Char} {piece : Piece}
    (h : Piece.first c cs = .ok piece) : piece.rest.length < (c :: cs).length := by
  have hpos := List.length_pos_iff.mpr (chars_ne_nil h)
  rw [← chars_append_rest h, List.length_append]
  omega

/-! ## Lexing -/

/-- The lexemes of a source, and where and why cutting it into pieces had to stop. -/
structure Lexing where
  lexemes : List LocatedLexeme
  fault? : Option (Nat × LexicalError)
deriving DecidableEq

/-- Cuts characters into lexemes, the first character standing at `offset`. -/
def Lexing.ofChars (offset : Nat) : List Char → Lexing
  | [] => ⟨[], none⟩
  | c :: cs =>
    match _h : Piece.first c cs with
    | .error cause => ⟨[], some (offset, cause)⟩
    | .ok piece =>
      let stop := offset + Text.byteLength piece.chars
      let lexing := ofChars stop piece.rest
      match piece.lexeme? with
      | none => lexing
      | some lexeme => ⟨⟨offset, stop, lexeme⟩ :: lexing.lexemes, lexing.fault?⟩
termination_by cs => cs.length
decreasing_by exact Piece.length_rest_lt ‹_›

/-- Cuts a source into lexemes. -/
def Lexing.ofSource (source : String) : Lexing :=
  ofChars 0 source.toList

end ContextFree
