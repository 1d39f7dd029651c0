import Mathlib.Data.List.Induction
import Mathlib.Data.Prod.Lex
import Mathlib.Order.Monotone.Defs
import ContextFree.Text.Basic

/-!
# Positions lead back

With every character the position moves on, to the next line or to the next column. So positions
come in the order of the offsets (`Text.Position.strictMonoOn_ofOffset`), and passing the lines and
then the columns before a position leads back to its offset (`Text.Position.offset?_ofOffset`).
-/

namespace ContextFree

namespace Text

variable {source : String} {cs before line rest : List Char} {c : Char}
  {lines columns offset : Nat}

/-! ## Bytes -/

theorem byteLength_toList (s : String) : byteLength s.toList = s.utf8ByteSize := by
  have hofList (cs : List Char) : (String.ofList cs).utf8ByteSize = byteLength cs := by
    induction cs with
    | nil => simp
    | cons c cs ih =>
      rw [String.ofList_cons, String.utf8ByteSize_append, String.utf8ByteSize_singleton, ih,
        byteLength_cons]
  rw [← hofList, String.ofList_toList]

theorem byteLength_pos {cs : List Char} (h : cs ≠ []) : 0 < byteLength cs := by
  obtain ⟨c, cs, rfl⟩ := List.exists_cons_of_ne_nil h
  exact Nat.add_pos_left c.utf8Size_pos _

/-! ## Offsets between characters -/

/-- The offset lies in a source or at one of its ends, and not in the middle of a character. -/
def IsBoundary (source : String) (offset : Nat) : Prop :=
  String.Pos.Raw.IsValid source ⟨offset⟩

theorem isBoundary_iff : IsBoundary source offset ↔ ∃ before rest,
    source.toList = before ++ rest ∧ offset = byteLength before := by
  rw [IsBoundary, String.Pos.Raw.isValid_iff_exists_append]
  constructor
  · rintro ⟨before, rest, rfl, hoffset⟩
    refine ⟨before.toList, rest.toList, String.toList_append, ?_⟩
    rw [byteLength_toList]
    exact congrArg String.Pos.Raw.byteIdx hoffset
  · rintro ⟨before, rest, hsource, rfl⟩
    refine ⟨.ofList before, .ofList rest, ?_, ?_⟩
    · rw [← String.ofList_append, ← hsource, String.ofList_toList]
    · ext
      rw [String.byteIdx_rawEndPos, ← byteLength_toList, String.toList_ofList]

theorem charsBefore?_append (before rest : List Char) :
    charsBefore? (before ++ rest) (byteLength before) = some before := by
  induction before with
  | nil => cases rest <;> rfl
  | cons c before ih =>
    have hpos := c.utf8Size_pos
    obtain ⟨n, hn⟩ : ∃ n, byteLength (c :: before) = n + 1 :=
      Nat.exists_eq_add_one_of_ne_zero (by rw [byteLength_cons]; omega)
    have hrest : n + 1 - c.utf8Size = byteLength before := by
      rw [byteLength_cons] at hn
      omega
    rw [byteLength_cons] at hn
    rw [byteLength_cons, hn, List.cons_append, charsBefore?, if_pos (by omega), hrest, ih,
      Option.map_some]

namespace Position

theorem ofOffset_byteLength (h : source.toList = before ++ rest) :
    ofOffset source (byteLength before) = .after before := by
  rw [ofOffset, h, charsBefore?_append, Option.getD_some]

/-! ## One character more -/

theorem after_concat (before : List Char) (c : Char) : after (before ++ [c]) =
    if c = '\n' then ⟨(after before).line + 1, 1⟩
    else ⟨(after before).line, (after before).column + 1⟩ := by
  simp only [after, List.count_append, List.reverse_append, List.reverse_singleton,
    List.singleton_append, List.takeWhile_cons]
  split <;> simp_all

/-- Positions are compared by line and then by column. -/
def lineColumn (position : Position) : ℕ ×ₗ ℕ :=
  toLex (position.line, position.column)

theorem lineColumn_after_lt (before : List Char) (c : Char) :
    (after before).lineColumn < (after (before ++ [c])).lineColumn := by
  rw [after_concat, lineColumn, lineColumn, Prod.Lex.toLex_lt_toLex]
  split
  · exact .inl (Nat.lt_succ_self _)
  · exact .inr ⟨rfl, Nat.lt_succ_self _⟩

theorem lineColumn_after_le (before more : List Char) :
    (after before).lineColumn ≤ (after (before ++ more)).lineColumn := by
  induction more generalizing before with
  | nil => rw [List.append_nil]
  | cons c more ih =>
    rw [List.append_cons]
    exact (lineColumn_after_lt before c).le.trans (ih _)

end Position

/-! ## Finding a position -/

/-- What is left of the characters after so many line breaks. -/
def skipLines : (lines : Nat) → List Char → Option (List Char)
  | 0, cs => some cs
  | _ + 1, [] => none
  | lines + 1, c :: cs => if c = '\n' then skipLines lines cs else skipLines (lines + 1) cs

/-- What is left of a line after so many characters, none of which may be a line break. -/
def skipColumns : (columns : Nat) → List Char → Option (List Char)
  | 0, cs => some cs
  | _ + 1, [] => none
  | columns + 1, c :: cs => if c = '\n' then none else skipColumns columns cs

@[simp] theorem skipLines_zero (cs : List Char) : skipLines 0 cs = some cs := by
  rw [skipLines]

@[simp] theorem skipColumns_zero (cs : List Char) : skipColumns 0 cs = some cs := by
  rw [skipColumns]

/-- The byte offset to which a position leads, if there is such a line and it is long enough. -/
def Position.offset? (source : String) (position : Position) : Option Nat := do
  let line ← skipLines (position.line - 1) source.toList
  let rest ← skipColumns (position.column - 1) line
  return byteLength source.toList - byteLength rest

theorem skipColumns_succ (h : skipColumns columns cs = some (c :: rest)) (hc : c ≠ '\n') :
    skipColumns (columns + 1) cs = some rest := by
  fun_induction skipColumns columns cs with
  | case1 cs =>
    cases h
    rw [skipColumns, if_neg hc, skipColumns_zero]
  | case2 | case3 => simp at h
  | case4 columns d cs hd ih => rw [skipColumns, if_neg hd, ih h]

/-- A line ends with the first line break on it. -/
theorem skipLines_one (h : skipColumns columns cs = some ('\n' :: rest)) :
    skipLines 1 cs = some rest := by
  fun_induction skipColumns columns cs with
  | case1 cs =>
    cases h
    rw [skipLines, if_pos rfl, skipLines_zero]
  | case2 | case3 => simp at h
  | case4 columns d cs hd ih => rw [skipLines, if_neg hd, ih h]

theorem skipLines_succ (h : skipLines lines cs = some line)
    (hbreak : skipColumns columns line = some ('\n' :: rest)) :
    skipLines (lines + 1) cs = some rest := by
  fun_induction skipLines lines cs with
  | case1 cs =>
    cases h
    exact skipLines_one hbreak
  | case2 => simp at h
  | case3 lines cs ih => rw [skipLines, if_pos rfl, ih h]
  | case4 lines c cs hc ih => rw [skipLines, if_neg hc, ih h]

/-- Passing the lines and columns before a position is passing the characters before it. -/
theorem skip_after (before rest : List Char) :
    ∃ line, skipLines ((Position.after before).line - 1) (before ++ rest) = some line ∧
      skipColumns ((Position.after before).column - 1) line = some rest := by
  induction before using List.reverseRecOn generalizing rest with
  | nil => exact ⟨rest, skipLines_zero rest, skipColumns_zero rest⟩
  | append_singleton before c ih =>
    obtain ⟨line, hline, hcolumn⟩ := ih (c :: rest)
    rw [List.append_assoc, List.singleton_append, Position.after_concat]
    split
    · next hc =>
      subst hc
      exact ⟨rest, skipLines_succ hline hcolumn, skipColumns_zero rest⟩
    · next hc => exact ⟨line, hline, skipColumns_succ hcolumn hc⟩

/-! ## The positions of a source -/

namespace Position

theorem offset?_ofOffset (h : IsBoundary source offset) :
    (ofOffset source offset).offset? source = some offset := by
  obtain ⟨before, rest, hsource, rfl⟩ := isBoundary_iff.mp h
  obtain ⟨line, hline, hcolumn⟩ := skip_after before rest
  have hbytes : byteLength source.toList - byteLength rest = byteLength before := by
    rw [hsource, byteLength_append, Nat.add_sub_cancel]
  rw [offset?, ofOffset_byteLength hsource, hsource, hline, Option.bind_eq_bind, Option.bind_some,
    hcolumn, ← hsource]
  exact congrArg some hbytes

theorem strictMonoOn_ofOffset (source : String) :
    StrictMonoOn (fun offset => (ofOffset source offset).lineColumn)
      {offset | IsBoundary source offset} := by
  intro offset h offset' h' hlt
  obtain ⟨before, rest, hsource, rfl⟩ := isBoundary_iff.mp h
  obtain ⟨before', rest', hsource', rfl⟩ := isBoundary_iff.mp h'
  -- the longer of two parts from the start goes on where the shorter one ends
  obtain ⟨more, rfl⟩ : before <+: before' := by
    have hprefix : before <+: before' ++ rest' := ⟨rest, by rw [← hsource, hsource']⟩
    refine (List.prefix_or_prefix_of_prefix hprefix (List.prefix_append _ _)).resolve_right ?_
    rintro ⟨more, rfl⟩
    simp only [byteLength_append] at hlt
    omega
  cases more with
  | nil => simp at hlt
  | cons c more =>
    simp only [ofOffset_byteLength hsource, ofOffset_byteLength hsource']
    rw [List.append_cons]
    exact (lineColumn_after_lt before c).trans_le (lineColumn_after_le _ more)

end Position

end Text

end ContextFree
