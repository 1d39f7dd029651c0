import ContextFree.Proofs.Source.Spelling
import ContextFree.Proofs.Text.Position
import ContextFree.Source.Lexing

/-!
# Tilings

A source is tiled by its lexemes and the gaps between them, up to its end or to something that has
no end itself. Every source has exactly one tiling (`Lexing.tiles_iff`), so nothing is lost
or merged when it is cut into lexemes.
-/

namespace ContextFree

namespace Lexing

/-- The characters, the first of which stands at `offset`, are lexemes with gaps before, between and
after them. The lexing stops with a fault where a quote or comment starts that never ends. -/
inductive Tiles : Nat → List Char → Lexing → Prop where
  | gap {offset : Nat} {gap : List Char} (isGap : IsGap gap []) : Tiles offset gap ⟨[], none⟩
  | fault {offset : Nat} {gap rest : List Char} {cause : LexicalError} (isGap : IsGap gap rest)
      (isUnclosed : IsUnclosed rest cause) :
      Tiles offset (gap ++ rest) ⟨[], some (offset + Text.byteLength gap, cause)⟩
  | lexeme {offset start stop : Nat} {gap text rest : List Char} {lexeme : Lexeme} {lexing : Lexing}
      (isGap : IsGap gap (text ++ rest)) (isSpelledBy : lexeme.IsSpelledBy text rest)
      (start_eq : start = offset + Text.byteLength gap)
      (stop_eq : stop = start + Text.byteLength text) (more : Tiles stop rest lexing) :
      Tiles offset (gap ++ (text ++ rest))
        ⟨⟨start, stop, lexeme⟩ :: lexing.lexemes, lexing.fault?⟩

variable {offset : Nat} {cs chars gap rest : List Char} {lexeme : Lexeme} {lexing : Lexing}

/-! ## One piece -/

theorem Tiles.skip (h : Tiles (offset + Text.byteLength chars) rest lexing)
    (hskipped : IsSkipped chars rest) : Tiles offset (chars ++ rest) lexing := by
  -- in each case the first gap becomes longer
  cases h with
  | gap hgap =>
    rw [← List.append_nil rest] at hskipped
    exact .gap (.append hskipped hgap)
  | fault hgap hunclosed =>
    rw [← List.append_assoc, Nat.add_assoc, ← Text.byteLength_append]
    exact .fault (.append hskipped hgap) hunclosed
  | lexeme hgap hspelled hstart hstop hmore =>
    rw [Nat.add_assoc, ← Text.byteLength_append] at hstart
    rw [← List.append_assoc]
    exact .lexeme (.append hskipped hgap) hspelled hstart hstop hmore

theorem ofChars_of_first {c : Char} {piece : Piece} (h : Piece.first c cs = .ok piece) :
    ofChars offset (c :: cs) =
      match piece.lexeme? with
      | none => ofChars (offset + Text.byteLength piece.chars) piece.rest
      | some lexeme =>
        ⟨⟨offset, offset + Text.byteLength piece.chars, lexeme⟩ ::
            (ofChars (offset + Text.byteLength piece.chars) piece.rest).lexemes,
          (ofChars (offset + Text.byteLength piece.chars) piece.rest).fault?⟩ := by
  rw [ofChars]
  split
  · next heq => simp [h] at heq
  · next heq =>
    obtain rfl := Except.ok.inj (h.symm.trans heq)
    rfl

theorem ofChars_of_isSkipped (h : IsSkipped chars rest) :
    ofChars offset (chars ++ rest) = ofChars (offset + Text.byteLength chars) rest := by
  have hne := List.append_ne_nil_of_left_ne_nil h.ne_nil rest
  obtain ⟨c, cs, heq⟩ := List.exists_cons_of_ne_nil hne
  rw [heq, ofChars_of_first (Piece.first_of_isSkipped h heq)]

theorem ofChars_of_isSpelledBy (h : lexeme.IsSpelledBy chars rest) :
    ofChars offset (chars ++ rest) =
      ⟨⟨offset, offset + Text.byteLength chars, lexeme⟩ ::
          (ofChars (offset + Text.byteLength chars) rest).lexemes,
        (ofChars (offset + Text.byteLength chars) rest).fault?⟩ := by
  have hne := List.append_ne_nil_of_left_ne_nil h.ne_nil rest
  obtain ⟨c, cs, heq⟩ := List.exists_cons_of_ne_nil hne
  rw [heq, ofChars_of_first (Piece.first_of_isSpelledBy h heq)]

theorem ofChars_of_isUnclosed {cause : LexicalError} (h : IsUnclosed rest cause) :
    ofChars offset rest = ⟨[], some (offset, cause)⟩ := by
  obtain ⟨c, cs, rfl⟩ := List.exists_cons_of_ne_nil h.ne_nil
  have hfirst := Piece.first_of_isUnclosed h
  rw [ofChars]
  split
  · next heq => rw [Except.error.inj (hfirst.symm.trans heq)]
  · next heq => simp [hfirst] at heq

theorem ofChars_of_isGap (h : IsGap gap rest) :
    ofChars offset (gap ++ rest) = ofChars (offset + Text.byteLength gap) rest := by
  induction h generalizing offset with
  | nil => rfl
  | append hskipped _ ih =>
    rw [List.append_assoc, ofChars_of_isSkipped hskipped, ih, Text.byteLength_append, Nat.add_assoc]

/-! ## The tiling of a source -/

theorem tiles_ofChars (offset : Nat) (cs : List Char) : Tiles offset cs (ofChars offset cs) := by
  fun_induction ofChars offset cs with
  | case1 => exact .gap .nil
  | case2 offset c cs cause h => exact .fault .nil (Piece.isUnclosed_of_first h)
  | case3 offset c cs piece h stop lexing hnone ih =>
    rw [← Piece.chars_append_rest h]
    exact ih.skip (Piece.isSkipped_of_first h hnone)
  | case4 offset c cs piece h stop lexing lexeme hsome ih =>
    rw [← Piece.chars_append_rest h]
    exact .lexeme .nil (Piece.isSpelledBy_of_first h hsome) rfl rfl ih

theorem Tiles.eq_ofChars (h : Tiles offset cs lexing) : lexing = ofChars offset cs := by
  induction h with
  | @gap offset gap hgap =>
    rw [← List.append_nil gap, ofChars_of_isGap hgap, ofChars]
  | fault hgap hunclosed => rw [ofChars_of_isGap hgap, ofChars_of_isUnclosed hunclosed]
  | lexeme hgap hspelled hstart hstop _ ih =>
    subst hstop hstart
    rw [ofChars_of_isGap hgap, ofChars_of_isSpelledBy hspelled, ← ih]

theorem tiles_iff : Tiles offset cs lexing ↔ lexing = ofChars offset cs :=
  ⟨Tiles.eq_ofChars, fun h => h ▸ tiles_ofChars offset cs⟩

/-! ## What a tiling says about the source -/

/-- The spans of all lexemes are what the lexemes are spelled by. -/
theorem Tiles.exists_slice (h : Tiles offset cs lexing) : ∀ l ∈ lexing.lexemes,
    ∃ before text after, cs = before ++ (text ++ after) ∧
      l.start = offset + Text.byteLength before ∧ l.stop = l.start + Text.byteLength text ∧
        l.lexeme.IsSpelledBy text after := by
  induction h with
  | gap | fault => simp
  | @lexeme offset start stop gap text rest lexeme lexing _ hspelled hstart hstop _ ih =>
    refine List.forall_mem_cons.mpr ⟨⟨gap, text, rest, rfl, hstart, hstop, hspelled⟩, ?_⟩
    intro l hl
    obtain ⟨before, text', after, rfl, hstart', hstop', hspelled'⟩ := ih l hl
    refine ⟨gap ++ (text ++ before), text', after, by simp, ?_, hstop', hspelled'⟩
    simp only [Text.byteLength_append]
    omega

theorem Tiles.ordered (h : Tiles offset cs lexing) :
    lexing.lexemes.Pairwise fun l m => l.stop ≤ m.start := by
  induction h with
  | gap | fault => exact .nil
  | lexeme _ _ _ _ hmore ih =>
    refine .cons (fun m hm => ?_) ih
    obtain ⟨before, _, _, _, hstart, _⟩ := hmore.exists_slice m hm
    exact hstart ▸ Nat.le_add_right _ _

/-- A fault comes after all lexemes. -/
theorem Tiles.exists_unclosed {place : Nat} {cause : LexicalError} (h : Tiles offset cs lexing)
    (hfault : lexing.fault? = some (place, cause)) :
    (∀ l ∈ lexing.lexemes, l.stop ≤ place) ∧ ∃ before after, cs = before ++ after ∧
      place = offset + Text.byteLength before ∧ IsUnclosed after cause := by
  induction h with
  | gap => simp at hfault
  | @fault offset gap rest _ _ hunclosed =>
    obtain ⟨rfl, rfl⟩ := Prod.mk.inj (Option.some.inj hfault)
    exact ⟨by simp, gap, rest, rfl, rfl, hunclosed⟩
  | @lexeme offset start stop gap text rest lexeme lexing _ _ hstart hstop _ ih =>
    obtain ⟨hstops, before, after, rfl, hplace, hunclosed⟩ := ih hfault
    refine ⟨List.forall_mem_cons.mpr ⟨by simp [hplace], hstops⟩, gap ++ (text ++ before), after,
      by simp, ?_, hunclosed⟩
    simp only [Text.byteLength_append]
    omega

/-- A source has one tiling, and that is what it is cut into. Lexemes follow each other, each takes
up some bytes, and these bytes are its spelling; a fault comes last and is where something starts
that never ends. -/
theorem ofSource_tiling (source : String) :
    (∀ lexing, Tiles 0 source.toList lexing ↔ lexing = ofSource source) ∧
      ((ofSource source).lexemes.Pairwise fun l m => l.stop ≤ m.start) ∧
      (∀ l ∈ (ofSource source).lexemes, l.start < l.stop ∧ ∃ before text after : String,
        source = before ++ text ++ after ∧ l.start = before.utf8ByteSize ∧
          l.stop = (before ++ text).utf8ByteSize ∧
            l.lexeme.IsSpelledBy text.toList after.toList) ∧
      ∀ offset cause, (ofSource source).fault? = some (offset, cause) →
        (∀ l ∈ (ofSource source).lexemes, l.stop ≤ offset) ∧ ∃ before after : String,
          source = before ++ after ∧ offset = before.utf8ByteSize ∧
            IsUnclosed after.toList cause := by
  have htiles : Tiles 0 source.toList (ofSource source) := tiles_ofChars 0 source.toList
  refine ⟨fun lexing => tiles_iff, htiles.ordered, fun l hl => ?_, fun offset cause hfault => ?_⟩
  · obtain ⟨before, text, after, hsource, hstart, hstop, hspelled⟩ := htiles.exists_slice l hl
    have hpos := Text.byteLength_pos hspelled.ne_nil
    refine ⟨by omega, .ofList before, .ofList text, .ofList after, ?_, ?_, ?_, ?_⟩
    · simp [← String.toList_inj, hsource]
    · simp [← Text.byteLength_toList, hstart]
    · simp [← Text.byteLength_toList, hstart, hstop]
    · simpa using hspelled
  · obtain ⟨hstops, before, after, hsource, hoffset, hunclosed⟩ := htiles.exists_unclosed hfault
    refine ⟨hstops, .ofList before, .ofList after, ?_, ?_, ?_⟩
    · simp [← String.toList_inj, hsource]
    · simp [← Text.byteLength_toList, hoffset]
    · simpa using hunclosed

-- an arrow is one only if it stands alone
example : ofSource "S->a // b" = ⟨[⟨0, 4, .ident "S->a"⟩], none⟩ := by decide +kernel

end Lexing

end ContextFree
