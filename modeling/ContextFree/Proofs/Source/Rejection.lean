import ContextFree.Proofs.Source.Reader
import ContextFree.Proofs.Text.Position

/-!
# Where sources are rejected

A source is rejected where one of its lexemes starts, where a quote or comment without an end
starts, or where a line ends. None of these places is in the middle of a character
(`Grammar.isBoundary_of_parse`), so the reader of a message finds them by line and column
(`Diagnostic.position_spec`).
-/

namespace ContextFree

variable {source : String} {fault? : Option (Nat × LexicalError)} {lines : List Line}
  {lexemes last : List LocatedLexeme} {rejection : Rejection} {stop offset : Nat}
  {valid : List Lexeme → Prop} {p : Nat → Prop}

/-! ## Places of a line -/

/-- Each place of the line at which it may be rejected has the property. -/
def Line.EachPlace (p : Nat → Prop) (line : Line) : Prop :=
  p line.stop ∧ ∀ l ∈ line.lexemes, p l.start

theorem FailsAt.of_eachPlace (h : FailsAt valid lexemes stop offset)
    (hp : Line.EachPlace p ⟨lexemes, stop⟩) : p offset := by
  cases h with
  | @lexeme before after l heq =>
    have hmem : l ∈ lexemes := heq ▸ List.mem_append_right _ List.mem_cons_self
    exact hp.2 l hmem
  | stop => exact hp.1

theorem RejectedAt.of_eachPlace (h : RejectedAt fault? lines rejection)
    (hfault : ∀ offset cause, fault? = some (offset, cause) → p offset)
    (hlines : ∀ line ∈ lines, line.EachPlace p) : p rejection.offset := by
  induction h with
  | fault heq => exact hfault _ _ heq
  | line _ hfails => exact hfails.of_eachPlace (hlines _ List.mem_cons_self)
  | later _ _ ih => exact ih (List.forall_mem_cons.mp hlines).2

/-- A line ends where a line break starts. -/
theorem Line.Cut.eachPlace (h : Line.Cut lexemes lines last) (hp : ∀ l ∈ lexemes, p l.start) :
    (∀ line ∈ lines, line.EachPlace p) ∧ ∀ l ∈ last, p l.start := by
  induction h with
  | last => exact ⟨by simp, hp⟩
  | line _ _ ih =>
    obtain ⟨hline, hrest⟩ := List.forall_mem_append.mp hp
    obtain ⟨hstop, hrest⟩ := List.forall_mem_cons.mp hrest
    obtain ⟨hlines, hlast⟩ := ih hrest
    exact ⟨List.forall_mem_cons.mpr ⟨⟨hstop, hline⟩, hlines⟩, hlast⟩

/-! ## Places of a source -/

theorem Lexing.isBoundary_start :
    ∀ l ∈ (Lexing.ofSource source).lexemes, Text.IsBoundary source l.start := by
  intro l hl
  obtain ⟨before, text, rest, hsource, hstart, -⟩ :=
    (tiles_ofChars 0 source.toList).exists_slice l hl
  exact Text.isBoundary_iff.mpr ⟨before, text ++ rest, hsource, by rw [hstart, Nat.zero_add]⟩

theorem Lexing.isBoundary_fault {cause : LexicalError}
    (h : (Lexing.ofSource source).fault? = some (offset, cause)) :
    Text.IsBoundary source offset := by
  obtain ⟨-, before, rest, hsource, hoffset, -⟩ :=
    (tiles_ofChars 0 source.toList).exists_unclosed h
  exact Text.isBoundary_iff.mpr ⟨before, rest, hsource, by rw [hoffset, Nat.zero_add]⟩

theorem Line.eachPlace_ofSource :
    ∀ line ∈ Line.ofSource source, line.EachPlace (Text.IsBoundary source) := by
  obtain ⟨hlines, hlast⟩ := (Line.cut_splitAll (Lexing.ofSource source).lexemes).eachPlace
    Lexing.isBoundary_start
  have hend : Text.IsBoundary source source.utf8ByteSize :=
    Text.isBoundary_iff.mpr ⟨source.toList, [], by simp, (Text.byteLength_toList source).symm⟩
  exact List.forall_mem_append.mpr ⟨hlines, List.forall_mem_singleton.mpr ⟨hend, hlast⟩⟩

theorem Grammar.isBoundary_of_parse (h : Grammar.parse source = .error rejection) :
    Text.IsBoundary source rejection.offset :=
  (rejectedAt_of_readRules (parse_eq_error_iff.mp h)).of_eachPlace
    (fun _ _ => Lexing.isBoundary_fault) Line.eachPlace_ofSource

/-! ## Messages -/

/-- A message about a place between two characters, or at an end of the source, has a position that
leads back to this place, and the farther the place is from the start the greater the position.
Every message about a source that is no grammar is about such a place. -/
theorem Diagnostic.position_spec (source : String) :
    (∀ diagnostic : Diagnostic, Text.IsBoundary source diagnostic.offset →
      1 ≤ (diagnostic.position source).line ∧ 1 ≤ (diagnostic.position source).column ∧
        (diagnostic.position source).offset? source = some diagnostic.offset) ∧
    (∀ first second : Diagnostic, Text.IsBoundary source first.offset →
      Text.IsBoundary source second.offset → first.offset < second.offset →
        (first.position source).lineColumn < (second.position source).lineColumn) ∧
    ∀ rejection, Grammar.parse source = .error rejection →
      rejection.offset ≤ source.utf8ByteSize ∧ Text.IsBoundary source rejection.offset ∧
        (rejection.diagnostic.position source).offset? source = some rejection.offset := by
  refine ⟨fun diagnostic h => ?_, fun first second h h' hlt => ?_, fun rejection h => ?_⟩
  · exact ⟨Nat.le_add_left 1 _, Nat.le_add_left 1 _, Text.Position.offset?_ofOffset h⟩
  · exact Text.Position.strictMonoOn_ofOffset source h h' hlt
  · have hboundary := Grammar.isBoundary_of_parse h
    exact ⟨hboundary.le_utf8ByteSize, hboundary, Text.Position.offset?_ofOffset hboundary⟩

/-- A quote that never ends, after characters of two and of three bytes. -/
theorem Diagnostic.position_spec_multibyte :
    let source := "S -> é\nT → 'é"
    let rejection : Rejection := ⟨14, .lexical .unterminatedQuote⟩
    Grammar.parse source = .error rejection ∧ Text.IsBoundary source 7 ∧
      rejection.diagnostic.position source = ⟨2, 5⟩ ∧
      Text.Position.offset? source ⟨2, 5⟩ = some 14 ∧
      Text.Position.offset? source ((⟨7, ""⟩ : Diagnostic).position source) = some 7 ∧
      ((⟨7, ""⟩ : Diagnostic).position source).lineColumn < Text.Position.lineColumn ⟨2, 5⟩ := by
  intro source rejection
  have hread : readRules source = .error rejection := by decide +kernel +revert
  have hparse : Grammar.parse source = .error rejection := Grammar.parse_eq_error_iff.mpr hread
  have hposition : rejection.diagnostic.position source = ⟨2, 5⟩ := by decide +kernel +revert
  have hbreak : Text.IsBoundary source 7 := Text.isBoundary_iff.mpr
    ⟨"S -> é".toList, "\nT → 'é".toList, by decide +kernel +revert, by decide⟩
  obtain ⟨hback, hlt, hrejected⟩ := position_spec source
  obtain ⟨-, hboundary, hoffset⟩ := hrejected rejection hparse
  refine ⟨hparse, hbreak, hposition, hposition ▸ hoffset, (hback ⟨7, ""⟩ hbreak).2.2, ?_⟩
  exact hposition ▸ hlt ⟨7, ""⟩ rejection.diagnostic hbreak hboundary (by decide)

end ContextFree
