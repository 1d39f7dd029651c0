import Mathlib.Data.List.Infix
import Mathlib.Data.List.TakeWhile
import ContextFree.Proofs.Source.Word

/-!
# Spelling

Which characters are skipped, which ones spell a lexeme and which ones have no end is said here
without saying how it is found out. All of this depends on the characters that follow: a comment to
the end of a line is complete only before a line break, and a word is over only where nothing
continues it. The piece at the front of a source is exactly what it says (`Piece.isFirst_iff`).
-/

namespace ContextFree

/-! ## What is skipped -/

/-- A white-space character other than a line break, or a complete comment. One that starts with two
slashes stops before the next line break or at the end; the other kind stops with the first `*/`. -/
inductive IsSkipped : List Char → List Char → Prop where
  | blank {c : Char} {rest : List Char} (isBlank : Text.isBlank c) (ne_newline : c ≠ '\n') :
      IsSkipped [c] rest
  | lineComment {body rest : List Char} (newline_notMem : '\n' ∉ body)
      (stops : rest = [] ∨ ∃ after, rest = '\n' :: after) :
      IsSkipped ('/' :: '/' :: body) rest
  | blockComment {body rest : List Char} (notEarlier : ¬['*', '/'] <:+: body) :
      IsSkipped ('/' :: '*' :: (body ++ ['*', '/'])) rest

/-- Characters all of which are skipped when `rest` comes after them. -/
inductive IsGap : List Char → List Char → Prop where
  | nil {rest : List Char} : IsGap [] rest
  | append {skipped gap rest : List Char} (first : IsSkipped skipped (gap ++ rest))
      (more : IsGap gap rest) : IsGap (skipped ++ gap) rest

/-! ## What is read -/

/-- No word goes on here: there is white space, a bar, a comment or nothing. -/
inductive StopsWord : List Char → Prop where
  | nil : StopsWord []
  | blank {c : Char} {cs : List Char} (isBlank : Text.isBlank c) : StopsWord (c :: cs)
  | bar {cs : List Char} : StopsWord ('|' :: cs)
  | lineComment {cs : List Char} : StopsWord ('/' :: '/' :: cs)
  | blockComment {cs : List Char} : StopsWord ('/' :: '*' :: cs)

/-- The characters reach up to the first place where no word goes on. -/
structure ReachesStop (word rest : List Char) : Prop where
  goesOn : ∀ suffix, suffix <:+ word → suffix ≠ [] → ¬StopsWord (suffix ++ rest)
  stops : StopsWord rest

/-- Characters with escapes, and what they stand for: a backslash stands for the character after it.
A quote is always escaped. -/
inductive Unescapes : List Char → List Char → Prop where
  | nil : Unescapes [] []
  | plain {c : Char} {inside text : List Char} (ne_quote : c ≠ '\'') (ne_backslash : c ≠ '\\')
      (more : Unescapes inside text) : Unescapes (c :: inside) (c :: text)
  | escaped {c : Char} {inside text : List Char} (more : Unescapes inside text) :
      Unescapes ('\\' :: c :: inside) (c :: text)

/-- The characters are a lexeme when `rest` comes after them. -/
inductive Lexeme.IsSpelledBy : Lexeme → List Char → List Char → Prop where
  | newline {rest : List Char} : IsSpelledBy .newline ['\n'] rest
  | pipe {rest : List Char} : IsSpelledBy .pipe ['|'] rest
  | quoted {inside text rest : List Char} (unescapes : Unescapes inside text) :
      IsSpelledBy (.quoted (String.ofList text)) ('\'' :: (inside ++ ['\''])) rest
  | arrow {word rest : List Char} (isArrow : word = ['-', '>'] ∨ word = ['→'])
      (reachesStop : ReachesStop word rest) : IsSpelledBy .arrow word rest
  | epsilon {rest : List Char} (reachesStop : ReachesStop ['ε'] rest) :
      IsSpelledBy .epsilon ['ε'] rest
  | ident {name : String} {rest : List Char} (ne_empty : name ≠ "")
      (notQuoted : name.toList.head? ≠ some '\'') (notReserved : name ∉ ["->", "→", "ε"])
      (reachesStop : ReachesStop name.toList rest) : IsSpelledBy (.ident name) name.toList rest

/-- A quote or comment starts here and never ends. -/
inductive IsUnclosed : List Char → LexicalError → Prop where
  | quote {cs : List Char}
      (unending : ∀ inside text rest, Unescapes inside text → cs ≠ inside ++ '\'' :: rest) :
      IsUnclosed ('\'' :: cs) .unterminatedQuote
  | comment {cs : List Char} (unending : ¬['*', '/'] <:+: cs) :
      IsUnclosed ('/' :: '*' :: cs) .unterminatedComment

/-- What can be said about the front of a source. -/
inductive Piece.IsFirst : List Char → Except LexicalError Piece → Prop where
  | skipped {chars rest : List Char} (isSkipped : IsSkipped chars rest) :
      IsFirst (chars ++ rest) (.ok ⟨chars, none, rest⟩)
  | lexeme {lexeme : Lexeme} {chars rest : List Char}
      (isSpelledBy : lexeme.IsSpelledBy chars rest) :
      IsFirst (chars ++ rest) (.ok ⟨chars, some lexeme, rest⟩)
  | unclosed {cs : List Char} {cause : LexicalError} (isUnclosed : IsUnclosed cs cause) :
      IsFirst cs (.error cause)

variable {c : Char} {cs ds word inside text rest body gap : List Char} {lexeme : Lexeme}
  {cause : LexicalError}

theorem IsSkipped.ne_nil (h : IsSkipped cs rest) : cs ≠ [] := by
  cases h <;> exact List.cons_ne_nil _ _

theorem Lexeme.IsSpelledBy.ne_nil (h : lexeme.IsSpelledBy cs rest) : cs ≠ [] := by
  cases h with
  | newline | pipe | quoted | epsilon => exact List.cons_ne_nil _ _
  | arrow harrow => obtain rfl | rfl := harrow <;> exact List.cons_ne_nil _ _
  | ident hne => exact mt String.toList_eq_nil_iff.mp hne

theorem IsUnclosed.ne_nil (h : IsUnclosed cs cause) : cs ≠ [] := by
  cases h <;> exact List.cons_ne_nil _ _

/-! ## Comments -/

theorem dropWhile_ne_newline (cs : List Char) : cs.dropWhile (· != '\n') = [] ∨
    ∃ after, cs.dropWhile (· != '\n') = '\n' :: after := by
  have hhead := List.head?_dropWhile_not (· != '\n') cs
  cases hdrop : cs.dropWhile (· != '\n') with
  | nil => exact .inl rfl
  | cons c after =>
    rw [hdrop] at hhead
    obtain rfl : c = '\n' := by simpa using hhead
    exact .inr ⟨after, rfl⟩

theorem span_newline (hbody : '\n' ∉ body) (hrest : rest = [] ∨ ∃ after, rest = '\n' :: after) :
    (body ++ rest).takeWhile (· != '\n') = body ∧ (body ++ rest).dropWhile (· != '\n') = rest := by
  have hpos : ∀ c ∈ body, (c != '\n') = true := fun c hc => by
    simpa using fun heq : c = '\n' => hbody (heq ▸ hc)
  rw [List.takeWhile_append_of_pos hpos, List.dropWhile_append_of_pos hpos]
  obtain rfl | ⟨after, rfl⟩ := hrest <;> simp

theorem splitAtCommentEnd_append_end (h : ¬['*', '/'] <:+: body) (rest : List Char) :
    splitAtCommentEnd (body ++ '*' :: '/' :: rest) = some (body ++ ['*', '/'], rest) := by
  induction body with
  | nil => rfl
  | cons c body ih =>
    rw [List.infix_cons_iff, not_or] at h
    rw [List.cons_append, splitAtCommentEnd, ih h.2]
    · rfl
    · rintro tail rfl heq
      -- a star right before the end is followed by a star, and any other by more of the body
      cases body with
      | nil => simp at heq
      | cons d body =>
        obtain ⟨rfl, -⟩ := List.cons.inj heq
        exact h.1 ⟨body, rfl⟩

theorem exists_of_splitAtCommentEnd_eq_some {split : List Char × List Char}
    (h : splitAtCommentEnd cs = some split) :
    ∃ body, split.1 = body ++ ['*', '/'] ∧ ¬['*', '/'] <:+: body := by
  fun_induction splitAtCommentEnd cs generalizing split with
  | case1 => simp at h
  | case2 rest => cases h; exact ⟨[], rfl, by simp⟩
  | case3 c cs hne ih =>
    obtain ⟨inner, hinner, rfl⟩ := Option.map_eq_some_iff.mp h
    obtain ⟨body, hbody, hfirst⟩ := ih hinner
    have happend := splitAtCommentEnd_append hinner
    refine ⟨c :: body, by simp [hbody], ?_⟩
    rw [List.infix_cons_iff, not_or]
    refine ⟨?_, hfirst⟩
    rintro ⟨tail, htail⟩
    obtain ⟨rfl, rfl⟩ := List.cons.inj htail
    exact hne (tail ++ ['*', '/'] ++ inner.2) rfl (by simp [← happend, hbody])

theorem splitAtCommentEnd_eq_none_iff : splitAtCommentEnd cs = none ↔ ¬['*', '/'] <:+: cs := by
  fun_induction splitAtCommentEnd cs with
  | case1 => simp
  | case2 rest => exact iff_of_false (by simp) (not_not.mpr ⟨[], rest, rfl⟩)
  | case3 c cs hne ih =>
    rw [Option.map_eq_none_iff, ih, List.infix_cons_iff, not_or]
    refine ⟨fun h => ⟨?_, h⟩, And.right⟩
    rintro ⟨tail, htail⟩
    obtain ⟨rfl, rfl⟩ := List.cons.inj htail
    exact hne tail rfl rfl

/-! ## Quotes -/

theorem Unescapes.unescape_eq (h : Unescapes inside text) : unescape inside = text := by
  induction h with
  | nil => rfl
  | plain _ hbackslash _ ih => rw [unescape, ih]; exact fun _ _ heq => absurd heq hbackslash
  | escaped _ ih => rw [unescape, ih]

theorem Unescapes.splitAtQuote_append (h : Unescapes inside text) (rest : List Char) :
    splitAtQuote (inside ++ '\'' :: rest) = some (inside, rest) := by
  induction h with
  | nil => rfl
  | plain hquote hbackslash _ ih =>
    rw [List.cons_append, splitAtQuote, ih]
    · rfl
    · exact hquote
    · exact fun heq => absurd heq hbackslash
    · exact fun _ _ heq => absurd heq hbackslash
  | escaped _ ih => rw [List.cons_append, List.cons_append, splitAtQuote, ih]; rfl

theorem unescapes_of_splitAtQuote_eq_some {split : List Char × List Char}
    (h : splitAtQuote cs = some split) : Unescapes split.1 (unescape split.1) := by
  fun_induction splitAtQuote cs generalizing split with
  | case1 | case3 => simp at h
  | case2 rest => cases h; exact .nil
  | case4 c cs ih =>
    obtain ⟨inner, hinner, rfl⟩ := Option.map_eq_some_iff.mp h
    exact .escaped (ih hinner)
  | case5 c cs hquote hlast hescape ih =>
    obtain ⟨inner, hinner, rfl⟩ := Option.map_eq_some_iff.mp h
    have hbackslash : c ≠ '\\' := by
      rintro rfl
      cases cs with
      | nil => exact hlast rfl rfl
      | cons d cs => exact hescape d cs rfl rfl
    have hplain := Unescapes.plain hquote hbackslash (ih hinner)
    rwa [← hplain.unescape_eq] at hplain

theorem splitAtQuote_eq_none_iff : splitAtQuote cs = none ↔
    ∀ inside text rest, Unescapes inside text → cs ≠ inside ++ '\'' :: rest := by
  constructor
  · rintro h inside text rest hinside rfl
    simp [hinside.splitAtQuote_append] at h
  · intro h
    by_contra hsome
    obtain ⟨split, hsplit⟩ := Option.ne_none_iff_exists'.mp hsome
    exact h _ _ _ (unescapes_of_splitAtQuote_eq_some hsplit) (splitAtQuote_append hsplit).symm

/-! ## Words -/

theorem opensComment_cons_iff :
    opensComment (c :: cs) ↔ c = '/' ∧ ∃ after, cs = '/' :: after ∨ cs = '*' :: after := by
  constructor
  · intro h
    obtain ⟨opener, hopener, after, hafter⟩ := opensComment_iff.mp h
    obtain ⟨d, rfl | rfl, rfl⟩ := eq_of_mem_commentOpeners hopener
    · obtain ⟨rfl, rfl⟩ := List.cons.inj hafter
      exact ⟨rfl, after, .inl rfl⟩
    · obtain ⟨rfl, rfl⟩ := List.cons.inj hafter
      exact ⟨rfl, after, .inr rfl⟩
  · rintro ⟨rfl, after, rfl | rfl⟩ <;> rfl

theorem endsWord_iff : endsWord cs ↔ StopsWord cs := by
  constructor
  · intro h
    cases cs with
    | nil => exact .nil
    | cons c cs =>
      simp only [endsWord, Bool.or_eq_true, beq_iff_eq] at h
      obtain (hblank | rfl) | hopens := h
      · exact .blank hblank
      · exact .bar
      · obtain ⟨rfl, after, rfl | rfl⟩ := opensComment_cons_iff.mp hopens
        · exact .lineComment
        · exact .blockComment
  · intro h
    cases h with
    | nil => rfl
    | blank hblank => simp [endsWord, hblank]
    | bar => simp [endsWord]
    | lineComment | blockComment => simp [endsWord, opensComment]

theorem ReachesStop.splitAtWordEnd_append (h : ReachesStop word rest) (hs : ds <:+ word) :
    splitAtWordEnd (ds ++ rest) = (ds, rest) := by
  -- the induction is on the part of the word that is still ahead
  induction ds with
  | nil =>
    have hends := endsWord_iff.mpr h.stops
    cases rest with
    | nil => rfl
    | cons c cs => rw [List.nil_append, splitAtWordEnd, if_pos hends]
  | cons c ds ih =>
    have hends : ¬endsWord (c :: (ds ++ rest)) :=
      mt endsWord_iff.mp (h.goesOn _ hs (List.cons_ne_nil c ds))
    rw [List.cons_append, splitAtWordEnd, if_neg hends, ih ((List.suffix_cons c ds).trans hs)]

theorem endsWord_splitAtWordEnd (cs : List Char) : endsWord (splitAtWordEnd cs).2 := by
  fun_induction splitAtWordEnd cs with
  | case1 => rfl
  | case2 c cs hends => exact hends
  | case3 c cs _ _ ih => exact ih

theorem reachesStop_splitAtWordEnd (h : ¬endsWord (c :: cs)) :
    ReachesStop (c :: (splitAtWordEnd cs).1) (splitAtWordEnd cs).2 where
  goesOn suffix hs hne := by
    obtain ⟨d, suffix, rfl⟩ := List.exists_cons_of_ne_nil hne
    exact mt endsWord_iff.mpr (not_endsWord_of_suffix h hs)
  stops := endsWord_iff.mp (endsWord_splitAtWordEnd cs)

theorem Lexeme.ofWord_toList {name : String} (h : name ∉ ["->", "→", "ε"]) :
    ofWord name.toList = .ident name := by
  simp only [List.mem_cons, List.not_mem_nil, or_false, not_or, ← String.toList_inj] at h
  simp_all [ofWord]

theorem Lexeme.isSpelledBy_ofWord (h : ReachesStop (c :: cs) rest) (hquote : c ≠ '\'') :
    (ofWord (c :: cs)).IsSpelledBy (c :: cs) rest := by
  rw [ofWord]
  split
  · next harrow => exact .arrow harrow h
  split
  · next hepsilon => exact hepsilon ▸ .epsilon (hepsilon ▸ h)
  next harrow hepsilon =>
  have hname : (String.ofList (c :: cs)).toList = c :: cs := String.toList_ofList
  have hident :
      (ident (String.ofList (c :: cs))).IsSpelledBy (String.ofList (c :: cs)).toList rest := by
    refine .ident ?_ ?_ ?_ (hname.symm ▸ h)
    · rw [← String.toList_inj.ne, hname]
      exact List.cons_ne_nil c cs
    · simpa [hname] using hquote
    · simp only [List.mem_cons, List.not_mem_nil, or_false, ← String.toList_inj, hname]
      rintro (heq | heq | heq)
      · exact harrow (.inl heq)
      · exact harrow (.inr heq)
      · exact hepsilon heq
  rwa [hname] at hident

/-- A word is a lexeme that is not spelled in any other way. -/
theorem ReachesStop.first (h : ReachesStop (c :: word) rest) (hquote : c ≠ '\'') :
    Piece.first c (word ++ rest) = .ok ⟨c :: word, some (.ofWord (c :: word)), rest⟩ := by
  have hends : ¬endsWord (c :: (word ++ rest)) :=
    mt endsWord_iff.mp (h.goesOn _ (List.suffix_refl _) (List.cons_ne_nil c word))
  simp only [endsWord, Bool.or_eq_true, not_or, Bool.not_eq_true, beq_iff_eq] at hends
  obtain ⟨⟨hblank, hbar⟩, hopens⟩ := hends
  have hnewline : c ≠ '\n' := by
    rintro rfl
    exact absurd hblank (by decide)
  have hsplit := h.splitAtWordEnd_append (List.suffix_cons c word)
  simp [Piece.first, hnewline, hblank, hbar, hquote, hopens, hsplit]

/-! ## Pieces -/

namespace Piece

theorem isFirst_first (c : Char) (cs : List Char) : IsFirst (c :: cs) (first c cs) := by
  have skipped {chars rest : List Char} (hchars : IsSkipped chars rest)
      (heq : chars ++ rest = c :: cs) : IsFirst (c :: cs) (.ok ⟨chars, none, rest⟩) :=
    heq ▸ .skipped hchars
  have lexeme {lexeme : Lexeme} {chars rest : List Char} (hchars : lexeme.IsSpelledBy chars rest)
      (heq : chars ++ rest = c :: cs) : IsFirst (c :: cs) (.ok ⟨chars, some lexeme, rest⟩) :=
    heq ▸ .lexeme hchars
  -- every test that `first` makes in vain is needed for the word that is left in the end
  unfold first
  split
  · next hnewline => subst hnewline; exact lexeme .newline rfl
  next hnewline =>
  split
  · next hblank => exact skipped (.blank hblank hnewline) rfl
  next hblank =>
  split
  · next hbar => subst hbar; exact lexeme .pipe rfl
  next hbar =>
  split
  · next hquote =>
    subst hquote
    split
    · next inside rest hsplit =>
      have happend := splitAtQuote_append hsplit
      exact lexeme (.quoted (unescapes_of_splitAtQuote_eq_some hsplit)) (by simp [← happend])
    · next hnone => exact .unclosed (.quote (splitAtQuote_eq_none_iff.mp hnone))
  next hquote =>
  split
  · next hopens =>
    obtain ⟨rfl, after, rfl | rfl⟩ := opensComment_cons_iff.mp hopens
    · have hbody : '\n' ∉ after.takeWhile (· != '\n') := by
        intro hmem
        simpa using List.mem_takeWhile_imp hmem
      exact skipped (.lineComment hbody (dropWhile_ne_newline after)) (by simp)
    · cases hsplit : splitAtCommentEnd after with
      | none =>
        simp only [hsplit]
        exact .unclosed (.comment (splitAtCommentEnd_eq_none_iff.mp hsplit))
      | some split =>
        obtain ⟨body, hchars, hbody⟩ := exists_of_splitAtCommentEnd_eq_some hsplit
        have happend := splitAtCommentEnd_append hsplit
        simp only [hsplit, hchars]
        exact skipped (.blockComment hbody) (by simp [← happend, hchars])
  · next hopens =>
    have hends : ¬endsWord (c :: cs) := by simp [endsWord, hblank, hbar, hopens]
    exact lexeme (Lexeme.isSpelledBy_ofWord (reachesStop_splitAtWordEnd hends) hquote)
      (by simp [splitAtWordEnd_append])

theorem first_of_isSkipped (h : IsSkipped ds rest) (heq : ds ++ rest = c :: cs) :
    first c cs = .ok ⟨ds, none, rest⟩ := by
  cases h with
  | blank hblank hnewline =>
    obtain ⟨rfl, rfl⟩ := List.cons.inj heq
    simp [first, hblank, hnewline]
  | lineComment hbody hrest =>
    obtain ⟨rfl, rfl⟩ := List.cons.inj heq
    obtain ⟨htake, hdrop⟩ := span_newline hbody hrest
    simp [first, opensComment, Text.isBlank, Text.blankRanges, htake, hdrop]
  | blockComment hbody =>
    obtain ⟨rfl, rfl⟩ := List.cons.inj heq
    have hsplit := splitAtCommentEnd_append_end hbody rest
    simp [first, opensComment, Text.isBlank, Text.blankRanges, hsplit]

theorem first_of_isSpelledBy (h : lexeme.IsSpelledBy ds rest) (heq : ds ++ rest = c :: cs) :
    first c cs = .ok ⟨ds, some lexeme, rest⟩ := by
  cases h with
  | newline =>
    obtain ⟨rfl, rfl⟩ := List.cons.inj heq
    simp [first]
  | pipe =>
    obtain ⟨rfl, rfl⟩ := List.cons.inj heq
    simp [first, Text.isBlank, Text.blankRanges]
  | quoted hinside =>
    obtain ⟨rfl, rfl⟩ := List.cons.inj heq
    have hsplit := hinside.splitAtQuote_append rest
    simp [first, Text.isBlank, Text.blankRanges, hsplit, hinside.unescape_eq]
  | arrow harrow hreach =>
    obtain rfl | rfl := harrow <;> obtain ⟨rfl, rfl⟩ := List.cons.inj heq <;>
      exact hreach.first (by decide)
  | epsilon hreach =>
    obtain ⟨rfl, rfl⟩ := List.cons.inj heq
    exact hreach.first (by decide)
  | @ident name _ hne hquote hreserved hreach =>
    have hident := Lexeme.ofWord_toList hreserved
    obtain ⟨d, word, hword⟩ := List.exists_cons_of_ne_nil (mt String.toList_eq_nil_iff.mp hne)
    rw [hword] at heq hquote hreach hident ⊢
    obtain ⟨rfl, rfl⟩ := List.cons.inj heq
    exact hident ▸ hreach.first (by simpa using hquote)

theorem first_of_isUnclosed (h : IsUnclosed (c :: cs) cause) : first c cs = .error cause := by
  cases h with
  | quote h =>
    simp [first, Text.isBlank, Text.blankRanges, splitAtQuote_eq_none_iff.mpr h]
  | comment h =>
    simp [first, opensComment, Text.isBlank, Text.blankRanges, splitAtCommentEnd_eq_none_iff.mpr h]

/-- What is said about the front of a source holds of its first piece and of nothing else. -/
theorem isFirst_iff {result : Except LexicalError Piece} :
    IsFirst (c :: cs) result ↔ result = first c cs := by
  constructor
  · intro h
    generalize hds : c :: cs = ds at h
    cases h with
    | skipped h => exact (first_of_isSkipped h hds.symm).symm
    | lexeme h => exact (first_of_isSpelledBy h hds.symm).symm
    | unclosed h => exact (first_of_isUnclosed (hds ▸ h)).symm
  · rintro rfl
    exact isFirst_first c cs

theorem isSkipped_of_first {piece : Piece} (h : first c cs = .ok piece)
    (hnone : piece.lexeme? = none) : IsSkipped piece.chars piece.rest := by
  have hfirst := isFirst_iff.mpr h.symm
  generalize c :: cs = ds at hfirst
  cases hfirst with
  | skipped hskipped => exact hskipped
  | lexeme => simp at hnone

theorem isSpelledBy_of_first {piece : Piece} (h : first c cs = .ok piece)
    (hsome : piece.lexeme? = some lexeme) : lexeme.IsSpelledBy piece.chars piece.rest := by
  have hfirst := isFirst_iff.mpr h.symm
  generalize c :: cs = ds at hfirst
  cases hfirst with
  | skipped => simp at hsome
  | lexeme hspelled => exact Option.some.inj hsome ▸ hspelled

theorem isUnclosed_of_first (h : first c cs = .error cause) : IsUnclosed (c :: cs) cause := by
  have hfirst := isFirst_iff.mpr h.symm
  generalize c :: cs = ds at hfirst ⊢
  cases hfirst with
  | unclosed hunclosed => exact hunclosed

end Piece

end ContextFree
