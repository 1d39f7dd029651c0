import Mathlib.Data.List.Infix
import ContextFree.Source.Lexing

/-!
# Words

A word is never interrupted: it has no white space, no bar, and no comment starts in it. Before
white space or the end of a source, such characters are cut off as one word
(`IsWord.splitAtWordEnd_append`); and whatever is cut off as a word is one
(`isWord_splitAtWordEnd`).
-/

namespace ContextFree

/-- What a comment starts with. -/
def commentOpeners : List (List Char) :=
  [['/', '/'], ['/', '*']]

/-- Characters that can be written as a single word. -/
structure IsWord (word : List Char) : Prop where
  ne_nil : word ≠ []
  solid : ∀ c ∈ word, ¬Text.isBlank c ∧ c ≠ '|'
  noComment : ∀ opener ∈ commentOpeners, ¬opener <:+: word

instance (word : List Char) : Decidable (IsWord word) :=
  decidable_of_iff (word ≠ [] ∧ word.all (fun c => !Text.isBlank c && c != '|') ∧
      ∀ opener ∈ commentOpeners, ¬opener <:+: word)
    ⟨fun h => ⟨h.1, by simpa using h.2.1, h.2.2⟩,
      fun h => ⟨h.ne_nil, by simpa using h.solid, h.noComment⟩⟩

/-- A word does not go on here: there is white space or nothing. -/
def AtBlank (rest : List Char) : Prop :=
  ∀ c ∈ rest.head?, Text.isBlank c

variable {word suffix rest cs : List Char} {c : Char}

theorem atBlank_cons : AtBlank (c :: cs) ↔ Text.isBlank c := by
  simp [AtBlank]

theorem opensComment_iff : opensComment cs ↔ ∃ opener ∈ commentOpeners, opener <+: cs := by
  fun_cases opensComment cs with
  | case1 rest => simp [commentOpeners, List.nil_prefix]
  | case2 rest => simp [commentOpeners, List.nil_prefix]
  | case3 cs hslash hstar =>
    simp only [commentOpeners, List.mem_cons, List.not_mem_nil, or_false, exists_eq_or_imp,
      exists_eq_left, Bool.false_eq_true, false_iff]
    rintro (⟨rest, rfl⟩ | ⟨rest, rfl⟩)
    · exact hslash rest rfl
    · exact hstar rest rfl

theorem eq_of_mem_commentOpeners {opener : List Char} (h : opener ∈ commentOpeners) :
    ∃ d, (d = '/' ∨ d = '*') ∧ opener = ['/', d] := by
  simpa [commentOpeners] using h

theorem not_opensComment_of_blank (h : AtBlank rest) : ¬opensComment (c :: rest) := by
  intro hopens
  obtain ⟨opener, hopener, hprefix⟩ := opensComment_iff.mp hopens
  obtain ⟨d, hd, rfl⟩ := eq_of_mem_commentOpeners hopener
  obtain ⟨tail, htail⟩ := (List.cons_prefix_cons.mp hprefix).2
  have hblank : Text.isBlank d := h d (by rw [← htail]; rfl)
  rcases hd with rfl | rfl <;> exact absurd hblank (by decide)

/-- A word goes on with whatever does not end it, except for the characters of comments. -/
theorem IsWord.append (h : IsWord word)
    (hcs : ∀ c ∈ cs, ¬Text.isBlank c ∧ c ≠ '|' ∧ c ≠ '/' ∧ c ≠ '*') : IsWord (word ++ cs) := by
  induction cs generalizing word with
  | nil => rwa [List.append_nil]
  | cons c cs ih =>
    obtain ⟨⟨hblank, hbar, hslash, hstar⟩, hcs⟩ := List.forall_mem_cons.mp hcs
    rw [← List.singleton_append, ← List.append_assoc]
    refine ih ⟨by simp, ?_, fun opener hopener hinfix => ?_⟩ hcs
    · exact List.forall_mem_append.mpr ⟨h.solid, List.forall_mem_singleton.mpr ⟨hblank, hbar⟩⟩
    · rcases List.infix_concat_iff.mp hinfix with hsuffix | hinfix
      · obtain ⟨d, hd, rfl⟩ := eq_of_mem_commentOpeners hopener
        obtain ⟨before, heq⟩ := hsuffix
        have hlast : (before ++ ['/', d]).getLast? = (word ++ [c]).getLast? := by rw [heq]
        obtain rfl : d = c := by simpa using hlast
        rcases hd with rfl | rfl
        · exact hslash rfl
        · exact hstar rfl
      · exact h.noComment opener hopener hinfix

/-! ## Cutting off words -/

/-- Nothing in a word opens a comment, whatever white space follows. -/
theorem IsWord.not_opensComment (h : IsWord word) (hs : suffix <:+ word) (hne : suffix ≠ [])
    (hrest : AtBlank rest) : ¬opensComment (suffix ++ rest) := by
  match suffix, hne with
  | [c], _ => exact not_opensComment_of_blank hrest
  | c :: d :: suffix, _ =>
    intro hopens
    obtain ⟨opener, hopener, hprefix⟩ := opensComment_iff.mp hopens
    obtain ⟨e, -, rfl⟩ := eq_of_mem_commentOpeners hopener
    obtain ⟨rfl, htail⟩ := List.cons_prefix_cons.mp hprefix
    obtain ⟨rfl, -⟩ := List.cons_prefix_cons.mp htail
    exact h.noComment _ hopener (List.IsInfix.trans ⟨[], suffix, rfl⟩ hs.isInfix)

theorem IsWord.not_endsWord (h : IsWord word) (hs : c :: suffix <:+ word) (hrest : AtBlank rest) :
    ¬endsWord (c :: (suffix ++ rest)) := by
  obtain ⟨hblank, hbar⟩ := h.solid c (hs.subset List.mem_cons_self)
  have hopens : ¬opensComment (c :: (suffix ++ rest)) :=
    h.not_opensComment hs (List.cons_ne_nil c suffix) hrest
  simp [endsWord, hblank, hbar, hopens]

theorem endsWord_of_atBlank (h : AtBlank rest) : endsWord rest := by
  cases rest with
  | nil => rfl
  | cons c cs => simp [endsWord, h c rfl]

theorem IsWord.splitAtWordEnd_append (h : IsWord word) (hs : suffix <:+ word)
    (hrest : AtBlank rest) : splitAtWordEnd (suffix ++ rest) = (suffix, rest) := by
  induction suffix with
  | nil =>
    have hends := endsWord_of_atBlank hrest
    cases rest with
    | nil => rfl
    | cons c cs => rw [List.nil_append, splitAtWordEnd, if_pos hends]
  | cons c suffix ih =>
    have hends := h.not_endsWord hs hrest
    rw [List.cons_append, splitAtWordEnd, if_neg hends, ih ((List.suffix_cons c suffix).trans hs)]

/-- The first piece is a word if it is none of all that is tried before. -/
theorem IsWord.first (h : IsWord (c :: word)) (hquote : c ≠ '\'') (hrest : AtBlank rest) :
    Piece.first c (word ++ rest) = .ok ⟨c :: word, some (.ofWord (c :: word)), rest⟩ := by
  obtain ⟨hblank, hbar⟩ := h.solid c List.mem_cons_self
  have hnewline : c ≠ '\n' := by
    rintro rfl
    exact hblank (by decide)
  have hopens : ¬opensComment (c :: (word ++ rest)) :=
    h.not_opensComment (List.suffix_refl _) (List.cons_ne_nil c word) hrest
  have hsplit := h.splitAtWordEnd_append (List.suffix_cons c word) hrest
  simp [Piece.first, hnewline, hblank, hbar, hquote, hopens, hsplit]

/-! ## What is cut off -/

theorem not_endsWord_of_suffix {d : Char} (h : ¬endsWord (c :: cs))
    (hs : d :: suffix <:+ c :: (splitAtWordEnd cs).1) :
    ¬endsWord (d :: (suffix ++ (splitAtWordEnd cs).2)) := by
  induction cs generalizing c with
  | nil =>
    obtain ⟨rfl, rfl⟩ : d = c ∧ suffix = [] := by
      simpa [splitAtWordEnd, List.suffix_cons_iff] using hs
    exact h
  | cons e cs ih =>
    rcases List.suffix_cons_iff.mp hs with heq | hs
    · obtain ⟨rfl, rfl⟩ := List.cons.inj heq
      rwa [splitAtWordEnd_append]
    · by_cases hends : endsWord (e :: cs)
      · simp [splitAtWordEnd, hends] at hs
      · rw [splitAtWordEnd, if_neg hends] at hs ⊢
        exact ih hends hs

theorem isWord_splitAtWordEnd (h : ¬endsWord (c :: cs)) : IsWord (c :: (splitAtWordEnd cs).1) where
  ne_nil := List.cons_ne_nil c _
  solid d hd := by
    obtain ⟨before, after, heq⟩ := List.append_of_mem hd
    have hends := not_endsWord_of_suffix h (heq ▸ List.suffix_append before (d :: after))
    simp only [endsWord, Bool.or_eq_true, not_or] at hends
    exact ⟨hends.1.1, by simpa using hends.1.2⟩
  noComment opener hopener hinfix := by
    obtain ⟨suffix, hprefix, hs⟩ := List.infix_iff_prefix_suffix.mp hinfix
    obtain ⟨e, -, rfl⟩ := eq_of_mem_commentOpeners hopener
    obtain ⟨tail, rfl⟩ := hprefix
    have hopens : opensComment ('/' :: e :: (tail ++ (splitAtWordEnd cs).2)) :=
      opensComment_iff.mpr ⟨_, hopener, tail ++ (splitAtWordEnd cs).2, rfl⟩
    exact not_endsWord_of_suffix h hs (by simp [endsWord, hopens])

end ContextFree
