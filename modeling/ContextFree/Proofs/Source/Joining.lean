import ContextFree.Proofs.Source.Reader

/-!
# Joining sources

A line break separates what stands before it from what stands after it, unless it is inside of a
quote or a comment that starts before. The source after it is then read as if it stood alone, only
at other offsets. So two sources with a line break in between are read one after the other
(`readRules_append_newline`).
-/

namespace ContextFree

/-! ## Spelling before a line break -/

section

variable {cs rest gap word : List Char} {lexeme : Lexeme}

theorem IsSkipped.append_newline (h : IsSkipped cs rest) (ds : List Char) :
    IsSkipped cs (rest ++ '\n' :: ds) := by
  cases h with
  | blank hblank hnewline => exact .blank hblank hnewline
  | lineComment hbody hrest =>
    obtain rfl | ⟨after, rfl⟩ := hrest
    · exact .lineComment hbody (.inr ⟨ds, rfl⟩)
    · exact .lineComment hbody (.inr ⟨after ++ '\n' :: ds, rfl⟩)
  | blockComment hbody => exact .blockComment hbody

theorem IsGap.append_newline (h : IsGap gap rest) (ds : List Char) :
    IsGap gap (rest ++ '\n' :: ds) := by
  induction h with
  | nil => exact .nil
  | append hskipped _ ih =>
    refine .append ?_ ih
    rw [← List.append_assoc]
    exact hskipped.append_newline ds

theorem StopsWord.append_newline (h : StopsWord cs) (ds : List Char) :
    StopsWord (cs ++ '\n' :: ds) := by
  cases h with
  | nil => exact .blank (by decide)
  | blank hblank => exact .blank hblank
  | bar => exact .bar
  | lineComment => exact .lineComment
  | blockComment => exact .blockComment

/-- A line break does not make a word end earlier. -/
theorem StopsWord.of_append_newline {ds : List Char} (h : StopsWord (cs ++ '\n' :: ds))
    (hne : cs ≠ []) : StopsWord cs := by
  obtain ⟨c, cs, rfl⟩ := List.exists_cons_of_ne_nil hne
  rw [List.cons_append] at h
  generalize htail : cs ++ '\n' :: ds = tail at h
  cases h with
  | blank hblank => exact .blank hblank
  | bar => exact .bar
  | lineComment | blockComment =>
    obtain - | ⟨d, cs⟩ := cs
    · simp at htail
    · obtain ⟨rfl, -⟩ := List.cons.inj htail
      first | exact .lineComment | exact .blockComment

theorem ReachesStop.append_newline (h : ReachesStop word rest) (ds : List Char) :
    ReachesStop word (rest ++ '\n' :: ds) where
  goesOn suffix hsuffix hne hstops := by
    rw [← List.append_assoc] at hstops
    exact h.goesOn suffix hsuffix hne
      (hstops.of_append_newline (List.append_ne_nil_of_left_ne_nil hne rest))
  stops := h.stops.append_newline ds

theorem Lexeme.IsSpelledBy.append_newline (h : lexeme.IsSpelledBy cs rest) (ds : List Char) :
    lexeme.IsSpelledBy cs (rest ++ '\n' :: ds) := by
  cases h with
  | newline => exact .newline
  | pipe => exact .pipe
  | quoted hinside => exact .quoted hinside
  | arrow harrow hreach => exact .arrow harrow (hreach.append_newline ds)
  | epsilon hreach => exact .epsilon (hreach.append_newline ds)
  | ident hne hquote hreserved hreach =>
    exact .ident hne hquote hreserved (hreach.append_newline ds)

end

/-! ## Offsets

The same things, each of them `n` bytes further behind.
-/

def LocatedLexeme.shift (n : Nat) (l : LocatedLexeme) : LocatedLexeme :=
  ⟨n + l.start, n + l.stop, l.lexeme⟩

def Lexing.shift (n : Nat) (lexing : Lexing) : Lexing :=
  ⟨lexing.lexemes.map (LocatedLexeme.shift n),
    lexing.fault?.map fun fault => (n + fault.1, fault.2)⟩

def Line.shift (n : Nat) (line : Line) : Line :=
  ⟨line.lexemes.map (LocatedLexeme.shift n), n + line.stop⟩

def Rejection.shift (n : Nat) (rejection : Rejection) : Rejection :=
  ⟨n + rejection.offset, rejection.error⟩

/-! ## Lexemes -/

namespace Lexing

variable {offset : Nat} {cs ds : List Char} {lexing more : Lexing}

theorem Tiles.shift (n : Nat) (h : Tiles offset cs lexing) :
    Tiles (n + offset) cs (lexing.shift n) := by
  induction h with
  | gap hgap => exact .gap hgap
  | fault hgap hunclosed =>
    simp only [Lexing.shift, List.map_nil, Option.map_some, ← Nat.add_assoc]
    exact .fault hgap hunclosed
  | @lexeme offset start stop gap text rest lexeme lexing hgap hspelled hstart hstop _ ih =>
    have hstart : n + start = n + offset + Text.byteLength gap := by omega
    have hstop : n + stop = n + start + Text.byteLength text := by omega
    exact .lexeme hgap hspelled hstart hstop ih

/-- What stands before a line break is tiled as if the line break were the end. -/
theorem Tiles.append_newline (h : Tiles offset cs lexing) (hfault : lexing.fault? = none)
    {stop : Nat} (hstop : stop = offset + Text.byteLength cs) (hmore : Tiles (stop + 1) ds more) :
    Tiles offset (cs ++ '\n' :: ds)
      ⟨lexing.lexemes ++ ⟨stop, stop + 1, .newline⟩ :: more.lexemes, more.fault?⟩ := by
  induction h with
  | @gap offset chars hgap =>
    -- the gap that went up to the end is now the one before the line break
    have hgap : IsGap chars (['\n'] ++ ds) := hgap.append_newline ds
    exact .lexeme hgap .newline hstop rfl hmore
  | fault => simp at hfault
  | @lexeme offset start stop' gap text rest lexeme lexing hgap hspelled hstart hstop' _ ih =>
    simp only [Text.byteLength_append] at hstop
    have hgap := hgap.append_newline ds
    rw [List.append_assoc] at hgap ⊢
    rw [List.append_assoc]
    exact .lexeme hgap (hspelled.append_newline ds) hstart hstop' (ih hfault (by omega))

/-- Nothing before a line break has an influence on what comes after it. -/
theorem ofSource_append_newline {s₁ s₂ : String} (h : (ofSource s₁).fault? = none) :
    ofSource (s₁ ++ "\n" ++ s₂) =
      ⟨(ofSource s₁).lexemes ++ ⟨s₁.utf8ByteSize, s₁.utf8ByteSize + 1, .newline⟩ ::
          ((ofSource s₂).shift (s₁.utf8ByteSize + 1)).lexemes,
        ((ofSource s₂).shift (s₁.utf8ByteSize + 1)).fault?⟩ := by
  have hmore := (tiles_ofChars 0 s₂.toList).shift (s₁.utf8ByteSize + 1)
  have hjoined := (tiles_ofChars 0 s₁.toList).append_newline h
    (by rw [Text.byteLength_toList, Nat.zero_add]) hmore
  have hchars : (s₁ ++ "\n" ++ s₂).toList = s₁.toList ++ '\n' :: s₂.toList := by simp
  rw [ofSource, hchars]
  exact hjoined.eq_ofChars.symm

end Lexing

/-! ## Lines -/

namespace Line

theorem splitAll_append_newline (lexemes more : List LocatedLexeme) (start stop : Nat) :
    splitAll (lexemes ++ ⟨start, stop, .newline⟩ :: more) =
      ((splitAll lexemes).1 ++ ⟨(splitAll lexemes).2, start⟩ :: (splitAll more).1,
        (splitAll more).2) := by
  induction lexemes with
  | nil => simp [splitAll]
  | cons l lexemes ih =>
    rw [List.cons_append, splitAll, splitAll, ih]
    split
    · rfl
    · cases (splitAll lexemes).1 <;> rfl

theorem splitAll_shift (n : Nat) (lexemes : List LocatedLexeme) :
    splitAll (lexemes.map (LocatedLexeme.shift n)) =
      ((splitAll lexemes).1.map (Line.shift n),
        (splitAll lexemes).2.map (LocatedLexeme.shift n)) := by
  induction lexemes with
  | nil => rfl
  | cons l lexemes ih =>
    rw [List.map_cons, splitAll, splitAll, ih, LocatedLexeme.shift]
    split
    · rfl
    · cases (splitAll lexemes).1 <;> rfl

theorem readAlternatives_shift (n stop : Nat) (items : List Expr) (lexemes : List LocatedLexeme) :
    readAlternatives (n + stop) items (lexemes.map (LocatedLexeme.shift n)) =
      (readAlternatives stop items lexemes).mapError (Rejection.shift n) := by
  fun_induction readAlternatives stop items lexemes with
  | case1 items hempty => simp [readAlternatives, hempty, Except.mapError, Rejection.shift]
  | case2 items hempty => simp [readAlternatives, hempty, Except.mapError]
  | case3 _ _ _ _ _ ih | case4 _ _ _ _ _ ih | case5 _ _ _ _ ih | case9 _ _ _ _ ih =>
    simpa [readAlternatives, LocatedLexeme.shift] using ih
  | case6 items start _ rest hempty =>
    simp [readAlternatives, LocatedLexeme.shift, hempty, Except.mapError, Rejection.shift]
  | case7 items start _ rest hempty ih =>
    rw [List.map_cons, LocatedLexeme.shift, readAlternatives, if_neg hempty, ih]
    cases readAlternatives stop [] rest <;> rfl
  | case8 => rfl

theorem rule?_shift (n : Nat) (line : Line) :
    (line.shift n).rule? = line.rule?.mapError (Rejection.shift n) := by
  obtain ⟨lexemes, stop⟩ := line
  -- only the offset of an error depends on where the lexemes are
  match lexemes with
  | [] => rfl
  | ⟨start, _, .ident name⟩ :: rest =>
    rw [rule?, shift, List.map_cons, LocatedLexeme.shift, rule?]
    by_cases hname : isNonterminalName name
    · simp only [hname, if_true]
      match rest with
      | [] => rfl
      | ⟨_, _, .arrow⟩ :: rest =>
        simp only [List.map_cons, LocatedLexeme.shift, readAlternatives_shift]
        cases readAlternatives stop [] rest <;> rfl
      | ⟨_, _, .ident _⟩ :: _ | ⟨_, _, .quoted _⟩ :: _ | ⟨_, _, .pipe⟩ :: _
      | ⟨_, _, .epsilon⟩ :: _ | ⟨_, _, .newline⟩ :: _ => rfl
    · simp only [hname]
      rfl
  | ⟨_, _, .arrow⟩ :: _ | ⟨_, _, .quoted _⟩ :: _ | ⟨_, _, .pipe⟩ :: _
  | ⟨_, _, .epsilon⟩ :: _ | ⟨_, _, .newline⟩ :: _ => rfl

theorem rules_shift (n : Nat) (lines : List Line) :
    rules (lines.map (Line.shift n)) = (rules lines).mapError (Rejection.shift n) := by
  fun_induction rules lines with
  | case1 => rfl
  | case2 line lines rejection hrule =>
    rw [List.map_cons, rules, rule?_shift, hrule]
    rfl
  | case3 line lines rule? hrule ih =>
    rw [List.map_cons, rules, rule?_shift, hrule, ih]
    cases rules lines <;> rfl

theorem rules_append (lines more : List Line) :
    rules (lines ++ more) = (rules lines).bind fun rs => (rules more).map (rs ++ ·) := by
  fun_induction rules lines with
  | case1 => cases hmore : rules more <;> simp [Except.bind, Except.map, hmore]
  | case2 line lines rejection hrule =>
    rw [List.cons_append, rules, hrule]
    rfl
  | case3 line lines rule? hrule ih =>
    rw [List.cons_append, rules, hrule, ih]
    cases rules lines <;> cases rules more <;> simp [Except.bind, Except.map]

end Line

/-! ## Sources -/

section

variable {s₁ : String}

theorem readRules_of_fault?_eq_none (h : (Lexing.ofSource s₁).fault? = none) :
    readRules s₁ = Line.rules (Line.ofSource s₁) := by
  rw [readRules, h, Line.ofSource, ← Text.byteLength_toList]

/-- A source with a line break behind it is read before the source that comes next. -/
theorem readRules_append_newline (h : (Lexing.ofSource s₁).fault? = none) (s₂ : String) :
    readRules (s₁ ++ "\n" ++ s₂) = (readRules s₁).bind fun rs =>
      ((readRules s₂).mapError (Rejection.shift (s₁.utf8ByteSize + 1))).map (rs ++ ·) := by
  have hlength : (s₁ ++ "\n" ++ s₂).utf8ByteSize = s₁.utf8ByteSize + 1 + s₂.utf8ByteSize := by
    rw [String.utf8ByteSize_append, String.utf8ByteSize_append]
    rfl
  rw [readRules_of_fault?_eq_none h, Line.ofSource]
  simp only [readRules, Lexing.ofSource_append_newline h, Lexing.shift, Text.byteLength_toList,
    Line.splitAll_append_newline, Line.splitAll_shift, hlength]
  generalize (Line.splitAll (Lexing.ofSource s₁).lexemes).1 = lines₁,
    (Line.splitAll (Lexing.ofSource s₁).lexemes).2 = last₁,
    (Line.splitAll (Lexing.ofSource s₂).lexemes).1 = lines₂,
    (Line.splitAll (Lexing.ofSource s₂).lexemes).2 = last₂
  cases (Lexing.ofSource s₂).fault? with
  | none =>
    rw [← Line.rules_shift, ← Line.rules_append]
    simp [Line.shift]
  | some fault =>
    simp only [Option.map_some]
    rw [List.append_cons lines₁, Line.rules_append (lines₁ ++ _), Line.rules_shift]
    cases Line.rules (lines₁ ++ [⟨last₁, s₁.utf8ByteSize⟩]) with
    | error => rfl
    | ok => cases Line.rules lines₂ <;> rfl

end

namespace Grammar

/-- A source in which nothing lacks an end can be followed by any other one after a line break. If
it is rejected, so is the whole, no matter what follows. Otherwise the rules of what follows come
after its own, or what follows is rejected further behind. -/
theorem parse_append_newline (s₁ s₂ : String) (h : (Lexing.ofSource s₁).fault? = none) :
    (∀ rejection, parse s₁ = .error rejection →
      parse (s₁ ++ "\n" ++ s₂) = .error rejection) ∧
    (∀ g₁ g₂, parse s₁ = .ok g₁ → parse s₂ = .ok g₂ →
      ∃ g, parse (s₁ ++ "\n" ++ s₂) = .ok g ∧ ofRules? (g₁.rules ++ g₂.rules) = some g) ∧
    ∀ g₁ rejection, parse s₁ = .ok g₁ → parse s₂ = .error rejection →
      parse (s₁ ++ "\n" ++ s₂) =
        .error ⟨s₁.utf8ByteSize + 1 + rejection.offset, rejection.error⟩ := by
  have hread := readRules_append_newline h s₂
  refine ⟨fun rejection h₁ => ?_, fun g₁ g₂ h₁ h₂ => ?_, fun g₁ rejection h₁ h₂ => ?_⟩
  · rw [parse_eq_error_iff] at h₁ ⊢
    rw [hread, h₁]
    rfl
  · obtain ⟨rs₁, hread₁, hrules₁⟩ := parse_eq_ok_iff.mp h₁
    obtain ⟨rs₂, hread₂, hrules₂⟩ := parse_eq_ok_iff.mp h₂
    rw [hread₁, hread₂] at hread
    have hwf : ∀ rule ∈ g₁.rules ++ g₂.rules, rule.rhs.WellFormed :=
      List.forall_mem_append.mpr ⟨g₁.wellFormed, g₂.wellFormed⟩
    refine ⟨ofRules (g₁.rules ++ g₂.rules) hwf, parse_eq_ok_iff.mpr ⟨rs₁ ++ rs₂, hread, ?_⟩,
      dif_pos hwf⟩
    rw [rules_ofRules, hrules₁, hrules₂, eraseDups_append_eraseDups]
  · obtain ⟨rs₁, hread₁, -⟩ := parse_eq_ok_iff.mp h₁
    rw [parse_eq_error_iff] at h₂ ⊢
    rw [hread, hread₁, h₂]
    rfl

theorem parse_append_newline_comment :
    (Lexing.ofSource "S -> a //").fault? = none ∧
      (∃ g, parse ("S -> a //" ++ "\n" ++ "T -> b") = .ok g ∧
        ofRules? [⟨⟨"S"⟩, .terminal "a"⟩, ⟨⟨"T"⟩, .terminal "b"⟩] = some g) ∧
      parse ("S -> a //" ++ "\n" ++ "T b") = .error ⟨12, .missingArrow⟩ := by
  have hfault : (Lexing.ofSource "S -> a //").fault? = none := by decide +kernel
  have hread₁ : readRules "S -> a //" = .ok [⟨⟨"S"⟩, .terminal "a"⟩] := by decide +kernel
  have hread₂ : readRules "T -> b" = .ok [⟨⟨"T"⟩, .terminal "b"⟩] := by decide +kernel
  have herror : readRules "T b" = .error ⟨2, .missingArrow⟩ := by decide +kernel
  have hparse₁ := parse_eq_ok_iff.mpr
    ⟨_, hread₁, rules_ofRules (h := wellFormed_of_readRules hread₁)⟩
  have hparse₂ := parse_eq_ok_iff.mpr
    ⟨_, hread₂, rules_ofRules (h := wellFormed_of_readRules hread₂)⟩
  exact ⟨hfault, (parse_append_newline "S -> a //" "T -> b" hfault).2.1 _ _ hparse₁ hparse₂,
    (parse_append_newline "S -> a //" "T b" hfault).2.2 _ _ hparse₁
      (parse_eq_error_iff.mpr herror)⟩

end Grammar

end ContextFree
