import ContextFree.Proofs.Tree.Placed
import ContextFree.Proofs.Unger.Search

/-!
# The trees that the search finds

With empty parts allowed, the search finds just the trees that apply a rule to a span and avoid the
attempts under way (`Unger.mem_fits`), and it finds none of them twice (`Unger.nodup_fits`). The
children of a node determine the partition, since each of them covers its own part, and a node
determines its rule.
-/

namespace ContextFree

namespace Placed

variable {start : Nat} {ts : List Tree}

theorem mem_tree_of_mem_row {p : Placed} (h : p ∈ row start ts) : p.tree ∈ ts := by
  have hmem : p.tree ∈ (row start ts).map Placed.tree := List.mem_map_of_mem h
  rwa [map_tree_row] at hmem

theorem exists_mem_row (start : Nat) {t : Tree} (h : t ∈ ts) :
    ∃ p ∈ row start ts, p.tree = t := by
  have hmem : t ∈ (row start ts).map Placed.tree := by rwa [map_tree_row]
  exact List.mem_map.mp hmem

end Placed

namespace Unger

open Placed (row Avoids)

variable {g : Grammar} {input : List Token} {active : List Attempt} {attempt : Attempt}
  {depth : Nat} {span part : Span} {item : Expr} {items : List Expr} {parts : List Span} {t : Tree}
  {children : List Tree} {derive : Nonterminal → Span → List Tree}

/-- The tree derives a part of the input from an item and avoids the attempts under way. -/
structure Covers (g : Grammar) (input : List Token) (active : List Attempt) (item : Expr)
    (part : Span) (t : Tree) : Prop where
  isDerivation : t.IsDerivation g
  root : t.root = item
  tokens : t.tokens = part.slice input
  avoids : Avoids active ⟨part.start, t⟩

theorem span_eq_of_tokens (hpart : part.Within input) (h : t.tokens = part.slice input) :
    (⟨part.start, t⟩ : Placed).span = part := by
  obtain ⟨start, stop⟩ := part
  have hle : start ≤ stop := hpart.le
  have hlength : t.tokens.length = stop - start := by rw [h, hpart.length_slice]
  simp only [Placed.span, Span.mk.injEq, true_and]
  omega

/-! ## One item -/

/-- An item on a part has the trees that cover it if `derive` has them for nonterminals. -/
theorem mem_options_iff (hpart : part.Within input) (hatom : item.isAtom)
    (hderive : ∀ symbol, t ∈ derive symbol part ↔
      Covers g input active (.nonterminal symbol) part t) :
    admits g input item part ∧ t ∈ options derive item part ↔
      Covers g input active item part t := by
  cases item with
  | terminal token =>
    have hadmits : admits g input (.terminal token) part ↔ part.slice input = [token] := by
      simp [admits, hpart.slice_eq_singleton_iff]
    rw [hadmits, options, List.mem_singleton]
    constructor
    · intro h
      obtain ⟨hslice, rfl⟩ := h
      exact ⟨.leaf token, rfl, hslice.symm, Placed.avoids_of_below_eq_nil rfl rfl⟩
    · intro h
      obtain ⟨-, hroot, htokens, -⟩ := h
      obtain rfl := Tree.root_eq_terminal_iff.mp hroot
      exact ⟨htokens.symm, rfl⟩
  | nonterminal symbol =>
    rw [options, hderive symbol, and_iff_right_iff_imp]
    intro h
    obtain ⟨ht, hroot, -, -⟩ := h
    obtain ⟨children, rfl⟩ := ht.exists_children hroot
    exact List.any_eq_true.mpr ⟨_, (Tree.isDerivation_node_iff.mp ht).2.1, decide_eq_true rfl⟩
  | empty =>
    have hadmits : admits g input .empty part ↔ part.slice input = [] := by
      simp [admits, hpart.slice_eq_nil_iff]
    rw [hadmits, options, List.mem_singleton]
    constructor
    · intro h
      obtain ⟨hslice, rfl⟩ := h
      exact ⟨.epsilon, rfl, hslice.symm, Placed.avoids_of_below_eq_nil rfl rfl⟩
    · intro h
      obtain ⟨-, hroot, htokens, -⟩ := h
      obtain rfl := Tree.root_eq_empty_iff.mp hroot
      exact ⟨htokens.symm, rfl⟩
  | seq | alt => simp [Expr.isAtom] at hatom

/-! ## All items -/

theorem mem_combinations {pairs : List (Expr × Span)} : children ∈ combinations derive pairs ↔
    List.Forall₂ (fun pair child => child ∈ options derive pair.1 pair.2) pairs children := by
  induction pairs generalizing children with
  | nil => simp [combinations]
  | cons pair pairs ih =>
    obtain ⟨item, part⟩ := pair
    simp only [combinations, List.mem_flatMap, List.mem_map, List.forall₂_cons_left_iff, ih]
    constructor
    · intro h
      obtain ⟨child, hchild, rest, hrest, rfl⟩ := h
      exact ⟨child, rest, hchild, hrest, rfl⟩
    · intro h
      obtain ⟨child, rest, hchild, hrest, rfl⟩ := h
      exact ⟨child, hchild, rest, hrest, rfl⟩

/-- The trees stand for the items side by side in the span, make it up and avoid the attempts under
way. -/
structure Fills (g : Grammar) (input : List Token) (active : List Attempt) (items : List Expr)
    (span : Span) (children : List Tree) : Prop where
  roots : children.map Tree.root = items
  tokens : children.flatMap Tree.tokens = span.slice input
  each : ∀ q ∈ row span.start children, q.tree.IsDerivation g ∧ Avoids active q

theorem fills_nil_iff (hspan : span.Within input) :
    Fills g input active items span [] ↔ items = [] ∧ span.start = span.stop := by
  rw [← hspan.slice_eq_nil_iff]
  constructor
  · intro h
    exact ⟨h.roots.symm, h.tokens.symm⟩
  · intro h
    obtain ⟨rfl, hslice⟩ := h
    exact ⟨rfl, hslice.symm, by simp [row]⟩

/-- The first child covers the front of the span, and the others fill what is left. -/
theorem fills_cons_iff (hspan : span.Within input) :
    Fills g input active (item :: items) span (t :: children) ↔
      span.start + t.tokens.length ≤ span.stop ∧
        Covers g input active item ⟨span.start, span.start + t.tokens.length⟩ t ∧
        Fills g input active items ⟨span.start + t.tokens.length, span.stop⟩ children := by
  have hstart : span.start ≤ span.start + t.tokens.length := Nat.le_add_right _ _
  constructor
  · intro h
    have htokens := h.tokens
    rw [List.flatMap_cons] at htokens
    have hle : span.start + t.tokens.length ≤ span.stop := by
      have hlength := congrArg List.length htokens
      rw [List.length_append, hspan.length_slice] at hlength
      have := hspan.le
      omega
    have hfront : (⟨span.start, span.start + t.tokens.length⟩ : Span).Within input :=
      ⟨hstart, hle.trans hspan.le_length⟩
    have hslice : _ = span.slice input := Span.slice_append input hstart hle
    rw [← hslice] at htokens
    obtain ⟨hchild, hrest⟩ := List.append_inj htokens (by rw [hfront.length_slice]; simp)
    obtain ⟨hroot, hroots⟩ := List.cons.inj h.roots
    obtain ⟨hself, hall⟩ := List.forall_mem_cons.mp h.each
    exact ⟨hle, ⟨hself.1, hroot, hchild, hself.2⟩, hroots, hrest, hall⟩
  · intro h
    obtain ⟨hle, hcovers, hrest⟩ := h
    refine ⟨?_, ?_, List.forall_mem_cons.mpr ⟨⟨hcovers.isDerivation, hcovers.avoids⟩, hrest.each⟩⟩
    · rw [List.map_cons, hcovers.root, hrest.roots]
    · rw [List.flatMap_cons, hcovers.tokens, hrest.tokens]
      exact Span.slice_append input hstart hle

/-- Trees that cover the parts of a tiling one by one fill the span, and they determine the
tiling. -/
theorem forall₂_covers_iff (hspan : span.Within input) :
    (items.length = parts.length ∧ span.Tiles parts ∧
      List.Forall₂ (fun pair child => Covers g input active pair.1 pair.2 child)
        (items.zip parts) children) ↔
      Fills g input active items span children ∧
        parts = (row span.start children).map Placed.span := by
  induction children generalizing items parts span with
  | nil =>
    rw [List.forall₂_nil_right_iff, List.zip_eq_nil_iff, fills_nil_iff hspan]
    constructor
    · intro h
      obtain ⟨hlength, htiles, hnil⟩ := h
      obtain ⟨rfl, rfl⟩ : items = [] ∧ parts = [] := by
        rcases hnil with rfl | rfl
        · exact ⟨rfl, List.eq_nil_of_length_eq_zero hlength.symm⟩
        · exact ⟨List.eq_nil_of_length_eq_zero hlength, rfl⟩
      exact ⟨⟨rfl, htiles⟩, rfl⟩
    · intro h
      obtain ⟨⟨rfl, htiles⟩, rfl⟩ := h
      exact ⟨rfl, htiles, .inl rfl⟩
  | cons child children ih =>
    constructor
    · intro h
      obtain ⟨hlength, htiles, h⟩ := h
      cases items with
      | nil => simp at h
      | cons item items =>
        cases parts with
        | nil => simp at h
        | cons part parts =>
          rw [List.zip_cons_cons, List.forall₂_cons] at h
          obtain ⟨hcovers, hrest⟩ := h
          obtain ⟨start, stop⟩ := part
          obtain ⟨rfl, hle, htiles⟩ := htiles
          obtain rfl : span.start + child.tokens.length = stop :=
            congrArg Span.stop (span_eq_of_tokens ⟨hle, htiles.le.trans hspan.le_length⟩
              hcovers.tokens)
          obtain ⟨hfills, rfl⟩ := (ih ⟨htiles.le, hspan.le_length⟩).mp
            ⟨Nat.succ.inj hlength, htiles, hrest⟩
          exact ⟨(fills_cons_iff hspan).mpr ⟨htiles.le, hcovers, hfills⟩, rfl⟩
    · intro h
      obtain ⟨hfills, rfl⟩ := h
      obtain rfl := hfills.roots
      obtain ⟨hle, hcovers, hrest⟩ := (fills_cons_iff hspan).mp hfills
      have hwithin : (⟨span.start + child.tokens.length, span.stop⟩ : Span).Within input :=
        ⟨hle, hspan.le_length⟩
      obtain ⟨hlength, htiles, hforall⟩ := (ih hwithin).mpr ⟨hrest, rfl⟩
      exact ⟨congrArg Nat.succ hlength, ⟨rfl, Nat.le_add_right _ _, htiles⟩,
        .cons hcovers hforall⟩

theorem mem_candidates {pairs : List (Expr × Span)} (hspan : attempt.span.Within input) :
    pairs ∈ candidates g .allowed input attempt ↔ ∃ parts, parts ≠ [] ∧
      attempt.rule.rhs.items.length = parts.length ∧ attempt.span.Tiles parts ∧
      pairs = attempt.rule.rhs.items.zip parts ∧
      ∀ pair ∈ pairs, admits g input pair.1 pair.2 := by
  simp only [candidates, List.mem_filter, List.mem_map, List.all_eq_true,
    Span.mem_partitions hspan.le]
  constructor
  · intro h
    obtain ⟨⟨parts, ⟨hne, hlength, htiles, -⟩, rfl⟩, hadmits⟩ := h
    exact ⟨parts, hne, hlength.symm, htiles, rfl, hadmits⟩
  · intro h
    obtain ⟨parts, hne, hlength, htiles, rfl, hadmits⟩ := h
    exact ⟨⟨parts, ⟨hne, hlength.symm, htiles, by simp [Span.Admits]⟩, rfl⟩, hadmits⟩

/-- Children on the parts of a partition that the rule admits fill the span for the items of the
rule. They determine the partition. -/
theorem mem_candidates_and_combinations (hatom : ∀ item ∈ attempt.rule.rhs.items, item.isAtom)
    (hne : attempt.rule.rhs.items ≠ []) (hspan : attempt.span.Within input)
    (hderive : ∀ symbol part t, part.Within input → (t ∈ derive symbol part ↔
      Covers g input active (.nonterminal symbol) part t))
    (pairs : List (Expr × Span)) (children : List Tree) :
    pairs ∈ candidates g .allowed input attempt ∧ children ∈ combinations derive pairs ↔
      Fills g input active attempt.rule.rhs.items attempt.span children ∧
        pairs = attempt.rule.rhs.items.zip ((row attempt.span.start children).map Placed.span) := by
  have hgood {parts : List Span} (htiles : attempt.span.Tiles parts) :
      ∀ pair ∈ attempt.rule.rhs.items.zip parts, pair.2.Within input ∧ pair.1.isAtom :=
    fun pair hpair => ⟨htiles.within hspan _ (List.of_mem_zip hpair).2,
      hatom _ (List.of_mem_zip hpair).1⟩
  rw [mem_candidates hspan, mem_combinations]
  constructor
  · intro h
    obtain ⟨⟨parts, -, hlength, htiles, rfl, hadmits⟩, hoptions⟩ := h
    have hcovers := ((List.forall₂_and_left _ _).mpr ⟨hgood htiles,
      (List.forall₂_and_left _ _).mpr ⟨hadmits, hoptions⟩⟩).imp fun pair child h =>
        (mem_options_iff h.1.1 h.1.2 fun symbol => hderive symbol _ _ h.1.1).mp h.2
    obtain ⟨hfills, rfl⟩ := (forall₂_covers_iff hspan).mp ⟨hlength, htiles, hcovers⟩
    exact ⟨hfills, rfl⟩
  · intro h
    obtain ⟨hfills, rfl⟩ := h
    obtain ⟨hlength, htiles, hcovers⟩ := (forall₂_covers_iff hspan).mpr ⟨hfills, rfl⟩
    have hboth := ((List.forall₂_and_left _ _).mpr ⟨hgood htiles, hcovers⟩).imp fun pair child h =>
      (mem_options_iff h.1.1 h.1.2 fun symbol => hderive symbol _ _ h.1.1).mpr h.2
    obtain ⟨hadmits, hoptions⟩ := (List.forall₂_and_left _ _).mp hboth
    refine ⟨⟨_, fun hnil => hne ?_, hlength, htiles, rfl, hadmits⟩, hoptions⟩
    rw [hnil] at hlength
    exact List.eq_nil_of_length_eq_zero hlength

/-! ## One node -/

/-- The children of a node that makes an attempt fill the span for the items of the rule, and avoid
this attempt, too. -/
theorem covers_node_iff (hr : attempt.rule ∈ g.rules) (hspan : attempt.span.Within input) :
    Covers g input active (.nonterminal attempt.rule.lhs) attempt.span
          (.node attempt.rule.lhs children) ∧
        (⟨attempt.span.start, .node attempt.rule.lhs children⟩ : Placed).attempt? = some attempt ↔
      attempt ∉ active ∧
        Fills g input (attempt :: active) attempt.rule.rhs.items attempt.span children := by
  have hwf := g.wellFormed _ hr
  constructor
  · intro h
    obtain ⟨hcovers, hattempt⟩ := h
    obtain ⟨hne, -, hbelow⟩ := Tree.isDerivation_node_iff.mp hcovers.isDerivation
    obtain ⟨hnot, havoids⟩ := (Placed.avoids_iff hattempt).mp hcovers.avoids
    have hrule : Tree.ruleAt attempt.rule.lhs children = attempt.rule :=
      congrArg Attempt.rule (Option.some.inj hattempt)
    refine ⟨hnot, ?_, ?_, fun q hq => ⟨hbelow _ (Placed.mem_tree_of_mem_row hq), havoids q hq⟩⟩
    · rw [← Tree.items_ruleAt attempt.rule.lhs hne, hrule]
    · rw [← Tree.tokens_node attempt.rule.lhs, hcovers.tokens]
  · intro h
    obtain ⟨hnot, hroots, htokens, hall⟩ := h
    have hrule := Tree.ruleAt_eq_of_items hwf hroots.symm
    have hne : children ≠ [] := by
      rintro rfl
      exact hwf.items_ne_nil hroots.symm
    have hchildren : ∀ child ∈ children, child.IsDerivation g := by
      intro child hc
      obtain ⟨q, hq, rfl⟩ := Placed.exists_mem_row attempt.span.start hc
      exact (hall q hq).1
    have hderivation : Tree.IsDerivation g (.node attempt.rule.lhs children) :=
      Tree.isDerivation_node_iff.mpr ⟨hne, hrule.symm ▸ hr, hchildren⟩
    have hslice : (Tree.node attempt.rule.lhs children).tokens = attempt.span.slice input := by
      rw [Tree.tokens_node, htokens]
    have hattempt : (⟨attempt.span.start, .node attempt.rule.lhs children⟩ : Placed).attempt? =
        some attempt := by
      simp only [Placed.attempt?, span_eq_of_tokens hspan hslice, hrule]
    refine ⟨⟨hderivation, rfl, hslice, ?_⟩, hattempt⟩
    exact (Placed.avoids_iff hattempt).mpr ⟨hnot, fun q hq => (hall q hq).2⟩

/-! ## The whole search -/

/-- What is found for a nonterminal is what its rules lead to. -/
theorem mem_found_iff (symbol : Nonterminal) (hpart : part.Within input)
    (hfits : ∀ rule ∈ g.rules, (t ∈ fits g .allowed input depth active ⟨part, rule⟩ ↔
      Covers g input active (.nonterminal rule.lhs) part t ∧
        (⟨part.start, t⟩ : Placed).attempt? = some ⟨part, rule⟩)) :
    t ∈ found g .allowed input depth active symbol part ↔
      Covers g input active (.nonterminal symbol) part t := by
  rw [found, List.mem_flatMap]
  constructor
  · intro h
    obtain ⟨rule, hfor, ht⟩ := h
    obtain ⟨hrule, rfl⟩ := Grammar.mem_rulesFor.mp hfor
    exact ((hfits rule hrule).mp ht).1
  · intro h
    obtain ⟨children, rfl⟩ := h.isDerivation.exists_children h.root
    have hmem := (Tree.isDerivation_node_iff.mp h.isDerivation).2.1
    refine ⟨Tree.ruleAt symbol children, Grammar.mem_rulesFor.mpr ⟨hmem, rfl⟩,
      (hfits _ hmem).mpr ⟨h, ?_⟩⟩
    simp only [Placed.attempt?, span_eq_of_tokens hpart h.tokens]

theorem mem_fits (hfree : g.IsChoiceFree) (hroom : Room g input depth active)
    (hr : attempt.rule ∈ g.rules) (hspan : attempt.span.Within input) :
    t ∈ fits g .allowed input depth active attempt ↔
      Covers g input active (.nonterminal attempt.rule.lhs) attempt.span t ∧
        (⟨attempt.span.start, t⟩ : Placed).attempt? = some attempt := by
  induction depth generalizing active attempt t with
  | zero => exact absurd hroom not_room_zero
  | succ depth ih =>
    by_cases hactive : attempt ∈ active
    · simp only [fits_of_mem hactive, List.not_mem_nil, false_iff]
      intro h
      obtain ⟨hcovers, hattempt⟩ := h
      exact hcovers.avoids.notMem _ .refl attempt hattempt hactive
    have hroom := hroom.enter hactive (mem_attempts hr hspan)
    have hwf := g.wellFormed _ hr
    have hchildren := mem_candidates_and_combinations
      (fun _ => hwf.isAtom_of_mem_items (hfree _ hr)) hwf.items_ne_nil hspan
      fun symbol part t hpart => mem_found_iff (t := t) symbol hpart
        fun rule hrule => ih hroom hrule hpart
    rw [fits_of_notMem hactive]
    simp only [List.mem_map, List.mem_flatMap]
    constructor
    · intro h
      obtain ⟨children, ⟨pairs, hpairs⟩, rfl⟩ := h
      obtain ⟨hfills, -⟩ := (hchildren _ _).mp hpairs
      exact (covers_node_iff hr hspan).mpr ⟨hactive, hfills⟩
    · intro h
      obtain ⟨children, rfl⟩ := h.1.isDerivation.exists_children h.1.root
      obtain ⟨-, hfills⟩ := (covers_node_iff hr hspan).mp h
      exact ⟨children, ⟨_, (hchildren _ _).mpr ⟨hfills, rfl⟩⟩, rfl⟩

theorem mem_combinations_found (hfree : g.IsChoiceFree) (hroom : Room g input depth active)
    (hr : attempt.rule ∈ g.rules) (hspan : attempt.span.Within input)
    (pairs : List (Expr × Span)) (children : List Tree) :
    pairs ∈ candidates g .allowed input attempt ∧
        children ∈ combinations (found g .allowed input depth active) pairs ↔
      Fills g input active attempt.rule.rhs.items attempt.span children ∧
        pairs = attempt.rule.rhs.items.zip ((row attempt.span.start children).map Placed.span) :=
  have hwf := g.wellFormed _ hr
  mem_candidates_and_combinations (fun _ => hwf.isAtom_of_mem_items (hfree _ hr)) hwf.items_ne_nil
    hspan (fun symbol _ _ hpart => mem_found_iff symbol hpart fun _ hrule =>
      mem_fits hfree hroom hrule hpart) pairs children

/-! ## No tree twice -/

theorem nodup_candidates {emptyParts : EmptyParts} :
    (candidates g emptyParts input attempt).Nodup := by
  refine List.Nodup.filter _ (List.Nodup.map_on (fun parts hparts parts' hparts' heq => ?_)
    Span.nodup_partitions)
  have hlength {parts : List Span} (h : parts ∈ Span.partitions emptyParts
      attempt.rule.rhs.items.length attempt.span) :
      parts.length = attempt.rule.rhs.items.length := Span.length_of_mem_partitions h
  rw [← List.map_snd_zip (hlength hparts).le, heq, List.map_snd_zip (hlength hparts').le]

theorem nodup_combinations {pairs : List (Expr × Span)}
    (h : ∀ pair ∈ pairs, (options derive pair.1 pair.2).Nodup) :
    (combinations derive pairs).Nodup := by
  induction pairs with
  | nil => exact List.nodup_singleton _
  | cons pair pairs ih =>
    obtain ⟨hpair, hpairs⟩ := List.forall_mem_cons.mp h
    refine nodup_flatMap_of_injective hpair (fun child _ => ?_) fun child _ child' _ ts h h' => ?_
    · exact (ih hpairs).map fun _ _ heq => (List.cons.inj heq).2
    · obtain ⟨rest, -, rfl⟩ := List.mem_map.mp h
      obtain ⟨rest', -, heq⟩ := List.mem_map.mp h'
      exact (List.cons.inj heq).1.symm

/-- Different rules lead to different trees. -/
theorem nodup_found (hfree : g.IsChoiceFree) (hroom : Room g input depth active)
    (hpart : part.Within input)
    (hfits : ∀ rule ∈ g.rules, (fits g .allowed input depth active ⟨part, rule⟩).Nodup)
    (symbol : Nonterminal) : (found g .allowed input depth active symbol part).Nodup := by
  refine nodup_flatMap_of_injective (g.nodup.filter _) (fun rule hrule => ?_) ?_
  · exact hfits rule (Grammar.mem_rulesFor.mp hrule).1
  · intro rule hrule rule' hrule' t ht ht'
    obtain ⟨-, h⟩ := (mem_fits hfree hroom (Grammar.mem_rulesFor.mp hrule).1 hpart).mp ht
    obtain ⟨-, h'⟩ := (mem_fits hfree hroom (Grammar.mem_rulesFor.mp hrule').1 hpart).mp ht'
    exact congrArg Attempt.rule (Option.some.inj (h.symm.trans h'))

theorem nodup_fits (hfree : g.IsChoiceFree) (hroom : Room g input depth active)
    (hr : attempt.rule ∈ g.rules) (hspan : attempt.span.Within input) :
    (fits g .allowed input depth active attempt).Nodup := by
  induction depth generalizing active attempt with
  | zero => exact absurd hroom not_room_zero
  | succ depth ih =>
    by_cases hactive : attempt ∈ active
    · rw [fits_of_mem hactive]
      exact List.nodup_nil
    have hroom := hroom.enter hactive (mem_attempts hr hspan)
    have hchildren := mem_combinations_found hfree hroom hr hspan
    rw [fits_of_notMem hactive]
    refine List.Nodup.map (fun _ _ h => (Tree.node.inj h).2)
      (nodup_flatMap_of_injective nodup_candidates (fun pairs hpairs => ?_) ?_)
    · refine nodup_combinations fun pair hpair => ?_
      have hpart := within_of_mem_candidates hspan hpairs pair hpair
      cases pair.1 with
      | nonterminal symbol =>
        exact nodup_found hfree hroom hpart (fun rule hrule => ih hroom hrule hpart) symbol
      | terminal | empty => exact List.nodup_singleton _
      | seq | alt => exact List.nodup_nil
    · intro pairs hpairs pairs' hpairs' children h h'
      obtain ⟨-, heq⟩ := (hchildren pairs children).mp ⟨hpairs, h⟩
      obtain ⟨-, heq'⟩ := (hchildren pairs' children).mp ⟨hpairs', h'⟩
      exact heq.trans heq'.symm

end Unger

namespace Grammar

open Unger

variable {g : Grammar} {w : List Token} {t : Tree}

theorem ungerTrees_eq (emptyParts : EmptyParts) : g.ungerTrees emptyParts w =
    g.splitAlternatives.start?.elim [] fun start => found g.splitAlternatives emptyParts w
      (maxDepth g.splitAlternatives w) [] start ⟨0, w.length⟩ := by
  obtain ⟨cycles, hsearch⟩ := search_eq g.splitAlternatives emptyParts w
  rw [ungerTrees, hsearch, startRules]
  cases g.splitAlternatives.start? with
  | none => rfl
  | some start => rfl

theorem mem_ungerTrees_allowed : t ∈ g.ungerTrees .allowed w ↔
    t.IsParse g.splitAlternatives w ∧ ¬t.Repeats := by
  have hwithin : (⟨0, w.length⟩ : Span).Within w := ⟨Nat.zero_le _, le_rfl⟩
  rw [ungerTrees_eq]
  cases hstart : g.splitAlternatives.start? with
  | none =>
    simp only [Option.elim_none, List.not_mem_nil, false_iff]
    intro h
    obtain ⟨⟨-, ⟨start, h, -⟩, -⟩, -⟩ := h
    simp [hstart] at h
  | some start =>
    rw [Option.elim_some, mem_found_iff start hwithin fun rule hrule =>
      mem_fits splitAlternatives_isChoiceFree room_maxDepth hrule hwithin]
    constructor
    · intro h
      obtain ⟨ht, hroot, htokens, havoids⟩ := h
      exact ⟨⟨ht, ⟨start, hstart, hroot⟩, htokens.trans Span.slice_whole⟩,
        Placed.avoids_nil.mp havoids⟩
    · intro h
      obtain ⟨⟨ht, ⟨start', hstart', hroot⟩, htokens⟩, hrepeats⟩ := h
      obtain rfl := Option.some.inj (hstart.symm.trans hstart')
      exact ⟨ht, hroot, htokens.trans Span.slice_whole.symm, Placed.avoids_nil.mpr hrepeats⟩

theorem nodup_ungerTrees_allowed : (g.ungerTrees .allowed w).Nodup := by
  have hwithin : (⟨0, w.length⟩ : Span).Within w := ⟨Nat.zero_le _, le_rfl⟩
  rw [ungerTrees_eq]
  cases g.splitAlternatives.start? with
  | none => exact List.nodup_nil
  | some start =>
    refine nodup_found splitAlternatives_isChoiceFree room_maxDepth hwithin (fun rule hrule => ?_)
      start
    exact nodup_fits splitAlternatives_isChoiceFree room_maxDepth hrule hwithin

/-- Some tree is found for everything that the grammar generates: one without repetitions. -/
theorem ungerTrees_allowed_ne_nil_iff : g.ungerTrees .allowed w ≠ [] ↔ g.Generates w := by
  rw [← preserves_splitAlternatives.generates_iff,
    ← Tree.exists_isParse_iff splitAlternatives_isChoiceFree]
  constructor
  · intro hne
    obtain ⟨t, ht⟩ := List.exists_mem_of_ne_nil _ hne
    exact ⟨t, (mem_ungerTrees_allowed.mp ht).1⟩
  · intro h
    obtain ⟨t, ht, ⟨start, hstart, hroot⟩, htokens⟩ := h
    obtain ⟨t', ht', hroot', htokens', hrepeats⟩ := Tree.exists_not_repeats ht
    exact List.ne_nil_of_mem (mem_ungerTrees_allowed.mpr
      ⟨⟨ht', ⟨start, hstart, hroot'.trans hroot⟩, htokens'.trans htokens⟩, hrepeats⟩)

/-- The search ends. It finds every tree that repeats no attempt, once, and no others. -/
theorem ungerTrees_allowed_spec (g : Grammar) (w : List Token) :
    (search g.splitAlternatives .allowed w).map Prod.fst = some (g.ungerTrees .allowed w) ∧
      (g.ungerTrees .allowed w).Nodup ∧
      (∀ t, t ∈ g.ungerTrees .allowed w ↔ t.IsParse g.splitAlternatives w ∧ ¬t.Repeats) ∧
      (∀ t ∈ g.ungerTrees .allowed w, t.tokens = w) ∧
      ((∀ t : Tree, t.IsParse g.splitAlternatives w → ¬t.Repeats) →
        ∀ t : Tree, t.IsParse g.splitAlternatives w → t ∈ g.ungerTrees .allowed w) := by
  refine ⟨?_, nodup_ungerTrees_allowed, fun t => mem_ungerTrees_allowed, fun t ht => ?_,
    fun h t ht => ?_⟩
  · obtain ⟨cycles, hsearch⟩ := search_eq g.splitAlternatives .allowed w
    rw [ungerTrees, hsearch]
    rfl
  · exact (mem_ungerTrees_allowed.mp ht).1.tokens
  · exact mem_ungerTrees_allowed.mpr ⟨ht, h t ht⟩

end Grammar

end ContextFree
