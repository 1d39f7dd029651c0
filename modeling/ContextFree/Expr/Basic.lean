/-!
# Right-hand sides

A right-hand side is a tree of sequences and choices over three kinds of atoms: terminals,
nonterminals and the empty string. This file holds the tree, its fold, what can be asked of it, and
its written form: items are separated by blanks and alternatives by bars, and nothing is quoted or
bracketed.
-/

namespace ContextFree

/-- One unit of input, known by its spelling. -/
abbrev Token := String

/-- A nonterminal symbol. Two of them are the same when their names are. -/
@[ext] structure Nonterminal where
  name : String
deriving DecidableEq, Hashable

/-- The right-hand side of a rule. -/
inductive Expr where
  | terminal (token : Token)
  | nonterminal (symbol : Nonterminal)
  | empty
  | seq (items : List Expr)
  | alt (alternatives : List Expr)

namespace Expr

/-- Induction that reaches the items of sequences and choices through membership. -/
@[elab_as_elim, induction_eliminator]
theorem induction {motive : Expr → Prop} (terminal : ∀ token, motive (.terminal token))
    (nonterminal : ∀ symbol, motive (.nonterminal symbol)) (empty : motive .empty)
    (seq : ∀ items, (∀ item ∈ items, motive item) → motive (.seq items))
    (alt : ∀ alternatives, (∀ item ∈ alternatives, motive item) → motive (.alt alternatives))
    (e : Expr) : motive e :=
  e.rec (motive_2 := fun items => ∀ item ∈ items, motive item) terminal nonterminal empty seq alt
    (by simp) (by simp +contextual)

/-! ## Equality -/

mutual

/-- Decides whether two expressions are the same tree. -/
def decEq (a b : Expr) : Decidable (a = b) :=
  match a, b with
  | .terminal s, .terminal t => decidable_of_iff (s = t) (by simp)
  | .nonterminal s, .nonterminal t => decidable_of_iff (s = t) (by simp)
  | .empty, .empty => .isTrue rfl
  | .seq as, .seq bs => match decEqAll as bs with
    | .isTrue h => .isTrue (by rw [h])
    | .isFalse h => .isFalse (by simpa using h)
  | .alt as, .alt bs => match decEqAll as bs with
    | .isTrue h => .isTrue (by rw [h])
    | .isFalse h => .isFalse (by simpa using h)
  | .terminal _, .nonterminal _ | .terminal _, .empty | .terminal _, .seq _ | .terminal _, .alt _
  | .nonterminal _, .terminal _ | .nonterminal _, .empty | .nonterminal _, .seq _
  | .nonterminal _, .alt _ | .empty, .terminal _ | .empty, .nonterminal _ | .empty, .seq _
  | .empty, .alt _ | .seq _, .terminal _ | .seq _, .nonterminal _ | .seq _, .empty
  | .seq _, .alt _ | .alt _, .terminal _ | .alt _, .nonterminal _ | .alt _, .empty
  | .alt _, .seq _ => .isFalse (by simp)

/-- Decides whether two lists hold the same trees in the same order. -/
def decEqAll (as bs : List Expr) : Decidable (as = bs) :=
  match as, bs with
  | [], [] => .isTrue rfl
  | [], _ :: _ | _ :: _, [] => .isFalse (by simp)
  | a :: as, b :: bs => match decEq a b with
    | .isFalse h => .isFalse (by simp [h])
    | .isTrue h => match decEqAll as bs with
      | .isTrue hs => .isTrue (by rw [h, hs])
      | .isFalse hs => .isFalse (by simp [hs])

end

instance : DecidableEq Expr := decEq

/-! ## Folding -/

mutual

/-- Evaluates an expression from the leaves up. -/
def fold {β : Type} (atom : Expr → β) (seq alt : List β → β) : Expr → β
  | .seq items => seq (foldAll atom seq alt items)
  | .alt alternatives => alt (foldAll atom seq alt alternatives)
  | e => atom e

/-- Evaluates every expression of a list. -/
def foldAll {β : Type} (atom : Expr → β) (seq alt : List β → β) : List Expr → List β
  | [] => []
  | e :: es => fold atom seq alt e :: foldAll atom seq alt es

end

section

variable {β : Type} {atom : Expr → β} {seq alt : List β → β}

theorem foldAll_eq_map (es : List Expr) :
    foldAll atom seq alt es = es.map (fold atom seq alt) := by
  induction es with
  | nil => rfl
  | cons e es ih => rw [foldAll, ih, List.map_cons]

theorem fold_seq (items : List Expr) :
    fold atom seq alt (.seq items) = seq (items.map (fold atom seq alt)) := by
  rw [fold, foldAll_eq_map]

theorem fold_alt (alternatives : List Expr) :
    fold atom seq alt (.alt alternatives) = alt (alternatives.map (fold atom seq alt)) := by
  rw [fold, foldAll_eq_map]

end

/-! ## Shape -/

/-- Terminals, nonterminals and the empty string have no parts. -/
def isAtom : Expr → Bool
  | .terminal _ | .nonterminal _ | .empty => true
  | .seq _ | .alt _ => false

def isSeq : Expr → Bool
  | .seq _ => true
  | _ => false

def isAlt : Expr → Bool
  | .alt _ => true
  | _ => false

/-- The token of a terminal. -/
def terminal? : Expr → Option Token
  | .terminal token => some token
  | _ => none

/-- The symbol of a nonterminal. -/
def nonterminal? : Expr → Option Nonterminal
  | .nonterminal symbol => some symbol
  | _ => none

/-- The consecutive parts of an expression; whatever is not a sequence is its own only part. -/
def items : Expr → List Expr
  | .seq items => items
  | e => [e]

@[simp] theorem terminal?_eq_some_iff {e : Expr} {token : Token} :
    e.terminal? = some token ↔ e = .terminal token := by
  cases e <;> simp [terminal?]

@[simp] theorem nonterminal?_eq_some_iff {e : Expr} {symbol : Nonterminal} :
    e.nonterminal? = some symbol ↔ e = .nonterminal symbol := by
  cases e <;> simp [nonterminal?]

/-! ## Atoms -/

/-- The atoms of an expression from left to right. -/
def atoms : Expr → List Expr :=
  fold (fun atom => [atom]) List.flatten List.flatten

@[simp] theorem atoms_terminal (token : Token) : atoms (.terminal token) = [.terminal token] := rfl

@[simp] theorem atoms_nonterminal (symbol : Nonterminal) :
    atoms (.nonterminal symbol) = [.nonterminal symbol] := rfl

@[simp] theorem atoms_empty : atoms .empty = [.empty] := rfl

@[simp] theorem atoms_seq (items : List Expr) : atoms (.seq items) = items.flatMap atoms := by
  rw [atoms, fold_seq, List.flatMap_def]

@[simp] theorem atoms_alt (alternatives : List Expr) :
    atoms (.alt alternatives) = alternatives.flatMap atoms := by
  rw [atoms, fold_alt, List.flatMap_def]

theorem isAtom_of_mem_atoms {e a : Expr} (h : a ∈ e.atoms) : a.isAtom := by
  induction e with
  | terminal | nonterminal | empty => simp_all [isAtom]
  | seq _ ih | alt _ ih =>
    simp only [atoms_seq, atoms_alt, List.mem_flatMap] at h
    obtain ⟨item, hi, ha⟩ := h
    exact ih item hi ha

/-- Whether `atom` is one of the atoms of `e`. No compound expression is. -/
def mentions (e atom : Expr) : Bool :=
  e.atoms.contains atom

@[simp] theorem mentions_iff {e atom : Expr} : e.mentions atom ↔ atom ∈ e.atoms := by
  simp [mentions]

/-- The nonterminals of an expression from left to right, with repetitions. -/
def nonterminals (e : Expr) : List Nonterminal :=
  e.atoms.filterMap nonterminal?

/-- The tokens that an expression spells out from left to right, with repetitions. -/
def tokens (e : Expr) : List Token :=
  e.atoms.filterMap terminal?

theorem mem_nonterminals {e : Expr} {symbol : Nonterminal} :
    symbol ∈ e.nonterminals ↔ .nonterminal symbol ∈ e.atoms := by
  simp [nonterminals]

theorem mem_tokens {e : Expr} {token : Token} : token ∈ e.tokens ↔ .terminal token ∈ e.atoms := by
  simp [tokens]

/-! ## Written form -/

/-- How the empty string is written. -/
def emptyMark : String := "ε"

/-- The spelling of an atom. -/
def atomText : Expr → String
  | .terminal token => token
  | .nonterminal symbol => symbol.name
  | _ => emptyMark

/-- The written form of an expression. -/
def text : Expr → String :=
  fold atomText (String.intercalate " ") (String.intercalate " | ")

@[simp] theorem text_terminal (token : Token) : text (.terminal token) = token := rfl

@[simp] theorem text_nonterminal (symbol : Nonterminal) :
    text (.nonterminal symbol) = symbol.name := rfl

@[simp] theorem text_empty : text .empty = emptyMark := rfl

@[simp] theorem text_seq (items : List Expr) :
    text (.seq items) = String.intercalate " " (items.map text) := fold_seq items

@[simp] theorem text_alt (alternatives : List Expr) :
    text (.alt alternatives) = String.intercalate " | " (alternatives.map text) :=
  fold_alt alternatives

end Expr

end ContextFree
