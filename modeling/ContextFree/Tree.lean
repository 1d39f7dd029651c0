import ContextFree.Expr.Basic

/-!
# Derivation trees

Inner nodes are labelled with nonterminals. Leaves are tokens or the empty string, which is not the
same as a token spelled like it.
-/

namespace ContextFree

/-- A derivation tree. -/
inductive Tree where
  | leaf (token : Token)
  | epsilon
  | node (symbol : Nonterminal) (children : List Tree)

namespace Tree

/-- Induction that reaches the children of a node through membership. -/
@[elab_as_elim, induction_eliminator]
theorem induction {motive : Tree → Prop} (leaf : ∀ token, motive (.leaf token))
    (epsilon : motive .epsilon)
    (node : ∀ symbol children, (∀ child ∈ children, motive child) → motive (.node symbol children))
    (t : Tree) : motive t :=
  t.rec (motive_2 := fun children => ∀ child ∈ children, motive child) leaf epsilon node
    (by simp) (by simp +contextual)

/-! ## Equality -/

mutual

/-- Decides whether two trees are the same. -/
def decEq (s t : Tree) : Decidable (s = t) :=
  match s, t with
  | .leaf a, .leaf b => decidable_of_iff (a = b) (by simp)
  | .epsilon, .epsilon => .isTrue rfl
  | .node a ss, .node b ts =>
    if h : a = b then match decEqAll ss ts with
      | .isTrue hs => .isTrue (by rw [h, hs])
      | .isFalse hs => .isFalse (by simp [hs])
    else .isFalse (by simp [h])
  | .leaf _, .epsilon | .leaf _, .node _ _ | .epsilon, .leaf _ | .epsilon, .node _ _
  | .node _ _, .leaf _ | .node _ _, .epsilon => .isFalse (by simp)

/-- Decides whether two lists hold the same trees in the same order. -/
def decEqAll (ss ts : List Tree) : Decidable (ss = ts) :=
  match ss, ts with
  | [], [] => .isTrue rfl
  | [], _ :: _ | _ :: _, [] => .isFalse (by simp)
  | s :: ss, t :: ts => match decEq s t with
    | .isFalse h => .isFalse (by simp [h])
    | .isTrue h => match decEqAll ss ts with
      | .isTrue hs => .isTrue (by rw [h, hs])
      | .isFalse hs => .isFalse (by simp [hs])

end

instance : DecidableEq Tree := decEq

/-! ## Folding -/

mutual

/-- Evaluates a tree from the leaves up. -/
def fold {β : Type} (leaf : Token → β) (epsilon : β) (node : Nonterminal → List β → β) : Tree → β
  | .leaf token => leaf token
  | .epsilon => epsilon
  | .node symbol children => node symbol (foldAll leaf epsilon node children)

/-- Evaluates every tree of a list. -/
def foldAll {β : Type} (leaf : Token → β) (epsilon : β) (node : Nonterminal → List β → β) :
    List Tree → List β
  | [] => []
  | t :: ts => fold leaf epsilon node t :: foldAll leaf epsilon node ts

end

section

variable {β : Type} {leaf : Token → β} {epsilon : β} {node : Nonterminal → List β → β}

theorem foldAll_eq_map (ts : List Tree) :
    foldAll leaf epsilon node ts = ts.map (fold leaf epsilon node) := by
  induction ts with
  | nil => rfl
  | cons t ts ih => rw [foldAll, ih, List.map_cons]

theorem fold_node (symbol : Nonterminal) (children : List Tree) :
    fold leaf epsilon node (.node symbol children) =
      node symbol (children.map (fold leaf epsilon node)) := by
  rw [fold, foldAll_eq_map]

end

/-! ## Reading trees -/

/-- The text of the root. -/
def label : Tree → String
  | .leaf token => token
  | .epsilon => Expr.emptyMark
  | .node symbol _ => symbol.name

/-- The trees below an inner node. -/
def children? : Tree → Option (List Tree)
  | .node _ children => some children
  | _ => none

def isLeaf (t : Tree) : Bool :=
  t.children?.isNone

def isEpsilon : Tree → Bool
  | .epsilon => true
  | _ => false

/-- The tokens at the leaves from left to right. -/
def tokens : Tree → List Token :=
  fold (fun token => [token]) [] fun _ => List.flatten

@[simp] theorem tokens_leaf (token : Token) : tokens (.leaf token) = [token] := rfl

@[simp] theorem tokens_epsilon : tokens .epsilon = [] := rfl

@[simp] theorem tokens_node (symbol : Nonterminal) (children : List Tree) :
    tokens (.node symbol children) = children.flatMap tokens := by
  rw [tokens, fold_node, List.flatMap_def]

/-- The lines of the written form, in which children are indented by two blanks. -/
def lines : Tree → List String :=
  fold (fun token => [token]) [Expr.emptyMark] fun symbol children =>
    ("<" ++ symbol.name ++ ">") :: children.flatten.map ("  " ++ ·)

/-- The written form of a tree, with a line break at the end. -/
def text (t : Tree) : String :=
  String.join (t.lines.map (· ++ "\n"))

end Tree

end ContextFree
