import Tilework.Token.Basic

/-!
# Expression trees

An expression tree joins its leaves by operators, and every operator has as many parts as it takes.
Leaves are listed from left to right, as they stand in the text.
-/

namespace Tilework

inductive Expression (α : Type) where
  | leaf (a : α)
  | sizeMatched (left right : Expression α)
  | singleEdge (left right : Expression α)
  | fanOut (root first second : Expression α)
deriving DecidableEq, Repr

namespace Expression

variable {α β : Type}

def leaves : Expression α → List α
  | leaf a => [a]
  | sizeMatched left right => left.leaves ++ right.leaves
  | singleEdge left right => left.leaves ++ right.leaves
  | fanOut root first second => root.leaves ++ first.leaves ++ second.leaves

def operators : Expression α → List Operator
  | leaf _ => []
  | sizeMatched left right => left.operators ++ right.operators ++ [.sizeMatched]
  | singleEdge left right => left.operators ++ right.operators ++ [.singleEdge]
  | fanOut root first second => root.operators ++ first.operators ++ second.operators ++ [.fanOut]

def map (f : α → β) : Expression α → Expression β
  | leaf a => leaf (f a)
  | sizeMatched left right => sizeMatched (left.map f) (right.map f)
  | singleEdge left right => singleEdge (left.map f) (right.map f)
  | fanOut root first second => fanOut (root.map f) (first.map f) (second.map f)

def node? : Expression α → Option (Operator × List (Expression α))
  | leaf _ => none
  | sizeMatched left right => some (.sizeMatched, [left, right])
  | singleEdge left right => some (.singleEdge, [left, right])
  | fanOut root first second => some (.fanOut, [root, first, second])

variable {tree : Expression α} {op : Operator} {parts : List (Expression α)}

theorem length_parts (h : tree.node? = some (op, parts)) : parts.length = op.arity := by
  cases tree <;> cases h <;> rfl

theorem exists_parts (h : tree.node? = some (op, parts)) :
    ∃ first second others, parts = first :: second :: others := by
  cases tree <;> cases h <;> exact ⟨_, _, _, rfl⟩

theorem exists_node (h : parts.length = op.arity) : ∃ tree, node? tree = some (op, parts) := by
  match op, parts, h with
  | .sizeMatched, [left, right], _ => exact ⟨sizeMatched left right, rfl⟩
  | .singleEdge, [left, right], _ => exact ⟨singleEdge left right, rfl⟩
  | .fanOut, [root, first, second], _ => exact ⟨fanOut root first second, rfl⟩

theorem leaves_node (h : tree.node? = some (op, parts)) :
    tree.leaves = parts.flatMap leaves := by
  cases tree <;> cases h <;> simp [leaves]

theorem operators_node (h : tree.node? = some (op, parts)) :
    tree.operators = parts.flatMap operators ++ [op] := by
  cases tree <;> cases h <;> simp [operators]

theorem exists_leaf (h : tree.operators = []) : ∃ a, tree = leaf a := by
  cases tree with
  | leaf a => exact ⟨a, rfl⟩
  | sizeMatched left right => simp [operators] at h
  | singleEdge left right => simp [operators] at h
  | fanOut root first second => simp [operators] at h

@[simp] theorem leaves_map (f : α → β) (tree : Expression α) :
    (tree.map f).leaves = tree.leaves.map f := by
  induction tree with
  | leaf a => rfl
  | sizeMatched left right ihl ihr => simp [map, leaves, ihl, ihr]
  | singleEdge left right ihl ihr => simp [map, leaves, ihl, ihr]
  | fanOut root first second ihr ihf ihs => simp [map, leaves, ihr, ihf, ihs]

theorem node?_map (f : α → β) (h : tree.node? = some (op, parts)) :
    (tree.map f).node? = some (op, parts.map (map f)) := by
  cases tree <;> cases h <;> rfl

theorem map_id (tree : Expression α) : (tree.map fun a => a) = tree := by
  induction tree with
  | leaf a => rfl
  | sizeMatched left right ihl ihr => simp [map, ihl, ihr]
  | singleEdge left right ihl ihr => simp [map, ihl, ihr]
  | fanOut root first second ihr ihf ihs => simp [map, ihr, ihf, ihs]

theorem map_map {γ : Type} (f : α → β) (g : β → γ) (tree : Expression α) :
    (tree.map f).map g = tree.map (g ∘ f) := by
  induction tree with
  | leaf a => rfl
  | sizeMatched left right ihl ihr => simp [map, ihl, ihr]
  | singleEdge left right ihl ihr => simp [map, ihl, ihr]
  | fanOut root first second ihr ihf ihs => simp [map, ihr, ihf, ihs]

/-- Induction over trees with one case for all operators. -/
theorem induction_node {motive : Expression α → Prop} (leaf : ∀ a, motive (leaf a))
    (node : ∀ tree op parts, tree.node? = some (op, parts) → (∀ part ∈ parts, motive part) →
      motive tree) (tree : Expression α) : motive tree := by
  induction tree with
  | leaf a => exact leaf a
  | sizeMatched left right ihl ihr => exact node _ _ _ rfl (by simp [ihl, ihr])
  | singleEdge left right ihl ihr => exact node _ _ _ rfl (by simp [ihl, ihr])
  | fanOut root first second ihr ihf ihs => exact node _ _ _ rfl (by simp [ihr, ihf, ihs])

end Expression

end Tilework
