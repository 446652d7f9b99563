import Tilework.Proofs.Assembly
import Tilework.Proofs.Trimming

/-!
# The declarations of an assembly

Merging joins the declaration blocks of its parts by newlines and leaves blank ones out. However its
operators nest, an assembly with an operator has the blocks of its leaves that are not blank, in the
order of the leaves. A lone leaf keeps its block as it was loaded.
-/

namespace Tilework

/-- The blocks that are not blank, one after another. -/
def joinedDeclarations (blocks : List String) : String :=
  "\n".intercalate (blocks.filter fun block => Text.trim block.toList ≠ [])

theorem joinedDeclarations_eq_empty {blocks : List String}
    (h : blocks.filter (fun block => Text.trim block.toList ≠ []) = []) :
    joinedDeclarations blocks = "" := by
  rw [joinedDeclarations, h, String.intercalate_nil]

theorem trim_joinedDeclarations_ne_nil {blocks : List String}
    (h : blocks.filter (fun block => Text.trim block.toList ≠ []) ≠ []) :
    Text.trim (joinedDeclarations blocks).toList ≠ [] := by
  obtain ⟨block, rest, hblocks⟩ := List.exists_cons_of_ne_nil h
  have hmem : block ∈ blocks.filter fun block => Text.trim block.toList ≠ [] := by
    rw [hblocks]
    exact List.mem_cons_self
  have hblock : Text.trim block.toList ≠ [] := by simpa using (List.mem_filter.mp hmem).2
  rw [joinedDeclarations, hblocks]
  cases rest with
  | nil => rwa [String.intercalate_singleton]
  | cons next rest =>
    rw [String.intercalate_cons_cons, String.append_assoc, String.toList_append]
    exact Text.trim_append_ne_nil hblock

theorem joinDeclarations_joinedDeclarations (blocks blocks' : List String) :
    joinDeclarations (joinedDeclarations blocks) (joinedDeclarations blocks') =
      joinedDeclarations (blocks ++ blocks') := by
  by_cases h' : blocks'.filter (fun block => Text.trim block.toList ≠ []) = []
  · rw [joinDeclarations, joinedDeclarations_eq_empty h', if_pos (by rfl), joinedDeclarations,
      joinedDeclarations, List.filter_append, h', List.append_nil]
  · rw [joinDeclarations, if_neg (trim_joinedDeclarations_ne_nil h')]
    by_cases h : blocks.filter (fun block => Text.trim block.toList ≠ []) = []
    · rw [joinedDeclarations_eq_empty h, if_pos rfl, joinedDeclarations, joinedDeclarations,
        List.filter_append, h, List.nil_append]
    · have hne : joinedDeclarations blocks ≠ "" := by
        intro hempty
        have hblank := trim_joinedDeclarations_ne_nil h
        rw [hempty] at hblank
        exact hblank rfl
      rw [if_neg hne, joinedDeclarations, joinedDeclarations, joinedDeclarations,
        List.filter_append, String.intercalate_append_of_ne_nil h h']

theorem joinDeclarations_singleton (first block : String) :
    joinDeclarations first block = joinDeclarations first (joinedDeclarations [block]) := by
  by_cases h : Text.trim block.toList = []
  · rw [joinDeclarations, if_pos h, joinDeclarations, joinedDeclarations_eq_empty (by simp [h]),
      if_pos (by rfl)]
  · simp [joinedDeclarations, h]

namespace Expression

/-- The declarations of a lone leaf are kept as they are, blank or not. -/
def declaration : Assembly → String
  | leaf i => i.tile.declaration
  | assembly => joinedDeclarations (assembly.leaves.map (·.tile.declaration))

variable {assembly : Assembly} {op : Operator} {parts : List Assembly} {tile : Tile}

theorem declaration_of_operators (h : assembly.operators ≠ []) :
    assembly.declaration = joinedDeclarations (assembly.leaves.map (·.tile.declaration)) := by
  cases assembly with
  | leaf i => exact absurd rfl h
  | sizeMatched left right => rfl
  | singleEdge left right => rfl
  | fanOut root first second => rfl

theorem joinDeclarations_declaration (first : String) (assembly : Assembly) :
    joinDeclarations first assembly.declaration =
      joinDeclarations first (joinedDeclarations (assembly.leaves.map (·.tile.declaration))) := by
  cases assembly with
  | leaf i => exact joinDeclarations_singleton first _
  | sizeMatched left right => rfl
  | singleEdge left right => rfl
  | fanOut root first second => rfl

theorem foldl_joinDeclarations (parts : List Assembly) (blocks : List String) :
    (parts.map declaration).foldl joinDeclarations (joinedDeclarations blocks) =
      joinedDeclarations (blocks ++ (parts.flatMap leaves).map (·.tile.declaration)) := by
  induction parts generalizing blocks with
  | nil => simp
  | cons part parts ih =>
    rw [List.map_cons, List.foldl_cons, joinDeclarations_declaration,
      joinDeclarations_joinedDeclarations, ih, List.flatMap_cons, List.map_append,
      List.append_assoc]

theorem declaration_assemble (h : assembly.assemble = some tile) :
    tile.declaration = assembly.declaration := by
  induction h using assemble_induction with
  | leaf i => rfl
  | node assembly op parts tiles h hnode hparts hplanned ih =>
    have hdeclarations : tiles.map (·.declaration) = parts.map declaration := by
      rw [List.map_eq_flatMap, List.map_eq_flatMap]
      apply hparts.flatMap_eq
      intro part hp t ht
      rw [ih part hp t ht]
    have habsorb : (op.absorbAll tiles).declaration =
        (tiles.map (·.declaration)).foldl joinDeclarations "" := by
      rw [Operator.absorbAll, List.foldl_map]
      exact (List.foldl_hom Tile.declaration fun _ _ => rfl).symm
    have hne : assembly.operators ≠ [] := by simp [operators_node hnode]
    rw [Operator.merge, Tile.declaration_foldl_join, habsorb, hdeclarations,
      declaration_of_operators hne, leaves_node hnode]
    exact foldl_joinDeclarations parts []

end Expression

end Tilework
