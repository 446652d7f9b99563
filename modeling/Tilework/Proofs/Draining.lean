import Tilework.Proofs.Diagnosis

/-!
# Draining a frame

An operator leaves one tile where it has taken as many as its arity says. So whether the operators
of a frame find enough tiles does not depend on their order: it is enough that the frame holds one
tile more than they take away together. Then they leave all tiles but the latest ones as they were.
With fewer tiles, the operators run out of them unless one of them fails before.
-/

namespace Tilework

/-- The fault lies in the tiles of an operator: their boundaries do not fit it, or a label of theirs
cannot be read. -/
def ComposeFault.OfOperands : ComposeFault → Prop
  | mismatch _ _ | label _ => True
  | underflow _ _ | empty | source _ | malformed _ _ => False

theorem Operator.ofOperands_of_apply {op : Operator} {tiles : List Tile} {fault : ComposeFault}
    {tracker tracker' : BoundTracker} (hlength : tiles.length = op.arity)
    (h : op.apply tiles tracker = (.error fault, tracker')) : fault.OfOperands := by
  rw [apply] at h
  split at h
  · next hnone => exact absurd hlength ((op.joints?_eq_none_iff tiles).mp hnone)
  · cases h
    trivial
  · rcases hadd : tracker.addAll (tiles.filterMap (·.parameterBounds)) with ⟨cause | u, fed⟩
    · obtain ⟨label, rfl⟩ := BoundTracker.addAll_eq_error hadd
      rw [hadd] at h
      cases h
      trivial
    · rw [hadd] at h
      cases h

namespace Frame

variable {ops : List Operator} {frame left : Frame} {tracker tracker' : BoundTracker}

theorem tail_applyAll (h : applyAll ops frame tracker = (.ok (), left, tracker')) :
    left.operands.tail = frame.operands.drop (1 + reduction ops) := by
  induction ops generalizing frame tracker with
  | nil =>
    cases h
    exact List.drop_one.symm
  | cons op ops ih =>
    obtain ⟨-, tile, middle, -, h⟩ := applyAll_cons_eq_ok h
    have harity := op.two_le_arity
    have hcount : 1 + reduction (op :: ops) = op.arity + reduction ops := by
      rw [reduction_cons]
      omega
    -- the tile that the operator leaves is on top, so it is the first one to go
    have hbelow : left.operands.tail = (frame.operands.drop op.arity).drop (reduction ops) := by
      rw [ih h, Nat.add_comm 1]
      rfl
    rw [hbelow, hcount, List.drop_drop]

theorem applyAll_eq_error {fault : ComposeFault}
    (h : applyAll ops frame tracker = (.error fault, left, tracker')) :
    fault.OfOperands ∨ frame.operands.length < 1 + reduction ops ∧
      ∃ op ∈ ops, ∃ available, available < op.arity ∧ fault = .underflow op available := by
  induction ops generalizing frame tracker with
  | nil => cases h
  | cons op ops ih =>
    have harity := op.two_le_arity
    rw [applyAll] at h
    rw [reduction_cons]
    split at h
    · next hfew =>
      cases h
      exact Or.inr ⟨by omega, op, List.mem_cons_self, _, hfew, rfl⟩
    next henough =>
    split at h
    · next tile middle happly =>
      refine (ih h).imp_right ?_
      rintro ⟨hfew, other, hother, hunderflow⟩
      simp only [pushTile, List.length_cons, List.length_drop] at hfew
      exact ⟨by omega, other, List.mem_cons_of_mem op hother, hunderflow⟩
    · next cause middle happly =>
      have hlength : (frame.operands.take op.arity).reverse.length = op.arity := by
        rw [List.length_reverse, List.length_take]
        omega
      cases h
      exact Or.inl (Operator.ofOperands_of_apply hlength happly)

theorem operands_ne_nil_of_drain (hwaits : frame.operators ≠ [])
    (h : frame.drain tracker = (.ok (), left, tracker')) : frame.operands ≠ [] := by
  obtain ⟨op, ops, hops⟩ := List.exists_cons_of_ne_nil hwaits
  rw [drain, hops] at h
  obtain ⟨hlength, -⟩ := applyAll_cons_eq_ok h
  have harity := op.two_le_arity
  exact List.ne_nil_of_length_pos (by omega)

/-- A frame in which operators wait is drained only if it holds one tile more than they take away.
It keeps the tiles below the latest one then. A frame that holds as many tiles fails for what is in
them only, and one that holds fewer fails by an operator that lacks tiles if by nothing else. -/
theorem drain_balance (frame : Frame) (hwaits : frame.operators ≠ []) (tracker : BoundTracker) :
    match frame.drain tracker with
    | (.ok (), left, _) =>
      1 + reduction frame.operators ≤ frame.operands.length ∧ left.operators = [] ∧
        left.operands.length = frame.operands.length - reduction frame.operators ∧
        left.operands.tail = frame.operands.drop (1 + reduction frame.operators)
    | (.error fault, _) =>
      fault.OfOperands ∨ frame.operands.length < 1 + reduction frame.operators ∧
        ∃ op ∈ frame.operators, ∃ available, available < op.arity ∧
          fault = .underflow op available := by
  rcases hdrain : frame.drain tracker with ⟨fault | u, left, fed⟩
  · exact applyAll_eq_error hdrain
  · obtain ⟨hcount, hnil, hdrained, -⟩ := length_applyAll hdrain
    have hsome : left.operands ≠ [] :=
      fun hnone => operands_ne_nil_of_drain hwaits hdrain (hnil.mp hnone)
    have hpos := List.length_pos_of_ne_nil hsome
    exact ⟨by omega, hdrained, by omega, tail_applyAll hdrain⟩

def chainTile (id : String) : Tile where
  name := id
  locations := [{ id := id ++ "<", role := some .entry }, { id := id ++ ">", role := some .exit }]

/-- Four tiles, of which the operators take away all but two. -/
def chainFrame : Frame where
  operands := ["d", "c", "b", "a"].map chainTile
  operators := [.sizeMatched, .singleEdge]

/-- An operator that was there before the others lacks a tile when its turn comes. -/
def shortFrame : Frame := { chainFrame with operators := chainFrame.operators ++ [.fanOut] }

theorem drain_balance_chain :
    (chainFrame.operators ≠ [] ∧ shortFrame.operators ≠ []) ∧
      (∃ left after, chainFrame.drain {} = (.ok (), left, after) ∧ left.operators = [] ∧
        left.operands.length = 2 ∧ left.operands.tail = [chainTile "a"]) ∧
      ∃ op ∈ shortFrame.operators, ∃ available, available < op.arity ∧
        (shortFrame.drain {}).1 = .error (.underflow op available) := by
  have hchain : chainFrame.operators ≠ [] := List.cons_ne_nil _ _
  have hshort : shortFrame.operators ≠ [] := List.cons_ne_nil _ _
  refine ⟨⟨hchain, hshort⟩, ?_, ?_⟩
  · have hok : (chainFrame.drain {}).1 = .ok () := by rfl
    have hbalance := drain_balance chainFrame hchain {}
    rcases hdrain : chainFrame.drain {} with ⟨fault | u, left, after⟩
    · rw [hdrain] at hok
      cases hok
    · rw [hdrain] at hbalance
      obtain ⟨-, hdrained, hcount, htail⟩ := hbalance
      exact ⟨left, after, rfl, hdrained, hcount, htail⟩
  · have herror : (shortFrame.drain {}).1 = .error (.underflow .fanOut 2) := by rfl
    have hbalance := drain_balance shortFrame hshort {}
    rcases hdrain : shortFrame.drain {} with ⟨fault | u, left, after⟩
    · rw [hdrain] at hbalance herror
      cases herror
      rcases hbalance with hoperands | ⟨-, op, hop, available, hfew, hfault⟩
      · cases hoperands
      · exact ⟨op, hop, available, hfew, congrArg Except.error hfault⟩
    · rw [hdrain] at herror
      cases herror

end Frame

end Tilework
