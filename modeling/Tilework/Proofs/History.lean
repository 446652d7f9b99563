import Tilework.Proofs.Composite
import Tilework.Proofs.Counter

/-!
# Histories of sessions

No run takes the counter of a session back, not even one that fails, so no number is given out twice
before all of them have been. Every id of a composite ends in a number of its run, also the id of an
edge between two instances. So the composites of a history that loads no more tiles than there are
numbers share no id, unless the numbers were started again.
-/

namespace Tilework

/-- Every id of an assembled tile is stamped with the number of one of its leaves. -/
theorem Expression.exists_stampId {assembly : Assembly} {tile : Tile}
    (h : assembly.assemble = some tile) :
    ∀ id ∈ tile.identifiers, ∃ i ∈ assembly.leaves, ∃ x, id = stampId i.ns x := by
  have hlocation :
      ∀ id ∈ assembly.locationIds, ∃ i ∈ assembly.leaves, ∃ x, id = stampId i.ns x := by
    intro id hid
    obtain ⟨i, hi, hid⟩ := List.mem_flatMap.mp hid
    rw [Instance.stamped, Tile.locationIds_stamp] at hid
    obtain ⟨x, -, rfl⟩ := List.mem_map.mp hid
    exact ⟨i, hi, x, rfl⟩
  intro id hid
  rcases List.mem_append.mp hid with hid | hid
  · rw [locationIds_assemble h] at hid
    exact hlocation id hid
  · rcases List.mem_append.mp ((transitionIds_assemble h).mem_iff.mp hid) with hloaded | hjoint
    · obtain ⟨i, hi, hid⟩ := List.mem_flatMap.mp hloaded
      rw [Instance.stamped, Tile.transitionIds_stamp] at hid
      obtain ⟨x, -, rfl⟩ := List.mem_map.mp hid
      exact ⟨i, hi, x, rfl⟩
    · obtain ⟨⟨exit, entry⟩, hj, rfl⟩ := List.mem_map.mp hjoint
      have hend : entry ∈ assembly.ends := Joint.mem_ends.mpr (Or.inr (List.mem_map_of_mem hj))
      obtain ⟨i, hi, x, rfl⟩ := hlocation entry (ends_subset h hend)
      exact ⟨i, hi, _, Joint.id_stampId exit x i.ns⟩

namespace Session

variable {σ : Type} [TileSource σ]

/-- The number of tiles that a run loads, up to its fault if it fails. -/
def runLoads (session : Session σ) (expression : String) : Nat :=
  (session.machine.servedAll (TokenStream.ofText session.catalog expression).lexemes).length

theorem namespaces_compose (session : Session σ) (name expression : String) :
    (session.compose name expression).2.namespaces =
      session.namespaces.advance (session.runLoads expression) := by
  have hrun : (session.compose name expression).2.namespaces =
      (session.machine.run (TokenStream.ofText session.catalog expression).lexemes
        expression.utf8ByteSize).2.namespaces := by
    rw [compose]
    rcases session.machine.run (TokenStream.ofText session.catalog expression).lexemes
      expression.utf8ByteSize with ⟨fault | tile, m⟩ <;> rfl
  rw [hrun]
  exact session.machine.namespaces_run _ _

theorem exists_stampId_of_compose {session session' : Session σ} {name expression : String}
    {c : Composition} (h : session.compose name expression = (.ok c, session')) :
    ∀ id ∈ c.tile.identifiers, ∃ k x, k < session.runLoads expression ∧
      id = stampId ((session.namespaces.next.toNat + k) % 2 ^ 32) x := by
  obtain ⟨m, hrun, -, -, rfl⟩ := compose_eq_ok h
  obtain ⟨loaded, assembly, horigin⟩ := Machine.origin_of_run rfl hrun
  obtain ⟨u, read, hsteps, -⟩ := Attempt.andThen_eq_ok hrun
  have hlength : loaded.length = session.runLoads expression := by
    have hserved := horigin.served.symm.trans (Machine.serveAll_of_steps hsteps)
    rw [runLoads, Except.ok.inj (Prod.mk.inj hserved).1]
  intro id hid
  obtain ⟨i, hi, x, rfl⟩ := Expression.exists_stampId horigin.assembled id hid
  obtain ⟨hle, hlt⟩ := horigin.ordinal_of_mem_leaves hi
  obtain ⟨k, hk⟩ := Nat.exists_eq_add_of_le hle
  rw [hk, hlength] at hlt
  refine ⟨k, x, Nat.lt_of_add_lt_add_left hlt, ?_⟩
  rw [Instance.ns, hk]
  rfl

/-- What can be done with a session. The source may be changed between runs. -/
inductive Operation (σ : Type) where
  | compose (name expression : String)
  | resetBounds
  | resetNamespaces
  | changeSource (change : σ → σ)

/-- The outcome of an operation, if it has one, and the session that it leaves. -/
def perform (session : Session σ) :
    Operation σ → Option (Except ComposeFault Composition) × Session σ
  | .compose name expression =>
    let (outcome, after) := session.compose name expression
    (some outcome, after)
  | .resetBounds => (none, session.resetBounds)
  | .resetNamespaces => (none, session.resetNamespaces)
  | .changeSource change => (none, { session with source := change session.source })

def composition? (session : Session σ) (op : Operation σ) : Option Composition :=
  (session.perform op).1.bind Except.toOption

/-- The compositions of all operations of a history, in order. -/
def compositions : List (Operation σ) → Session σ → List Composition
  | [], _ => []
  | op :: ops, session =>
    (session.composition? op).toList ++ compositions ops (session.perform op).2

variable {session : Session σ} {ops : List (Operation σ)} {c : Composition}

def loads (session : Session σ) : Operation σ → Nat
  | .compose _ expression => session.runLoads expression
  | .resetBounds | .resetNamespaces | .changeSource _ => 0

/-- The number of tiles that all operations of a history load. -/
def loadsAll : List (Operation σ) → Session σ → Nat
  | [], _ => 0
  | op :: ops, session => session.loads op + loadsAll ops (session.perform op).2

theorem namespaces_perform {op : Operation σ} (h : op ≠ .resetNamespaces) :
    (session.perform op).2.namespaces = session.namespaces.advance (session.loads op) := by
  cases op with
  | compose name expression => exact session.namespaces_compose name expression
  | resetNamespaces => exact absurd rfl h
  | resetBounds | changeSource change => exact session.namespaces.advance_zero.symm

theorem exists_stampId_of_composition? {op : Operation σ} (h : session.composition? op = some c) :
    ∀ id ∈ c.tile.identifiers, ∃ k x, k < session.loads op ∧
      id = stampId ((session.namespaces.next.toNat + k) % 2 ^ 32) x := by
  cases op with
  | compose name expression =>
    rcases hcompose : session.compose name expression with ⟨fault | made, after⟩
    · simp [composition?, perform, hcompose, Except.toOption] at h
    · obtain rfl : made = c := by
        simpa [composition?, perform, hcompose, Except.toOption] using h
      exact exists_stampId_of_compose hcompose
  | resetBounds | resetNamespaces | changeSource change => cases h

/-- Later composites have later numbers. -/
theorem exists_stampId_of_mem_compositions (hops : .resetNamespaces ∉ ops)
    (h : c ∈ session.compositions ops) :
    ∀ id ∈ c.tile.identifiers, ∃ k x, k < session.loadsAll ops ∧
      id = stampId ((session.namespaces.next.toNat + k) % 2 ^ 32) x := by
  induction ops generalizing session with
  | nil => cases h
  | cons op ops ih =>
    simp only [List.mem_cons, not_or] at hops
    intro id hid
    rcases List.mem_append.mp h with hfirst | hlater
    · obtain ⟨k, x, hk, rfl⟩ := exists_stampId_of_composition? (Option.mem_toList.mp hfirst) id hid
      exact ⟨k, x, Nat.lt_add_right _ hk, rfl⟩
    · obtain ⟨k, x, hk, rfl⟩ := ih hops.2 hlater id hid
      refine ⟨session.loads op + k, x, Nat.add_lt_add_left hk _, ?_⟩
      rw [namespaces_perform (Ne.symm hops.1), NamespaceCounter.toNat_next_advance, Nat.mod_add_mod,
        Nat.add_assoc]

/-- The composites of a history in which numbers are not started again share no id, whatever else
is done between the runs, and however many of them fail, while it loads no more tiles than there are
numbers. -/
theorem pairwise_disjoint_identifiers (session : Session σ) (ops : List (Operation σ))
    (hops : .resetNamespaces ∉ ops) (hroom : session.loadsAll ops ≤ 2 ^ 32) :
    (session.compositions ops).Pairwise fun c d =>
      c.tile.identifiers.Disjoint d.tile.identifiers := by
  induction ops generalizing session with
  | nil => exact List.Pairwise.nil
  | cons op ops ih =>
    simp only [List.mem_cons, not_or] at hops
    rw [loadsAll] at hroom
    refine List.pairwise_append.mpr ⟨?_, ih _ hops.2 (Nat.le_of_add_left_le hroom), ?_⟩
    · cases session.composition? op with
      | none => exact List.Pairwise.nil
      | some c => exact List.pairwise_singleton _ _
    · intro c hc d hd id hid hid'
      obtain ⟨k, x, hk, rfl⟩ := exists_stampId_of_composition? (Option.mem_toList.mp hc) id hid
      obtain ⟨k', x', hk', heq⟩ := exists_stampId_of_mem_compositions hops.2 hd _ hid'
      obtain ⟨hns, -⟩ := stampId_inj.mp heq
      rw [namespaces_perform (Ne.symm hops.1), NamespaceCounter.toNat_next_advance] at hns
      omega

/-- A run, a run that fails after it has loaded a tile, and the first run again. -/
def arrowHistory : List (Operation MemorySource) :=
  [.compose "r" "a + b", .compose "f" "a +", .resetBounds,
    .changeSource (·.insert "c" .accepting exitTile), .compose "r" "a + b"]

def arrowSession : Session MemorySource where
  source := arrowSource
  catalog := arrowCatalog

theorem identifiers_arrowHistory :
    (arrowSession.compositions arrowHistory).map (·.tile.identifiers) =
      [["o_0", "i_1", "o_0->i_1", "o_0->i_1"], ["o_3", "i_4", "o_0->i_4", "o_3->i_4"]] := by
  decide +kernel

theorem pairwise_disjoint_identifiers_arrow :
    ∃ ids ids' : List String,
      (arrowSession.compositions arrowHistory).map (·.tile.identifiers) = [ids, ids'] ∧
        ids.Disjoint ids' := by
  have hops : .resetNamespaces ∉ arrowHistory := by simp [arrowHistory]
  have hroom : arrowSession.loadsAll arrowHistory ≤ 2 ^ 32 := by decide +kernel
  have hdisjoint := List.pairwise_map.mpr
    (pairwise_disjoint_identifiers arrowSession arrowHistory hops hroom)
  rw [identifiers_arrowHistory] at hdisjoint
  exact ⟨_, _, identifiers_arrowHistory, List.pairwise_pair.mp hdisjoint⟩

end Session

end Tilework
