import Mathlib.Data.List.Nodup
import Tilework.Machine.Run
import Tilework.Proofs.Assembly
import Tilework.Proofs.Sequencing
import Tilework.Proofs.WellFormed

/-!
# References

A reference asks a source for a tile of a class. It is served when the source makes a tile that
passes the check of the class. References are served in order, each by the source that the one
before it left behind, and the tiles are numbered in the same order.
-/

namespace Tilework

theorem Attempt.andThen_assoc {σ α β γ : Type} (attempt : Attempt σ α) (f : α → σ → Attempt σ β)
    (g : β → σ → Attempt σ γ) :
    (attempt.andThen f).andThen g =
      attempt.andThen fun value state => (f value state).andThen g := by
  rcases attempt with ⟨_ | value, state⟩ <;> rfl

theorem Attempt.andThen_ok_self {σ α : Type} (attempt : Attempt σ α) :
    (attempt.andThen fun value state => (.ok value, state)) = attempt := by
  rcases attempt with ⟨_ | value, state⟩ <;> rfl

theorem Attempt.andThen_eq_ok {σ α β : Type} {attempt : Attempt σ α} {next : α → σ → Attempt σ β}
    {value : β} {state : σ} (h : attempt.andThen next = (.ok value, state)) :
    ∃ first middle, attempt = (.ok first, middle) ∧ next first middle = (.ok value, state) := by
  rcases attempt with ⟨fault | first, middle⟩
  · cases h
  · exact ⟨first, middle, rfl, h⟩

theorem Attempt.andThen_eq_error {σ α β : Type} {attempt : Attempt σ α} {next : α → σ → Attempt σ β}
    {fault : ComposeFault} {state : σ}
    (h : attempt.andThen next = (.error fault, state)) :
    attempt = (.error fault, state) ∨
      ∃ value middle,
        attempt = (.ok value, middle) ∧ next value middle = (.error fault, state) := by
  rcases attempt with ⟨cause | value, middle⟩
  · cases h
    exact Or.inl rfl
  · exact Or.inr ⟨value, middle, rfl, h⟩

theorem Attempt.andThen_preserves {σ α β : Type} {P : σ → Prop} {attempt : Attempt σ α}
    {next : α → σ → Attempt σ β} (h : P attempt.2)
    (hnext : ∀ value state, P state → P (next value state).2) : P (attempt.andThen next).2 := by
  rcases attempt with ⟨fault | value, state⟩
  · exact h
  · exact hnext value state h

theorem Attempt.eq_ok_of_toOption {σ α : Type} {attempt : Attempt σ α} {value : α}
    (h : attempt.1.toOption = some value) : attempt = (.ok value, attempt.2) := by
  rcases attempt with ⟨fault | made, state⟩
  · cases h
  · cases h
    rfl

theorem Attempt.exists_eq_error_of_toOption {σ α : Type} {attempt : Attempt σ α}
    (h : attempt.1.toOption = none) : ∃ fault, attempt = (.error fault, attempt.2) := by
  rcases attempt with ⟨fault | made, state⟩
  · exact ⟨fault, rfl⟩
  · cases h

structure Reference where
  name : String
  cls : TileClass
  param : Nat
deriving DecidableEq, Repr

def Token.reference? : Token → Option Reference
  | tile name cls param => some ⟨name, cls, param⟩
  | _ => none

/-- The references of a text, in order. -/
def references (lexemes : List Lexeme) : List Reference := lexemes.filterMap (·.token.reference?)

theorem references_concat (lexemes : List Lexeme) (lexeme : Lexeme) :
    references (lexemes ++ [lexeme]) = references lexemes ++ lexeme.token.reference?.toList := by
  rw [references, List.filterMap_append, List.filterMap_cons]
  cases lexeme.token.reference? <;> rfl

def Token.operator? : Token → Option Operator
  | operator op => some op
  | _ => none

/-- The operators of a text, in order. -/
def operators (lexemes : List Lexeme) : List Operator := lexemes.filterMap (·.token.operator?)

theorem operators_concat (lexemes : List Lexeme) (lexeme : Lexeme) :
    operators (lexemes ++ [lexeme]) = operators lexemes ++ lexeme.token.operator?.toList := by
  rw [operators, List.filterMap_append, List.filterMap_cons]
  cases lexeme.token.operator? <;> rfl

section serve

variable {σ : Type} [TileSource σ]

def Reference.serve (reference : Reference) (source : σ) : Attempt σ Tile :=
  match TileSource.load source reference.name reference.cls reference.param with
  | (.error fault, source) => (.error (.source fault), source)
  | (.ok tile, source) =>
    match reference.cls.check tile with
    | .error defect => (.error (.malformed reference.name defect), source)
    | .ok () => (.ok tile, source)

def serveAll : List Reference → σ → Attempt σ (List Tile)
  | [], source => (.ok [], source)
  | reference :: references, source =>
    (reference.serve source).andThen fun tile source =>
      (serveAll references source).andThen fun tiles source => (.ok (tile :: tiles), source)

theorem Machine.load_eq (m : Machine σ) (reference : Reference) :
    m.load reference.name reference.cls reference.param =
      match reference.serve m.source with
      | (.error fault, source) => (.error fault, { m with source })
      | (.ok tile, source) =>
        (.ok (tile.stamp m.namespaces.next.toNat),
          { m with source, namespaces := ⟨m.namespaces.next + 1⟩ }) := by
  rw [load, Reference.serve]
  rcases TileSource.load m.source reference.name reference.cls reference.param with
    ⟨fault | tile, source⟩
  · rfl
  · dsimp only
    cases reference.cls.check tile <;> rfl

theorem Reference.wellFormed_of_serve {reference : Reference} {source source' : σ} {tile : Tile}
    (h : reference.serve source = (.ok tile, source')) : tile.WellFormed := by
  rw [serve] at h
  split at h
  · cases h
  · next made _ _ =>
    split at h
    · cases h
    · next hcheck =>
      cases h
      rw [TileClass.check] at hcheck
      obtain ⟨_, -, hvalid⟩ := bind_eq_ok_iff.mp hcheck
      exact tile.validate_eq_ok_iff.mp hvalid

theorem serveAll_append (xs ys : List Reference) (source : σ) :
    serveAll (xs ++ ys) source =
      (serveAll xs source).andThen fun tiles source =>
        (serveAll ys source).andThen fun tiles' source => (.ok (tiles ++ tiles'), source) := by
  induction xs generalizing source with
  | nil =>
    simp only [List.nil_append, serveAll, Attempt.andThen_ok]
    rcases serveAll ys source with ⟨_ | tiles, source⟩ <;> rfl
  | cons x xs ih =>
    simp only [List.cons_append, serveAll, ih, Attempt.andThen_assoc, Attempt.andThen_ok]

theorem serveAll_concat {references : List Reference} {reference : Reference}
    {source source' source'' : σ} {tiles : List Tile} {tile : Tile}
    (h : serveAll references source = (.ok tiles, source'))
    (htile : reference.serve source' = (.ok tile, source'')) :
    serveAll (references ++ [reference]) source = (.ok (tiles ++ [tile]), source'') := by
  simp [serveAll_append, serveAll, h, htile]

theorem length_serveAll {references : List Reference} {source source' : σ} {loaded : List Tile}
    (h : serveAll references source = (.ok loaded, source')) :
    loaded.length = references.length := by
  induction references generalizing source loaded with
  | nil =>
    cases h
    rfl
  | cons reference references ih =>
    obtain ⟨made, middle, -, h⟩ := Attempt.andThen_eq_ok h
    obtain ⟨rest, last, hrest, h⟩ := Attempt.andThen_eq_ok h
    cases h
    rw [List.length_cons, List.length_cons, ih hrest]

theorem wellFormed_of_serveAll {references : List Reference} {source source' : σ}
    {tiles : List Tile} (h : serveAll references source = (.ok tiles, source')) :
    ∀ tile ∈ tiles, tile.WellFormed := by
  induction references generalizing source tiles with
  | nil =>
    cases h
    simp
  | cons reference references ih =>
    obtain ⟨tile, middle, htile, h⟩ := Attempt.andThen_eq_ok h
    obtain ⟨rest, last, hrest, h⟩ := Attempt.andThen_eq_ok h
    cases h
    intro t ht
    rcases List.mem_cons.mp ht with rfl | ht
    · exact Reference.wellFormed_of_serve htile
    · exact ih hrest t ht

end serve

namespace NamespaceCounter

variable (counter : NamespaceCounter)

/-- The counter when `n` more numbers have been given out. -/
def advance (n : Nat) : NamespaceCounter := ⟨counter.next + .ofNat n⟩

@[simp] theorem advance_zero : counter.advance 0 = counter := by
  simp [advance]

theorem advance_advance (n k : Nat) :
    (counter.advance n).advance k = counter.advance (n + k) := by
  simp [advance, UInt32.add_assoc, UInt32.ofNat_add]

/-- The counter has come to the place `n`, of which 32 bits are its number. -/
def StandsAt (n : Nat) : Prop := counter.next = .ofNat n

theorem standsAt_toNat : counter.StandsAt counter.next.toNat := UInt32.ofNat_toNat.symm

variable {counter} {n : Nat}

theorem StandsAt.advance (h : counter.StandsAt n) (k : Nat) :
    (counter.advance k).StandsAt (n + k) := by
  rw [StandsAt, UInt32.ofNat_add, ← h]
  rfl

theorem StandsAt.toNat_next (h : counter.StandsAt n) : counter.next.toNat = n % 2 ^ 32 := by
  rw [h, UInt32.toNat_ofNat']

theorem toNat_next_advance (counter : NamespaceCounter) (n : Nat) :
    (counter.advance n).next.toNat = (counter.next.toNat + n) % 2 ^ 32 :=
  (counter.standsAt_toNat.advance n).toNat_next

/-- The next instance is stamped with what the counter gives out. -/
theorem StandsAt.stamped (h : counter.StandsAt n) (tile : Tile) :
    (Instance.mk n tile).stamped = tile.stamp counter.next.toNat := by
  rw [h.toNat_next]
  rfl

end NamespaceCounter

/-- Tiles with their places, from `n` on. -/
def number : Nat → List Tile → List Instance
  | _, [] => []
  | n, tile :: tiles => ⟨n, tile⟩ :: number (n + 1) tiles

variable (n : Nat) (tiles tiles' : List Tile)

theorem number_append :
    number n (tiles ++ tiles') = number n tiles ++ number (n + tiles.length) tiles' := by
  induction tiles generalizing n with
  | nil => simp [number]
  | cons tile tiles ih =>
    have hlength : n + 1 + tiles.length = n + (tiles.length + 1) := by omega
    simp only [List.cons_append, number, ih, List.length_cons, hlength]

@[simp] theorem map_ordinal_number :
    (number n tiles).map (·.ordinal) = List.range' n tiles.length := by
  induction tiles generalizing n with
  | nil => rfl
  | cons tile tiles ih => simp [number, ih, List.range'_succ]

theorem map_number {β : Type} (f : Tile → β) :
    (number n tiles).map (fun i => f i.tile) = tiles.map f := by
  induction tiles generalizing n with
  | nil => rfl
  | cons tile tiles ih => simp [number, ih]

@[simp] theorem map_tile_number : (number n tiles).map (·.tile) = tiles := by
  rw [map_number n tiles fun tile => tile, List.map_id']

theorem ordinal_of_mem_number {i : Instance} (h : i ∈ number n tiles) :
    n ≤ i.ordinal ∧ i.ordinal < n + tiles.length := by
  have hordinal : i.ordinal ∈ (number n tiles).map (·.ordinal) := List.mem_map_of_mem h
  simpa using hordinal

theorem nodup_ns_of_sublist {instances : List Instance} (hroom : tiles.length ≤ 2 ^ 32)
    (h : instances.Sublist (number n tiles)) : (instances.map (·.ns)).Nodup := by
  have hordinals : (instances.map (·.ordinal)).Nodup := by
    have hsub := h.map (·.ordinal)
    rw [map_ordinal_number] at hsub
    have hrange : (List.range' n tiles.length).Nodup := List.nodup_range'
    exact hrange.sublist hsub
  rw [List.Nodup, List.pairwise_map] at hordinals ⊢
  apply hordinals.imp_of_mem
  intro i j hi hj hne
  obtain ⟨hi, hi'⟩ := ordinal_of_mem_number n tiles (h.subset hi)
  obtain ⟨hj, hj'⟩ := ordinal_of_mem_number n tiles (h.subset hj)
  simp only [Instance.ns]
  omega

theorem tile_of_mem_number {i : Instance} (h : i ∈ number n tiles) : i.tile ∈ tiles := by
  have htile : i.tile ∈ (number n tiles).map (·.tile) := List.mem_map_of_mem h
  simpa using htile

/-- Instances with numbers of their own share no stamped id. -/
theorem nodup_flatMap_stampId {instances : List Instance} {ids : Instance → List String}
    (hns : (instances.map (·.ns)).Nodup) (hids : ∀ i ∈ instances, (ids i).Nodup) :
    (instances.flatMap fun i => (ids i).map (stampId i.ns)).Nodup := by
  refine List.nodup_flatMap.mpr ⟨?_, ?_⟩
  · intro i hi
    exact (hids i hi).map (stampId_injective i.ns)
  · have hne : instances.Pairwise fun i j => i.ns ≠ j.ns := List.pairwise_map.mp hns
    apply hne.imp
    intro i j hij id hid hid'
    obtain ⟨x, -, rfl⟩ := List.mem_map.mp hid
    obtain ⟨y, -, heq⟩ := List.mem_map.mp hid'
    exact hij (stampId_inj.mp heq).1.symm

namespace Expression

variable {assembly : Assembly}

theorem nodup_locationIds (hns : (assembly.leaves.map (·.ns)).Nodup)
    (hleaves : ∀ i ∈ assembly.leaves, i.tile.WellFormed) : assembly.locationIds.Nodup := by
  simp only [locationIds, Instance.stamped, Tile.locationIds_stamp]
  exact nodup_flatMap_stampId hns fun i hi => (hleaves i hi).locations

theorem nodup_transitionIds (hns : (assembly.leaves.map (·.ns)).Nodup)
    (hleaves : ∀ i ∈ assembly.leaves, i.tile.WellFormed) : assembly.transitionIds.Nodup := by
  simp only [transitionIds, Instance.stamped, Tile.transitionIds_stamp]
  exact nodup_flatMap_stampId hns fun i hi => (hleaves i hi).transitions

end Expression

end Tilework
