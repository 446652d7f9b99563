import Tilework.Proofs.LongestName

/-!
# Catalogs as a table and a list

A catalog can be kept as a table of classes and beside it a list of the names in their order, where
the place of a new name is found by halving. It gives the same answers to every history, and finds
the same names.
-/

namespace Tilework

/-- Halve the places from `low` up to `high` until none is left: in front of the place that is found
`p` holds, and from there on it does not. -/
def partitionPoint {α : Type} (p : α → Bool) (xs : List α) (low high : Nat) : Nat :=
  if low < high then
    let middle := low + (high - low) / 2
    if xs[middle]?.any p then partitionPoint p xs (middle + 1) high
    else partitionPoint p xs low middle
  else low
termination_by high - low

section partition

variable {α : Type} {p : α → Bool} {xs : List α}

theorem any_getElem?_iff (hxs : xs.Pairwise fun x y => p y = true → p x = true) (i : Nat) :
    xs[i]?.any p = true ↔ i < (xs.takeWhile p).length := by
  induction xs generalizing i with
  | nil => simp
  | cons x xs ih =>
    obtain ⟨hx, hxs⟩ := List.pairwise_cons.mp hxs
    by_cases hp : p x = true
    · rw [List.takeWhile_cons_of_pos hp]
      cases i with
      | zero => simpa using hp
      | succ i => simpa using ih hxs i
    · rw [List.takeWhile_cons_of_neg hp]
      cases i with
      | zero => simpa using hp
      | succ i =>
        have hnone : ∀ y ∈ xs, ¬ p y = true := fun y hy => mt (hx y hy) hp
        cases hget : xs[i]? with
        | none => simp [hget]
        | some y => simpa [hget] using hnone y (List.mem_of_getElem? hget)

theorem partitionPoint_eq (hxs : xs.Pairwise fun x y => p y = true → p x = true) {low high : Nat}
    (hlow : low ≤ (xs.takeWhile p).length) (hhigh : (xs.takeWhile p).length ≤ high) :
    partitionPoint p xs low high = (xs.takeWhile p).length := by
  induction low, high using partitionPoint.induct p xs with
  | case1 low high h middle hp ih =>
    rw [partitionPoint, if_pos h, if_pos hp]
    exact ih ((any_getElem?_iff hxs _).mp hp) hhigh
  | case2 low high h middle hp ih =>
    rw [partitionPoint, if_pos h, if_neg hp]
    exact ih hlow (Nat.le_of_not_lt fun hlt => hp ((any_getElem?_iff hxs _).mpr hlt))
  | case3 low high h =>
    rw [partitionPoint, if_neg h]
    omega

end partition

structure Registry where
  classes : Table TileClass := []
  names : List String := []

namespace Registry

/-- Register a name. A fault leaves the registry as it was. -/
def register (registry : Registry) (entry : String × TileClass) :
    Except CatalogFault Unit × Registry :=
  if isName entry.1.toList then
    match registry.classes.get? entry.1 with
    | some existing =>
      (if existing = entry.2 then .ok () else .error (.duplicate entry.1 existing entry.2),
        registry)
    | none =>
      let place :=
        partitionPoint (Catalog.precedes · entry.1) registry.names 0 registry.names.length
      (.ok (), ⟨registry.classes.put entry.1 entry.2, registry.names.insertIdx place entry.1⟩)
  else (.error (.invalidName entry.1), registry)

def registerEach (registry : Registry) :
    List (String × TileClass) → List (Except CatalogFault Unit) × Registry
  | [] => ([], registry)
  | entry :: history =>
    let (answer, middle) := registry.register entry
    let (answers, after) := middle.registerEach history
    (answer :: answers, after)

/-- The first name that starts a text, with the class that it has in the table. -/
def longestPrefix? (registry : Registry) (text : List Char) : Option (String × TileClass) := do
  let name ← registry.names.find? fun name => name.toList.isPrefixOf text
  return (name, ← registry.classes.get? name)

/-- A registry and a catalog of the same entries. -/
structure Keeps (registry : Registry) (catalog : Catalog) : Prop where
  names_eq : registry.names = catalog.names
  get?_eq : ∀ name, registry.classes.get? name = catalog.classOf? name

end Registry

namespace Catalog

theorem map_insertEntry (name : String) (cls : TileClass) (es : List (String × TileClass)) :
    (insertEntry (name, cls) es).map Prod.fst =
      (es.map Prod.fst).insertIdx ((es.map Prod.fst).takeWhile (precedes · name)).length name := by
  induction es with
  | nil => rfl
  | cons e es ih =>
    rw [insertEntry, List.map_cons, List.takeWhile_cons]
    split
    · rw [List.map_cons, ih, List.length_cons, List.insertIdx_succ_cons]
    · rfl

end Catalog

namespace Registry

variable {registry : Registry} {catalog : Catalog}

theorem insertIdx_partitionPoint (hcatalog : catalog.Ordered) (name : String) (cls : TileClass) :
    catalog.names.insertIdx
        (partitionPoint (Catalog.precedes · name) catalog.names 0 catalog.names.length) name =
      (Catalog.insertEntry (name, cls) catalog.entries).map Prod.fst := by
  have hsorted : catalog.names.Pairwise fun a b =>
      Catalog.precedes b name = true → Catalog.precedes a name = true := by
    rw [Catalog.names, List.pairwise_map]
    exact hcatalog.sorted.imp fun hab hb => Catalog.precedes_trans hab hb
  rw [partitionPoint_eq hsorted (Nat.zero_le _) (List.takeWhile_prefix _).length_le,
    Catalog.map_insertEntry]
  rfl

theorem Keeps.register (h : registry.Keeps catalog) (hcatalog : catalog.Ordered)
    (entry : String × TileClass) :
    (registry.register entry).1 = (catalog.register entry).1 ∧
      (registry.register entry).2.Keeps (catalog.register entry).2 := by
  obtain ⟨name, cls⟩ := entry
  have hclasses := hcatalog.classOf?_register (name, cls)
  rw [Catalog.register_eq] at hclasses ⊢
  rw [Registry.register, h.get?_eq, h.names_eq]
  by_cases hname : isName name.toList
  · rw [if_pos hname] at hclasses ⊢
    rw [if_pos hname]
    cases hclass : catalog.classOf? name with
    | some existing => exact ⟨rfl, h⟩
    | none =>
      rw [hclass] at hclasses
      refine ⟨rfl, insertIdx_partitionPoint hcatalog name cls, fun other => ?_⟩
      rw [hclasses]
      by_cases hother : other = name
      · rw [hother, Table.get?_put_self, hclass]
        simp [Catalog.registered?, hname]
      · rw [Table.get?_put_of_ne _ _ hother, h.get?_eq]
        simp [Catalog.registered?, Ne.symm hother]
  · rw [if_neg hname, if_neg hname]
    exact ⟨rfl, h⟩

theorem Keeps.registerEach (h : registry.Keeps catalog) (hcatalog : catalog.Ordered)
    (history : List (String × TileClass)) :
    (registry.registerEach history).1 = (catalog.registerEach history).1 ∧
      (registry.registerEach history).2.Keeps (catalog.registerEach history).2 := by
  induction history generalizing registry catalog with
  | nil => exact ⟨rfl, h⟩
  | cons entry history ih =>
    obtain ⟨hanswer, hmiddle⟩ := h.register hcatalog entry
    obtain ⟨hanswers, hafter⟩ := ih hmiddle (hcatalog.register entry)
    exact ⟨congrArg₂ List.cons hanswer hanswers, hafter⟩

theorem Keeps.longestPrefix?_eq (h : registry.Keeps catalog) (hcatalog : catalog.Ordered)
    (text : List Char) : registry.longestPrefix? text = catalog.longestPrefix? text := by
  rw [Registry.longestPrefix?, h.names_eq, Catalog.names, List.find?_map, Catalog.longestPrefix?]
  cases hfind : catalog.entries.find? (fun e => e.1.toList.isPrefixOf text) with
  | none => simp [Function.comp_def, hfind]
  | some e =>
    have hclass := hcatalog.classOf?_eq_some.mpr (List.mem_of_find?_eq_some hfind)
    simp [Function.comp_def, hfind, h.get?_eq, hclass]

/-- A registry answers to a history as a catalog does, and then finds the same names. -/
theorem registerEach_eq (history : List (String × TileClass)) :
    (({} : Registry).registerEach history).1 = (({} : Catalog).registerEach history).1 ∧
      ∀ text, (({} : Registry).registerEach history).2.longestPrefix? text =
        (({} : Catalog).registerEach history).2.longestPrefix? text := by
  have hempty : ({} : Catalog).Ordered := ⟨List.Pairwise.nil, by simp⟩
  have hkeeps : Keeps {} {} := ⟨rfl, fun _ => rfl⟩
  obtain ⟨hanswers, hafter⟩ := hkeeps.registerEach hempty history
  exact ⟨hanswers, hafter.longestPrefix?_eq (hempty.registerEach history)⟩

end Registry

end Tilework
