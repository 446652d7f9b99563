import Tilework.Proofs.Records
import Tilework.Tile.Document

/-!
# Ways of writing a tile

A tile is read from every document for it: whatever the order of the fields, with members that no
record knows among them, with defaults left out or written, as objects or as lists, with any blanks
and any escapes.
-/

namespace Tilework

open Json

namespace Json

theorem getD_of_left {α : Type} {p : Prop} [Decidable p] {value default : α}
    (h : p ∨ value = default) : (if p then some value else none).getD default = value := by
  split
  · rfl
  · next hp => exact (h.resolve_left hp).symm

end Json

def IsRole (role : Role) (es : List Element) : Prop := es = [.text role.name]

theorem IsRole.opens {role : Role} {es : List Element} (h : IsRole role es) :
    Reads readRole es role ∧ Opens es := by
  obtain rfl := h
  refine ⟨fun fs cs _ h => ?_, '"', rfl, rfl, by decide, by decide⟩
  obtain ⟨cs', hskip, rest, hname, hrest⟩ := Writes.text h
  refine ⟨rest, ?_, hrest⟩
  cases role <;>
    simp [readRole, hskip, hname, Role.ofName, Role.name, bind, Except.bind, pure, Except.pure]

namespace Location

variable {l : Location} {es : List Element}

def slots (l : Location) : List Slot :=
  [⟨"id", IsText l.id, False⟩, ⟨"invariant", IsOptional IsText l.invariant, l.invariant = none⟩,
    ⟨"comment", IsOptional IsText l.comment, l.comment = none⟩,
    ⟨"final", IsBool l.isFinal, l.isFinal = false⟩,
    ⟨"role", IsOptional IsRole l.role, l.role = none⟩]

/-- What is read when the members of these keys are read. -/
def fields (l : Location) (keys : List String) : Fields where
  id := if "id" ∈ keys then some l.id else none
  invariant := if "invariant" ∈ keys then some l.invariant else none
  comment := if "comment" ∈ keys then some l.comment else none
  isFinal := if "final" ∈ keys then some l.isFinal else none
  role := if "role" ∈ keys then some l.role else none

theorem reads_columns (l : Location) :
    List.Forall₂ (Column.Reads · l.fields) columns l.slots := by
  refine
    .cons ⟨rfl, False.elim, l.id, fun _ => IsText.reads, fun keys => ⟨rfl, ?_⟩⟩ <|
    .cons ⟨rfl, fun _ => rfl, l.invariant, fun _ => IsOptional.reads fun _ _ => IsText.opens,
      fun keys => ⟨rfl, ?_⟩⟩ <|
    .cons ⟨rfl, fun _ => rfl, l.comment, fun _ => IsOptional.reads fun _ _ => IsText.opens,
      fun keys => ⟨rfl, ?_⟩⟩ <|
    .cons ⟨rfl, fun _ => rfl, l.isFinal, fun _ => IsBool.reads, fun keys => ⟨rfl, ?_⟩⟩ <|
    .cons ⟨rfl, fun _ => rfl, l.role, fun _ => IsOptional.reads fun _ _ => IsRole.opens,
      fun keys => ⟨rfl, ?_⟩⟩ .nil <;>
  simp [fields]

theorem complete_fields {keys : List String}
    (h : ∀ slot ∈ l.slots, slot.key ∈ keys ∨ slot.Omittable) :
    (l.fields keys).complete = .ok l := by
  simp only [slots, List.forall_mem_cons, or_false] at h
  obtain ⟨hid, hinvariant, hcomment, hfinal, hrole, -⟩ := h
  simp [fields, Fields.complete, require, hid, getD_of_left hinvariant, getD_of_left hcomment,
    getD_of_left hfinal, getD_of_left hrole, bind, Except.bind, pure, Except.pure]

theorem readsFields (l : Location) : ReadsFields l.slots columns l.fields Fields.complete l where
  columns := l.reads_columns
  once := by simp [slots]
  unknown key keys hkey := by
    simp only [slots, List.forall_mem_cons] at hkey
    obtain ⟨hid, hinvariant, hcomment, hfinal, hrole, -⟩ := hkey
    simp [fields, hid.symm, hinvariant.symm, hcomment.symm, hfinal.symm, hrole.symm]
  complete _ := complete_fields

theorem reads_record (h : Record l.slots es) : Reads read es l ∧ Opens es :=
  ⟨l.readsFields.reads h _, h.opens⟩

end Location

namespace Transition

variable {t : Transition} {es : List Element}

def slots (t : Transition) : List Slot :=
  [⟨"id", IsText t.id, False⟩, ⟨"source", IsText t.source, False⟩,
    ⟨"target", IsText t.target, False⟩, ⟨"guard", IsOptional IsText t.guard, t.guard = none⟩,
    ⟨"assignment", IsOptional IsText t.assignment, t.assignment = none⟩]

def fields (t : Transition) (keys : List String) : Fields where
  id := if "id" ∈ keys then some t.id else none
  source := if "source" ∈ keys then some t.source else none
  target := if "target" ∈ keys then some t.target else none
  guard := if "guard" ∈ keys then some t.guard else none
  assignment := if "assignment" ∈ keys then some t.assignment else none

theorem reads_columns (t : Transition) :
    List.Forall₂ (Column.Reads · t.fields) columns t.slots := by
  refine
    .cons ⟨rfl, False.elim, t.id, fun _ => IsText.reads, fun keys => ⟨rfl, ?_⟩⟩ <|
    .cons ⟨rfl, False.elim, t.source, fun _ => IsText.reads, fun keys => ⟨rfl, ?_⟩⟩ <|
    .cons ⟨rfl, False.elim, t.target, fun _ => IsText.reads, fun keys => ⟨rfl, ?_⟩⟩ <|
    .cons ⟨rfl, fun _ => rfl, t.guard, fun _ => IsOptional.reads fun _ _ => IsText.opens,
      fun keys => ⟨rfl, ?_⟩⟩ <|
    .cons ⟨rfl, fun _ => rfl, t.assignment, fun _ => IsOptional.reads fun _ _ => IsText.opens,
      fun keys => ⟨rfl, ?_⟩⟩ .nil <;>
  simp [fields]

theorem complete_fields {keys : List String}
    (h : ∀ slot ∈ t.slots, slot.key ∈ keys ∨ slot.Omittable) :
    (t.fields keys).complete = .ok t := by
  simp only [slots, List.forall_mem_cons, or_false] at h
  obtain ⟨hid, hsource, htarget, hguard, hassignment, -⟩ := h
  simp [fields, Fields.complete, require, hid, hsource, htarget, getD_of_left hguard,
    getD_of_left hassignment, bind, Except.bind, pure, Except.pure]

theorem readsFields (t : Transition) : ReadsFields t.slots columns t.fields Fields.complete t where
  columns := t.reads_columns
  once := by simp [slots]
  unknown key keys hkey := by
    simp only [slots, List.forall_mem_cons] at hkey
    obtain ⟨hid, hsource, htarget, hguard, hassignment, -⟩ := hkey
    simp [fields, hid.symm, hsource.symm, htarget.symm, hguard.symm, hassignment.symm]
  complete _ := complete_fields

theorem reads_record (h : Record t.slots es) : Reads read es t ∧ Opens es :=
  ⟨t.readsFields.reads h _, h.opens⟩

end Transition

namespace Tile

variable {tile : Tile} {es : List Element}

def slots (tile : Tile) : List Slot :=
  [⟨"name", IsText tile.name, tile.name = ""⟩,
    ⟨"declaration", IsText tile.declaration, tile.declaration = ""⟩,
    ⟨"parameter_bounds", IsOptional IsText tile.parameterBounds, tile.parameterBounds = none⟩,
    ⟨"locations", IsList (fun l => Record l.slots) tile.locations, tile.locations = []⟩,
    ⟨"transitions", IsList (fun t => Record t.slots) tile.transitions, tile.transitions = []⟩]

def fields (tile : Tile) (keys : List String) : Fields where
  name := if "name" ∈ keys then some tile.name else none
  declaration := if "declaration" ∈ keys then some tile.declaration else none
  parameterBounds := if "parameter_bounds" ∈ keys then some tile.parameterBounds else none
  locations := if "locations" ∈ keys then some tile.locations else none
  transitions := if "transitions" ∈ keys then some tile.transitions else none

theorem reads_columns (tile : Tile) :
    List.Forall₂ (Column.Reads · tile.fields) columns tile.slots := by
  refine
    .cons ⟨rfl, fun _ => rfl, tile.name, fun _ => IsText.reads, fun keys => ⟨rfl, ?_⟩⟩ <|
    .cons ⟨rfl, fun _ => rfl, tile.declaration, fun _ => IsText.reads, fun keys => ⟨rfl, ?_⟩⟩ <|
    .cons ⟨rfl, fun _ => rfl, tile.parameterBounds,
      fun _ => IsOptional.reads fun _ _ => IsText.opens, fun keys => ⟨rfl, ?_⟩⟩ <|
    .cons ⟨rfl, fun _ => rfl, tile.locations,
      fun _ => IsList.reads fun _ _ h => (Location.reads_record h).imp_right Opens.starts,
      fun keys => ⟨rfl, ?_⟩⟩ <|
    .cons ⟨rfl, fun _ => rfl, tile.transitions,
      fun _ => IsList.reads fun _ _ h => (Transition.reads_record h).imp_right Opens.starts,
      fun keys => ⟨rfl, ?_⟩⟩ .nil <;>
  simp [fields]

theorem complete_fields {keys : List String}
    (h : ∀ slot ∈ tile.slots, slot.key ∈ keys ∨ slot.Omittable) :
    (tile.fields keys).complete = tile := by
  simp only [slots, List.forall_mem_cons] at h
  obtain ⟨hname, hdeclaration, hbounds, hlocations, htransitions, -⟩ := h
  simp [fields, Fields.complete, getD_of_left hname, getD_of_left hdeclaration,
    getD_of_left hbounds, getD_of_left hlocations, getD_of_left htransitions]

theorem readsFields (tile : Tile) :
    ReadsFields tile.slots columns tile.fields (fun fields => .ok fields.complete) tile where
  columns := tile.reads_columns
  once := by simp [slots]
  unknown key keys hkey := by
    simp only [slots, List.forall_mem_cons] at hkey
    obtain ⟨hname, hdeclaration, hbounds, hlocations, htransitions, -⟩ := hkey
    simp [fields, hname.symm, hdeclaration.symm, hbounds.symm, hlocations.symm, htransitions.symm]
  complete _ h := congrArg Except.ok (complete_fields h)

theorem reads_record (h : Record tile.slots es) : Reads read es tile :=
  tile.readsFields.reads h _

/-- The documents for a tile. -/
def Documents (tile : Tile) (cs : List Char) : Prop :=
  ∃ es, Record tile.slots es ∧ Writes es cs

end Tile

end Tilework
