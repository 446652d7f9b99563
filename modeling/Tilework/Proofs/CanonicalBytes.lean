import Tilework.Proofs.Bytes

/-!
# What canonical bytes show of a tile

A text stands behind its length and a list behind the number of its elements, so the end of each
field is seen from its own bytes, whatever follows it. Canonical bytes therefore show all fields of
a tile, except that an absent text looks like an empty one. This needs lengths and counts that fit
into eight bytes, and nothing of the digest that is taken of the bytes.
-/

namespace Tilework

/-- For values that are `sized`, the bytes show what `view` shows, whatever bytes follow. -/
def Shows {α β : Type} (bytes : α → List UInt8) (view : α → β) (sized : α → Prop) : Prop :=
  ∀ ⦃a b : α⦄ ⦃rest rest' : List UInt8⦄, sized a → sized b → bytes a ++ rest = bytes b ++ rest' →
    view a = view b ∧ rest = rest'

def lengthLimit : Nat := 0x10000000000000000

def SizedText (text : String) : Prop := text.utf8ByteSize < lengthLimit

@[simp] theorem length_littleEndian (n value : Nat) : (littleEndian n value).length = n := by
  induction n generalizing value with
  | zero => rfl
  | succ n ih => rw [littleEndian, List.length_cons, ih]

theorem littleEndian_inj {n value value' : Nat} (hvalue : value < Nat.pow 256 n)
    (hvalue' : value' < Nat.pow 256 n) (h : littleEndian n value = littleEndian n value') :
    value = value' := by
  induction n generalizing value value' with
  | zero =>
    simp only [Nat.pow_eq, Nat.pow_zero] at hvalue hvalue'
    omega
  | succ n ih =>
    simp only [Nat.pow_eq, Nat.pow_succ] at hvalue hvalue' ih
    obtain ⟨hfirst, hrest⟩ := List.cons.inj h
    have hlow : value % 256 = value' % 256 := by
      simpa [UInt8.toNat_ofNat'] using congrArg UInt8.toNat hfirst
    have hhigh : value / 256 = value' / 256 := by
      refine ih ?_ ?_ hrest <;> omega
    omega

theorem shows_lengthBytes : Shows lengthBytes id (· < lengthLimit) := by
  intro n n' rest rest' hn hn' h
  obtain ⟨hlength, hrest⟩ := List.append_inj h (by simp [lengthBytes])
  have hlimit : Nat.pow 256 8 = lengthLimit := rfl
  exact ⟨littleEndian_inj (hlimit ▸ hn) (hlimit ▸ hn') hlength, hrest⟩

theorem length_utf8Bytes (text : String) : (utf8Bytes text).length = text.utf8ByteSize := by
  rw [utf8Bytes_eq, length_flatMap_utf8EncodeChar, utf8Length_toList]

theorem utf8Bytes_injective {text text' : String} (h : utf8Bytes text = utf8Bytes text') :
    text = text' := by
  rw [utf8Bytes_eq_data, utf8Bytes_eq_data, Array.toList_inj] at h
  exact String.toByteArray_inj.mp (ByteArray.ext h)

theorem shows_textBytes : Shows textBytes id SizedText := by
  intro text text' rest rest' htext htext' h
  rw [textBytes, textBytes, List.append_assoc, List.append_assoc] at h
  obtain ⟨hsize, h⟩ := shows_lengthBytes htext htext' h
  have hlength : (utf8Bytes text).length = (utf8Bytes text').length := by
    rw [length_utf8Bytes, length_utf8Bytes]
    exact hsize
  obtain ⟨hbytes, hrest⟩ := List.append_inj h hlength
  exact ⟨utf8Bytes_injective hbytes, hrest⟩

theorem shows_optionalBytes :
    Shows optionalBytes (fun text => text.getD "") (∀ text ∈ ·, SizedText text) := by
  intro text text' rest rest' htext htext' h
  have hsized : ∀ text : Option String, (∀ t ∈ text, SizedText t) → SizedText (text.getD "") := by
    rintro (_ | text) htext
    · exact Nat.zero_lt_succ _
    · exact htext text rfl
  exact shows_textBytes (hsized text htext) (hsized text' htext') h

section lists

variable {α β : Type} {bytes : α → List UInt8} {view : α → β} {sized : α → Prop}

theorem Shows.flatMap (h : Shows bytes view sized) {xs ys : List α} {rest rest' : List UInt8}
    (hlength : xs.length = ys.length) (hxs : ∀ x ∈ xs, sized x) (hys : ∀ y ∈ ys, sized y)
    (hbytes : xs.flatMap bytes ++ rest = ys.flatMap bytes ++ rest') :
    xs.map view = ys.map view ∧ rest = rest' := by
  induction xs generalizing ys with
  | nil =>
    obtain rfl := List.eq_nil_of_length_eq_zero hlength.symm
    exact ⟨rfl, hbytes⟩
  | cons x xs ih =>
    cases ys with
    | nil => cases hlength
    | cons y ys =>
      rw [List.forall_mem_cons] at hxs hys
      rw [List.flatMap_cons, List.flatMap_cons, List.append_assoc, List.append_assoc] at hbytes
      obtain ⟨hfirst, hbytes⟩ := h hxs.1 hys.1 hbytes
      obtain ⟨hmore, hrest⟩ := ih (Nat.succ.inj hlength) hxs.2 hys.2 hbytes
      exact ⟨by rw [List.map_cons, List.map_cons, hfirst, hmore], hrest⟩

theorem Shows.listBytes (h : Shows bytes view sized) :
    Shows (listBytes bytes) (List.map view)
      fun xs => xs.length < lengthLimit ∧ ∀ x ∈ xs, sized x := by
  intro xs ys rest rest' hxs hys hbytes
  rw [Tilework.listBytes, Tilework.listBytes, List.append_assoc, List.append_assoc] at hbytes
  obtain ⟨hlength, hbytes⟩ := shows_lengthBytes hxs.1 hys.1 hbytes
  exact h.flatMap hlength hxs.2 hys.2 hbytes

end lists

def Location.filled (l : Location) : Location :=
  { l with invariant := some (l.invariant.getD ""), comment := some (l.comment.getD "") }

def Transition.filled (t : Transition) : Transition :=
  { t with guard := some (t.guard.getD ""), assignment := some (t.assignment.getD "") }

def Tile.filled (tile : Tile) : Tile :=
  { tile with
    parameterBounds := some (tile.parameterBounds.getD "")
    locations := tile.locations.map Location.filled
    transitions := tile.transitions.map Transition.filled }

/-- The lengths of all texts fit into eight bytes. -/
structure Location.Sized (l : Location) : Prop where
  id : SizedText l.id
  invariant : ∀ text ∈ l.invariant, SizedText text
  comment : ∀ text ∈ l.comment, SizedText text

structure Transition.Sized (t : Transition) : Prop where
  id : SizedText t.id
  source : SizedText t.source
  target : SizedText t.target
  guard : ∀ text ∈ t.guard, SizedText text
  assignment : ∀ text ∈ t.assignment, SizedText text

/-- The lengths of all texts and of both lists fit into eight bytes. -/
structure Tile.Sized (tile : Tile) : Prop where
  name : SizedText tile.name
  declaration : SizedText tile.declaration
  parameterBounds : ∀ text ∈ tile.parameterBounds, SizedText text
  locations : tile.locations.length < lengthLimit ∧ ∀ l ∈ tile.locations, l.Sized
  transitions : tile.transitions.length < lengthLimit ∧ ∀ t ∈ tile.transitions, t.Sized

instance (text : String) : Decidable (SizedText text) :=
  inferInstanceAs (Decidable (text.utf8ByteSize < lengthLimit))

instance (l : Location) : Decidable l.Sized :=
  decidable_of_iff (SizedText l.id ∧ (∀ text ∈ l.invariant, SizedText text) ∧
      ∀ text ∈ l.comment, SizedText text)
    ⟨fun ⟨id, invariant, comment⟩ => ⟨id, invariant, comment⟩,
      fun ⟨id, invariant, comment⟩ => ⟨id, invariant, comment⟩⟩

instance (t : Transition) : Decidable t.Sized :=
  decidable_of_iff (SizedText t.id ∧ SizedText t.source ∧ SizedText t.target ∧
      (∀ text ∈ t.guard, SizedText text) ∧ ∀ text ∈ t.assignment, SizedText text)
    ⟨fun ⟨id, source, target, guard, assignment⟩ => ⟨id, source, target, guard, assignment⟩,
      fun ⟨id, source, target, guard, assignment⟩ => ⟨id, source, target, guard, assignment⟩⟩

instance (tile : Tile) : Decidable tile.Sized :=
  decidable_of_iff (SizedText tile.name ∧ SizedText tile.declaration ∧
      (∀ text ∈ tile.parameterBounds, SizedText text) ∧
      (tile.locations.length < lengthLimit ∧ ∀ l ∈ tile.locations, l.Sized) ∧
      (tile.transitions.length < lengthLimit ∧ ∀ t ∈ tile.transitions, t.Sized))
    ⟨fun ⟨name, declaration, bounds, locations, transitions⟩ =>
        ⟨name, declaration, bounds, locations, transitions⟩,
      fun ⟨name, declaration, bounds, locations, transitions⟩ =>
        ⟨name, declaration, bounds, locations, transitions⟩⟩

theorem roleByte_injective {role role' : Option Role} (h : roleByte role = roleByte role') :
    role = role' := by
  rcases role with _ | _ | _ <;> rcases role' with _ | _ | _ <;> simp [roleByte] at h ⊢

theorem shows_location : Shows Location.canonicalBytes Location.filled Location.Sized := by
  intro l l' rest rest' hl hl' h
  simp only [Location.canonicalBytes, List.append_assoc, List.cons_append, List.nil_append] at h
  obtain ⟨hid, h⟩ := shows_textBytes hl.id hl'.id h
  obtain ⟨hinvariant, h⟩ := shows_optionalBytes hl.invariant hl'.invariant h
  obtain ⟨hcomment, h⟩ := shows_optionalBytes hl.comment hl'.comment h
  obtain ⟨hfinal, h⟩ := List.cons.inj h
  obtain ⟨hrole, hrest⟩ := List.cons.inj h
  have hisFinal : l.isFinal = l'.isFinal := by
    cases hleft : l.isFinal <;> cases hright : l'.isFinal <;> simp [hleft, hright] at hfinal ⊢
  refine ⟨?_, hrest⟩
  simp only [id_eq] at hid
  simp only [Location.filled, hid, hinvariant, hcomment, hisFinal, roleByte_injective hrole]

theorem shows_transition : Shows Transition.canonicalBytes Transition.filled Transition.Sized := by
  intro t t' rest rest' ht ht' h
  simp only [Transition.canonicalBytes, List.append_assoc] at h
  obtain ⟨hid, h⟩ := shows_textBytes ht.id ht'.id h
  obtain ⟨hsource, h⟩ := shows_textBytes ht.source ht'.source h
  obtain ⟨htarget, h⟩ := shows_textBytes ht.target ht'.target h
  obtain ⟨hguard, h⟩ := shows_optionalBytes ht.guard ht'.guard h
  obtain ⟨hassignment, hrest⟩ := shows_optionalBytes ht.assignment ht'.assignment h
  refine ⟨?_, hrest⟩
  simp only [id_eq] at hid hsource htarget
  simp only [Transition.filled, hid, hsource, htarget, hguard, hassignment]

theorem shows_tile : Shows Tile.canonicalBytes Tile.filled Tile.Sized := by
  intro t t' rest rest' ht ht' h
  simp only [Tile.canonicalBytes, List.append_assoc] at h
  obtain ⟨hname, h⟩ := shows_textBytes ht.name ht'.name h
  obtain ⟨hdeclaration, h⟩ := shows_textBytes ht.declaration ht'.declaration h
  obtain ⟨hbounds, h⟩ := shows_optionalBytes ht.parameterBounds ht'.parameterBounds h
  obtain ⟨hlocations, h⟩ := shows_location.listBytes ht.locations ht'.locations h
  obtain ⟨htransitions, hrest⟩ := shows_transition.listBytes ht.transitions ht'.transitions h
  refine ⟨?_, hrest⟩
  simp only [id_eq] at hname hdeclaration
  simp only [Tile.filled, hname, hdeclaration, hbounds, hlocations, htransitions]

theorem Tile.canonicalBytes_filled (tile : Tile) :
    tile.filled.canonicalBytes = tile.canonicalBytes := by
  have hlocations : listBytes Location.canonicalBytes (tile.locations.map Location.filled) =
      listBytes Location.canonicalBytes tile.locations := by
    rw [listBytes, listBytes, List.length_map, List.flatMap_map]
    rfl
  have htransitions : listBytes Transition.canonicalBytes (tile.transitions.map Transition.filled) =
      listBytes Transition.canonicalBytes tile.transitions := by
    rw [listBytes, listBytes, List.length_map, List.flatMap_map]
    rfl
  simp only [canonicalBytes, filled, hlocations, htransitions]
  rfl

/-- Two tiles have the same canonical bytes exactly when they are the same once absent texts are
filled in as empty ones. -/
theorem Tile.canonicalBytes_eq_iff {t u : Tile} (ht : t.Sized) (hu : u.Sized) :
    t.canonicalBytes = u.canonicalBytes ↔ t.filled = u.filled := by
  constructor
  · intro h
    have hend : t.canonicalBytes ++ [] = u.canonicalBytes ++ [] := by rw [h]
    exact (shows_tile ht hu hend).1
  · intro h
    rw [← t.canonicalBytes_filled, h, u.canonicalBytes_filled]

def plainRoom : Tile where
  name := "room"
  locations := [{ id := "i", role := some .entry }, { id := "b", comment := some "x = 0" }]

def emptyRoom : Tile := plainRoom.filled

/-- What was set up on entering is asked for as long as one stays. -/
def heldRoom : Tile where
  name := "room"
  locations := [{ id := "i", role := some .entry }, { id := "b", invariant := some "x = 0" }]

theorem Tile.canonicalBytes_eq_iff_room :
    plainRoom.Sized ∧ emptyRoom.Sized ∧ heldRoom.Sized ∧ plainRoom ≠ emptyRoom ∧
      plainRoom.canonicalBytes = emptyRoom.canonicalBytes ∧
      plainRoom.canonicalBytes ≠ heldRoom.canonicalBytes := by
  have hplain : plainRoom.Sized := by decide +kernel
  have hempty : emptyRoom.Sized := by decide +kernel
  have hheld : heldRoom.Sized := by decide +kernel
  have hdiffer : plainRoom.filled ≠ heldRoom.filled := by decide +kernel
  refine ⟨hplain, hempty, hheld, by decide +kernel, ?_, ?_⟩
  · exact (canonicalBytes_eq_iff hplain hempty).mpr (by decide +kernel)
  · exact mt (canonicalBytes_eq_iff hplain hheld).mp hdiffer

end Tilework
