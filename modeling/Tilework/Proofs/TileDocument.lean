import Mathlib.Data.List.Nodup
import Tilework.Proofs.TileSpelling

/-!
# Documents of tiles

The document of a tile is read as that tile again, however it is laid out. A field is left out
exactly when it has the value that a missing field is read as, so a text that is there and empty is
told apart from one that is not there. The documents that are written are among all those for a
tile, and a tile is read from any of these.
-/

namespace Tilework

open Json

namespace Json

variable {α : Type}

def memberParts (members : List (String × Value)) : List (String × List Element) :=
  members.map fun (key, v) => (key, v.elements)

theorem keys_memberParts (members : List (String × Value)) :
    (memberParts members).map Prod.fst = members.map Prod.fst := by
  rw [memberParts, List.map_map]
  rfl

theorem Value.memberElements_eq (members : List (String × Value)) :
    memberElements members = (memberParts members).map memberPart := by
  induction members with
  | nil => rfl
  | cons m ms ih => rw [memberElements, ih]; rfl

/-- What is written for a field: one of its values, or nothing when it may be left out. -/
def Slot.Allows (slot : Slot) : Option Value → Prop
  | some v => slot.Spelled v.elements
  | none => slot.Omittable

/-- The members of the fields that are not left out, in the order of the fields. -/
def writtenMembers (slots : List Slot) (values : List (Option Value)) : List (String × Value) :=
  (List.zipWith (fun slot v => (v.map (slot.key, ·)).toList) slots values).flatten

section written

variable {slots : List Slot} {values : List (Option Value)}

theorem mem_writtenMembers (h : List.Forall₂ Slot.Allows slots values) :
    ∀ m ∈ writtenMembers slots values,
      ∃ slot ∈ slots, m.1 = slot.key ∧ slot.Spelled m.2.elements := by
  induction h with
  | nil => exact List.forall_mem_nil _
  | @cons slot v slots values hslot _ ih =>
    intro m hm
    rcases List.mem_append.mp hm with hm | hm
    · obtain ⟨w, rfl, rfl⟩ := Option.map_eq_some_iff.mp (Option.mem_toList.mp hm)
      exact ⟨slot, .head _, rfl, hslot⟩
    · obtain ⟨other, hother, hm⟩ := ih m hm
      exact ⟨other, .tail _ hother, hm⟩

theorem keys_writtenMembers (h : List.Forall₂ Slot.Allows slots values) :
    ((writtenMembers slots values).map Prod.fst).Sublist (slots.map Slot.key) := by
  induction h with
  | nil => exact List.Sublist.slnil
  | @cons slot v slots values _ _ ih =>
    cases v with
    | none => exact ih.cons _
    | some v => exact ih.cons_cons _

theorem allowed_writtenMembers (h : List.Forall₂ Slot.Allows slots values) :
    ∀ slot ∈ slots, slot.key ∈ (writtenMembers slots values).map Prod.fst ∨ slot.Omittable := by
  induction h with
  | nil => exact List.forall_mem_nil _
  | @cons slot v slots values hslot _ ih =>
    cases v with
    | none => exact List.forall_mem_cons.mpr ⟨.inr hslot, ih⟩
    | some v =>
      refine List.forall_mem_cons.mpr ⟨.inl (.head _), fun other hother => ?_⟩
      exact (ih other hother).imp_left (.tail _)

/-- An object of fields with different keys is a way to write a record, when only defaults are left
out. -/
theorem record_writtenMembers (h : List.Forall₂ Slot.Allows slots values)
    (honce : (slots.map Slot.key).Nodup) :
    Record slots (Value.object (writtenMembers slots values)).elements := by
  have hleft := allowed_writtenMembers h
  have hkeys := (keys_writtenMembers h).nodup honce
  rw [Value.elements, Value.memberElements_eq]
  rw [← keys_memberParts] at hkeys hleft
  refine .object (List.forall_mem_map.mpr fun m hm => Or.inl (mem_writtenMembers h m hm)) ?_ hleft
  exact fun slot _ => List.nodup_iff_count_le_one.mp hkeys slot.key

end written

theorem allows_optional {Written : α → List Element → Prop} {write : α → Value}
    (h : ∀ value, Written value (write value).elements) (key : String) (value : Option α) :
    Slot.Allows ⟨key, IsOptional Written value, value = none⟩ (value.map write) := by
  cases value with
  | none => rfl
  | some value => exact h value

theorem isText_text (value : String) : IsText value (Value.text value).elements := rfl

theorem optionalMember_eq (key : String) (value : Option String) :
    optionalMember key value = ((value.map Value.text).map (key, ·)).toList := by
  cases value <;> rfl

theorem isList_map {Written : α → List Element → Prop} {write : α → Value} (values : List α)
    (h : ∀ value, Written value (write value).elements) :
    IsList Written values (Value.list (values.map write)).elements := by
  refine ⟨values.map fun value => (write value).elements, ?_, ?_⟩
  · exact List.forall₂_map_left_iff.mpr (List.forall₂_same.mpr fun value _ => h value)
  · rw [Value.elements, Value.itemElements_eq, List.map_map]
    rfl

end Json

theorem isRole_text (role : Role) : IsRole role (Value.text role.name).elements := rfl

theorem Location.record_toValue (l : Location) : Record l.slots l.toValue.elements := by
  have hvalues : List.Forall₂ Slot.Allows l.slots
      [some (.text l.id), l.invariant.map .text, l.comment.map .text,
        if l.isFinal then some (.bool true) else none, l.role.map (.text ∘ Role.name)] := by
    refine .cons rfl (.cons (allows_optional isText_text _ _)
      (.cons (allows_optional isText_text _ _) (.cons ?_
        (.cons (allows_optional isRole_text _ _) .nil))))
    cases l.isFinal <;> simp [Slot.Allows, IsBool]
  convert record_writtenMembers hvalues (by simp [slots]) using 2
  cases h : l.isFinal <;> simp [toValue, writtenMembers, slots, optionalMember_eq, h]

theorem Transition.record_toValue (t : Transition) : Record t.slots t.toValue.elements := by
  have hvalues : List.Forall₂ Slot.Allows t.slots
      [some (.text t.id), some (.text t.source), some (.text t.target), t.guard.map .text,
        t.assignment.map .text] :=
    .cons rfl (.cons rfl (.cons rfl (.cons (allows_optional isText_text _ _)
      (.cons (allows_optional isText_text _ _) .nil))))
  convert record_writtenMembers hvalues (by simp [slots]) using 2
  simp [toValue, writtenMembers, slots, optionalMember_eq]

namespace Tile

theorem record_toValue (tile : Tile) : Record tile.slots tile.toValue.elements := by
  have hvalues : List.Forall₂ Slot.Allows tile.slots
      [some (.text tile.name),
        if tile.declaration = "" then none else some (.text tile.declaration),
        tile.parameterBounds.map .text, some (.list (tile.locations.map Location.toValue)),
        some (.list (tile.transitions.map Transition.toValue))] := by
    refine .cons rfl (.cons ?_ (.cons (allows_optional isText_text _ _)
      (.cons (isList_map _ Location.record_toValue)
        (.cons (isList_map _ Transition.record_toValue) .nil))))
    split
    · assumption
    · rfl
  convert record_writtenMembers hvalues (by simp [slots]) using 2
  by_cases h : tile.declaration = "" <;>
    simp [toValue, writtenMembers, slots, optionalMember_eq, h]

theorem reads_toValue (tile : Tile) : Reads read tile.toValue.elements tile :=
  reads_record tile.record_toValue

/-- A tile is read from its own document, compact or over several lines. So different tiles have
different documents, also when they differ only in a text that is empty in one of them and not there
in the other. -/
theorem ofDocument_toValue (tile : Tile) :
    ofDocument (String.ofList tile.toValue.compact) = .ok tile ∧
      (∀ depth, ofDocument (String.ofList (tile.toValue.pretty depth)) = .ok tile) ∧
      ∀ other : Tile, (tile.toValue.compact = other.toValue.compact ↔ tile = other) ∧
        ∀ depth, tile.toValue.pretty depth = other.toValue.pretty depth ↔ tile = other := by
  have hcompact (tile : Tile) : ofDocument (String.ofList tile.toValue.compact) = .ok tile := by
    refine readAll_eq_ok tile.reads_toValue ?_
    simpa using Value.writes_compact tile.toValue .done
  have hpretty (tile : Tile) (depth : Nat) :
      ofDocument (String.ofList (tile.toValue.pretty depth)) = .ok tile := by
    refine readAll_eq_ok tile.reads_toValue ?_
    simpa using Value.writes_pretty depth tile.toValue .done
  refine ⟨hcompact tile, hpretty tile, fun other => ⟨⟨fun h => ?_, fun h => by rw [h]⟩,
    fun depth => ⟨fun h => ?_, fun h => by rw [h]⟩⟩⟩
  · have hsame := hcompact tile
    rw [h, hcompact other] at hsame
    exact (Except.ok.inj hsame).symm
  · have hsame := hpretty tile depth
    rw [h, hpretty other] at hsame
    exact (Except.ok.inj hsame).symm

example :
    String.ofList ({ name := "a\n", parameterBounds := some "" } : Tile).toValue.compact =
      "\x7b\"name\":\"a\\n\",\"parameter_bounds\":\"\"," ++
        "\"locations\":[],\"transitions\":[]\x7d" := by
  decide

/-- The documents that are written are documents for the tile, and it does not matter for reading
how a document for a tile is written. -/
theorem ofDocument_of_documents (tile : Tile) :
    tile.Documents tile.toValue.compact ∧ (∀ depth, tile.Documents (tile.toValue.pretty depth)) ∧
      ∀ cs, tile.Documents cs → ofDocument (String.ofList cs) = .ok tile := by
  refine ⟨⟨_, tile.record_toValue, ?_⟩, fun depth => ⟨_, tile.record_toValue, ?_⟩, ?_⟩
  · simpa using Value.writes_compact tile.toValue .done
  · simpa using Value.writes_pretty depth tile.toValue .done
  · rintro cs ⟨es, hrecord, hwrites⟩
    exact readAll_eq_ok (reads_record hrecord) hwrites

def mixedTile : Tile where
  name := "n"
  locations := [{ id := "q", isFinal := true }, { id := "p", role := some .entry }]

/-- The tile as a list without its transitions. The first location is a list without its role. The
second is an object with a member that is skipped: a number that is out of range and half of a
surrogate pair. -/
def mixedDocument : String :=
  "[\"\\u006e\",\"\", null,[[\"q\",null,null,true],\x7b\"x\":[1e999,\"\\ud800\"]," ++
    "\"role\":\"in\",\"id\":\"p\"\x7d]]"

def mixedNumeral : List Char := ['1', 'e', '9', '9', '9']

def mixedString : List Char := ['"', '\\', 'u', 'd', '8', '0', '0', '"']

def mixedValue : List Element :=
  .mark '[' :: separated [[.word mixedNumeral], [.word mixedString]] ++ [.mark ']']

def mixedList : List Element :=
  .mark '[' :: separated [[.text "q"], Value.null.elements, Value.null.elements,
    (Value.bool true).elements] ++ [.mark ']']

def mixedObject : List Element :=
  .mark '\x7b' :: separated ([("x", mixedValue), ("role", [.text "in"]),
    ("id", [.text "p"])].map memberPart) ++ [.mark '\x7d']

def mixedElements : List Element :=
  .mark '[' :: separated [[.text "n"], [.text ""], Value.null.elements,
    .mark '[' :: separated [mixedList, mixedObject] ++ [.mark ']']] ++ [.mark ']']

theorem isValue_mixedValue : IsValue mixedValue := by
  have hexponent : Exponent ('e' :: ([] ++ ['9', '9', '9'])) _ :=
    .written (Or.inl rfl) .absent (by simp [IsDigits]) (List.cons_ne_nil _ _)
  have hnumeral : PlainNumeral (['1'] ++ ([] ++ ('e' :: ([] ++ ['9', '9', '9'])))) :=
    .mk (.digits rfl (by decide) (List.forall_mem_nil _)) .absent hexponent
  have hbody : StringBody ('\\' :: 'u' :: (['d', '8', '0', '0'] ++ [])) :=
    .unit (.digits rfl rfl rfl rfl) .nil
  refine .list (List.forall_mem_cons.mpr ⟨.plain hnumeral, ?_⟩)
  exact List.forall_mem_cons.mpr ⟨.text hbody, List.forall_mem_nil _⟩

theorem record_mixedElements : Record mixedTile.slots mixedElements := by
  have hlist : Record (Location.slots { id := "q", isFinal := true }) mixedList :=
    .list (.cons rfl (.cons rfl (.cons rfl (.cons rfl (.left (by simp))))))
  have hobject : Record (Location.slots { id := "p", role := some .entry }) mixedObject := by
    refine .object ?_ (by simp [Location.slots]) (by simp [Location.slots])
    simp only [List.forall_mem_cons]
    refine ⟨Or.inr ⟨by simp [Location.slots], isValue_mixedValue⟩, ?_, ?_, List.forall_mem_nil _⟩
    · exact Or.inl ⟨_, .tail _ (.tail _ (.tail _ (.tail _ (.head _)))), rfl, rfl⟩
    · exact Or.inl ⟨_, .head _, rfl, rfl⟩
  exact .list (.cons rfl (.cons rfl (.cons rfl
    (.cons ⟨_, .cons hlist (.cons hobject .nil), rfl⟩ (.left (by simp [mixedTile]))))))

theorem writes_mixedElements : Writes mixedElements mixedDocument.toList := by
  have hunit : CodeUnit ['0', '0', '6', 'e'] (16 * (16 * (16 * 0 + 0) + 6) + 14) :=
    .digits rfl rfl rfl rfl
  have hname : (Element.text "n").Spelled _ := ⟨_, .cons (.unit hunit) .nil, rfl⟩
  have hmembers := ((((((((((Writes.done.cons_mark ']').cons_mark ']').cons_mark
    '\x7d').append_quote "p").cons_mark ':').append_quote "id").cons_mark ',').append_quote
    "in").cons_mark ':').append_quote "role").cons_mark ','
  have hobject := (((((((hmembers.cons_mark ']').append_word mixedString).cons_mark
    ',').append_word mixedNumeral).cons_mark '[').cons_mark ':').append_quote "x").cons_mark '\x7b'
  have hlist := (((((((((hobject.cons_mark ',').cons_mark ']').append_word
    "true".toList).cons_mark ',').append_word "null".toList).cons_mark ',').append_word
    "null".toList).cons_mark ',').append_quote "q").cons_mark '['
  have hlocations := ((hlist.cons_mark '[').cons_mark ',').append_word "null".toList
  have hnull := Writes.blank (c := ' ') rfl hlocations
  exact (Writes.element hname (((hnull.cons_mark ',').append_quote "").cons_mark ',')).cons_mark '['

theorem ofDocument_of_documents_mixed :
    mixedTile.Documents mixedDocument.toList ∧ ofDocument mixedDocument = .ok mixedTile := by
  have hdocuments : mixedTile.Documents mixedDocument.toList :=
    ⟨_, record_mixedElements, writes_mixedElements⟩
  have hread := (ofDocument_of_documents mixedTile).2.2 _ hdocuments
  rw [String.ofList_toList] at hread
  exact ⟨hdocuments, hread⟩

end Tile

end Tilework
