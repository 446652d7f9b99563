import Tilework.Proofs.Skipping

/-!
# Ways of writing a record

A record is written as an object of its fields, in any order and among other members, or as the list
of its fields in their order. Fields that have their defaults may be left out, in a list only when
no field follows. A reader of records finds the same record in all these ways of writing it.
-/

namespace Tilework.Json

variable {α σ : Type}

/-- A field of a record: its key, the ways to write its value, and whether it may be left out. -/
structure Slot where
  key : String
  Spelled : List Element → Prop
  Omittable : Prop

/-- The fields in their order. Those at the end may be left out. -/
inductive FieldList : List Slot → List (List Element) → Prop
  | left {slots : List Slot} (h : ∀ slot ∈ slots, slot.Omittable) : FieldList slots []
  | cons {slot : Slot} {slots : List Slot} {es : List Element} {parts : List (List Element)}
      (hslot : slot.Spelled es) (hrest : FieldList slots parts) :
      FieldList (slot :: slots) (es :: parts)

/-- The ways to write a record with these fields. -/
inductive Record (slots : List Slot) : List Element → Prop
  /-- An object whose members are fields or have other keys. -/
  | object {members : List (String × List Element)}
      (hmembers : ∀ m ∈ members, (∃ slot ∈ slots, m.1 = slot.key ∧ slot.Spelled m.2) ∨
        (∀ slot ∈ slots, m.1 ≠ slot.key) ∧ IsValue m.2)
      (honce : ∀ slot ∈ slots, (members.map Prod.fst).count slot.key ≤ 1)
      (hleft : ∀ slot ∈ slots, slot.key ∈ members.map Prod.fst ∨ slot.Omittable) :
      Record slots (.mark '\x7b' :: separated (members.map memberPart) ++ [.mark '\x7d'])
  | list {parts : List (List Element)} (hrow : FieldList slots parts) :
      Record slots (.mark '[' :: separated parts ++ [.mark ']'])

theorem Record.opens {slots : List Slot} {es : List Element} (h : Record slots es) : Opens es := by
  cases h with
  | object => exact ⟨'\x7b', rfl, rfl, by decide, by decide⟩
  | list => exact ⟨'[', rfl, rfl, by decide, by decide⟩

/-- The field that a column reads, in any way of writing it, and puts among the fields that are
known by the keys of the members read so far. -/
def Column.Reads (column : Column σ) (fields : List String → σ) (slot : Slot) : Prop :=
  column.key = slot.key ∧ (slot.Omittable → column.required = false) ∧
    ∃ value, (∀ es, slot.Spelled es → Json.Reads column.read es value ∧ Starts es) ∧ ∀ keys,
      column.place (fields keys) = (if slot.key ∈ keys then some value else none) ∧
        column.put value (fields keys) = fields (keys ++ [slot.key])

section columns

variable {columns : List (Column σ)} {slots : List Slot} {fields : List String → σ}

theorem reads_readMember (hcolumns : List.Forall₂ (Column.Reads · fields) columns slots)
    (honce : (slots.map Slot.key).Nodup) {slot : Slot} (hslot : slot ∈ slots) {es : List Element}
    (hspelled : slot.Spelled es) {keys : List String} (hnew : slot.key ∉ keys) :
    Json.Reads (readMember columns slot.key (fields keys)) (.mark ':' :: es)
      (fields (keys ++ [slot.key])) := by
  induction hcolumns with
  | nil => cases hslot
  | @cons column head columns slots hcolumn _ ih =>
    obtain ⟨hkey, -, value, hread, hkeep⟩ := hcolumn
    rw [List.map_cons, List.nodup_cons] at honce
    rw [readMember, hkey]
    cases hslot with
    | head =>
      obtain ⟨hplace, hput⟩ := hkeep keys
      rw [if_pos rfl, ← hput]
      rw [if_neg hnew] at hplace
      exact reads_field hplace (hread es hspelled).1 _ (column.put · (fields keys))
    | tail _ hslot =>
      have hother : slot.key ≠ head.key := fun h => honce.1 (h ▸ List.mem_map_of_mem hslot)
      rw [if_neg hother]
      exact ih honce.2 hslot

theorem readMember_unknown (hcolumns : List.Forall₂ (Column.Reads · fields) columns slots)
    {key : String} (hkey : ∀ slot ∈ slots, key ≠ slot.key) (record : σ) :
    readMember columns key record = skipField record := by
  induction hcolumns with
  | nil => rfl
  | cons hcolumn _ ih =>
    rw [List.forall_mem_cons] at hkey
    rw [readMember, hcolumn.1, if_neg hkey.1, ih hkey.2]

/-- What a list of fields is read into: only defaults are missing. -/
theorem readColumns_eq_ok (hcolumns : List.Forall₂ (Column.Reads · fields) columns slots)
    {parts : List (List Element)} (hrow : FieldList slots parts) (expected : String) (index : Nat)
    (keys : List String) {fs : List Element} {cs : List Char}
    (h : Writes (upcoming (index == 0) parts ++ .mark ']' :: fs) cs) :
    ∃ more rest, readColumns expected index columns (fields keys) cs =
        .ok (fields (keys ++ more), rest) ∧
      (∀ slot ∈ slots, slot.key ∈ more ∨ slot.Omittable) ∧ Writes (.mark ']' :: fs) rest := by
  induction hcolumns generalizing parts keys index cs with
  | nil =>
    cases hrow
    exact ⟨[], cs, by rw [readColumns, List.append_nil], List.forall_mem_nil _, by simpa using h⟩
  | @cons column slot columns slots hcolumn _ ih =>
    obtain ⟨-, homittable, value, hread, hkeep⟩ := hcolumn
    cases hrow with
    | left hleft =>
      rw [List.forall_mem_cons] at hleft
      rw [upcoming_nil] at h
      obtain ⟨middle, hnone, hmiddle⟩ := readItem?_close column.read (index == 0) h
      rw [← List.nil_append (.mark ']' :: fs), ← upcoming_nil (index + 1 == 0)] at hmiddle
      obtain ⟨more, rest, hmore, hrest⟩ := ih (.left hleft.2) (index + 1) keys hmiddle
      refine ⟨more, rest, ?_, List.forall_mem_cons.mpr ⟨.inr hleft.1, hrest.1⟩, hrest.2⟩
      simp [readColumns, hnone, homittable hleft.1, hmore, bind, Except.bind]
    | @cons _ _ es parts hslot hrow =>
      obtain ⟨hvalue, hstarts⟩ := hread es hslot
      obtain ⟨middle, hsome, hmiddle⟩ := readItem?_part hvalue hstarts h
      obtain ⟨more, rest, hmore, hrest⟩ := ih hrow (index + 1) (keys ++ [slot.key]) hmiddle
      refine ⟨slot.key :: more, rest, ?_, List.forall_mem_cons.mpr ⟨.inl (.head _), ?_⟩, hrest.2⟩
      · rw [List.append_cons, ← hmore, ← (hkeep keys).2]
        simp [readColumns, hsome, bind, Except.bind]
      · exact fun slot hslot => (hrest.1 slot hslot).imp_left (.tail _)

end columns

/-- What makes a reader of records read `value` from its fields. Members with other keys do not
count. -/
structure ReadsFields (slots : List Slot) (columns : List (Column σ)) (fields : List String → σ)
    (complete : σ → Except DocumentFault α) (value : α) : Prop where
  columns : List.Forall₂ (Column.Reads · fields) columns slots
  once : (slots.map Slot.key).Nodup
  unknown : ∀ key keys, (∀ slot ∈ slots, key ≠ slot.key) → fields (keys ++ [key]) = fields keys
  complete : ∀ keys, (∀ slot ∈ slots, slot.key ∈ keys ∨ slot.Omittable) →
    complete (fields keys) = .ok value

namespace ReadsFields

variable {slots : List Slot} {columns : List (Column σ)} {fields : List String → σ}
  {complete : σ → Except DocumentFault α} {value : α}

theorem builds (hreads : ReadsFields slots columns fields complete value)
    {members : List (String × List Element)}
    (hmembers : ∀ m ∈ members, (∃ slot ∈ slots, m.1 = slot.key ∧ slot.Spelled m.2) ∨
      (∀ slot ∈ slots, m.1 ≠ slot.key) ∧ IsValue m.2) (keys : List String)
    (honce : ∀ slot ∈ slots, (keys ++ members.map Prod.fst).count slot.key ≤ 1) :
    Builds (readMember columns) (fields keys) members
      (fields (keys ++ members.map Prod.fst)) := by
  induction members generalizing keys with
  | nil => simpa using Builds.nil (fields keys)
  | cons m members ih =>
    rw [List.forall_mem_cons] at hmembers
    obtain ⟨hm, hmembers⟩ := hmembers
    rw [List.map_cons, List.append_cons] at honce ⊢
    refine .cons ?_ (ih hmembers _ honce)
    rcases hm with ⟨slot, hslot, hkey, hspelled⟩ | ⟨hkey, hvalue⟩
    · have hnew : slot.key ∉ keys := by
        have hcount := honce slot hslot
        rw [hkey, List.count_append, List.count_append, List.count_singleton_self] at hcount
        exact List.count_eq_zero.mp (by omega)
      rw [hkey]
      exact reads_readMember hreads.columns hreads.once hslot hspelled hnew
    · rw [readMember_unknown hreads.columns hkey, hreads.unknown m.1 keys hkey]
      exact hvalue.reads_skipField (fields keys)

/-- A record is read from every way of writing it. -/
theorem reads (hreads : ReadsFields slots columns fields complete value) {es : List Element}
    (h : Record slots es) (expected : String) :
    Reads (readRecord expected (fields []) columns complete) es value := by
  cases h with
  | object hmembers honce hleft =>
    exact reads_record (hreads.builds hmembers [] honce) (hreads.complete _ hleft) expected
  | list hrow =>
    intro fs cs _ h
    simp only [List.cons_append, List.append_assoc, List.nil_append] at h
    obtain ⟨cs', hskip, hbody⟩ := h.mark rfl
    obtain ⟨keys, middle, hfields, hkeys, hmiddle⟩ :=
      readColumns_eq_ok hreads.columns hrow s!"{expected} with {columns.length} elements" 0 [] hbody
    obtain ⟨rest, hclose, hrest⟩ := closing_eq_ok rfl hmiddle
    refine ⟨rest, ?_, hrest⟩
    simp only [readRecord, hskip, hfields, List.nil_append, hreads.complete keys hkeys, hclose,
      bind, Except.bind, pure, Except.pure]

end ReadsFields

def IsText (value : String) (es : List Element) : Prop := es = [.text value]

def IsBool (value : Bool) (es : List Element) : Prop := es = (Value.bool value).elements

def IsOptional (Written : α → List Element → Prop) : Option α → List Element → Prop
  | none, es => es = Value.null.elements
  | some value, es => Written value es

def IsList (Written : α → List Element → Prop) (values : List α) (es : List Element) : Prop :=
  ∃ parts, List.Forall₂ (fun part value => Written value part) parts values ∧
    es = .mark '[' :: separated parts ++ [.mark ']']

theorem IsText.opens {value : String} {es : List Element} (h : IsText value es) :
    Reads readText es value ∧ Opens es := by
  obtain rfl := h
  exact ⟨reads_text value, '"', rfl, rfl, by decide, by decide⟩

theorem IsText.reads {value : String} {es : List Element} (h : IsText value es) :
    Reads readText es value ∧ Starts es :=
  h.opens.imp_right Opens.starts

theorem IsBool.reads {value : Bool} {es : List Element} (h : IsBool value es) :
    Reads readBool es value ∧ Starts es := by
  obtain rfl := h
  refine ⟨reads_bool value, ?_⟩
  cases value with
  | true => exact ⟨'t', rfl, rfl, by decide⟩
  | false => exact ⟨'f', rfl, rfl, by decide⟩

variable {Written : α → List Element → Prop} {read : Reader α}

theorem IsOptional.reads {value : Option α} {es : List Element}
    (hwritten : ∀ value es, Written value es → Reads read es value ∧ Opens es)
    (h : IsOptional Written value es) : Reads (readOptional read) es value ∧ Starts es := by
  cases value with
  | none =>
    obtain rfl := h
    exact ⟨reads_none read, 'n', rfl, rfl, by decide⟩
  | some value =>
    obtain ⟨hread, hopens⟩ := hwritten value es h
    exact ⟨reads_some hread hopens, hopens.starts⟩

theorem IsList.reads {values : List α} {es : List Element}
    (hwritten : ∀ value es, Written value es → Reads read es value ∧ Starts es)
    (h : IsList Written values es) : Reads (readList read) es values ∧ Starts es := by
  obtain ⟨parts, hparts, rfl⟩ := h
  refine ⟨reads_list (hparts.imp fun part value => hwritten value part), ?_⟩
  exact ⟨'[', rfl, rfl, by decide⟩

end Tilework.Json
