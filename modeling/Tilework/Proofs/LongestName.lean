import Tilework.Proofs.Bytes
import Tilework.Proofs.Registration

/-!
# Histories of a catalog

Names are registered one after another, and a registration that fails leaves no trace. So a catalog
has the names of its history, each in the class that it was first registered in, the longest ones
first and those of one length in the order of their bytes. The name that it finds at the beginning
of a text is the longest one there is. If all registrations succeed, their order is of no account.
-/

namespace Tilework

theorem toNat_lt_of_isNameChar {c : Char} (h : isNameChar c = true) : c.toNat < 128 := by
  simp only [isNameChar, Bool.or_eq_true, beq_iff_eq] at h
  rcases h with ((h | rfl) | rfl) | rfl
  · delta Char.isAlphanum Char.isAlpha Char.isUpper Char.isLower Char.isDigit at h
    simp only [Bool.or_eq_true, Bool.and_eq_true, decide_eq_true_eq, UInt32.le_iff_toNat_le] at h
    have hval : c.val.toNat = c.toNat := rfl
    have hupper : 'Z'.val.toNat = 90 := rfl
    have hlower : 'z'.val.toNat = 122 := rfl
    have hdigit : '9'.val.toNat = 57 := rfl
    omega
  · decide
  · decide
  · decide

theorem utf8EncodeChar_of_isNameChar {c : Char} (h : isNameChar c = true) :
    String.utf8EncodeChar c = [UInt8.ofNat c.toNat] := by
  have hshort := toNat_lt_of_isNameChar h
  have hval : c.val.toNat = c.toNat := rfl
  rw [String.utf8EncodeChar.eq_1]
  simp only [hval]
  rw [if_pos (by omega)]

theorem flatMap_utf8EncodeChar_lt_iff {cs ds : List Char} (hcs : ∀ c ∈ cs, isNameChar c = true)
    (hds : ∀ d ∈ ds, isNameChar d = true) :
    cs.flatMap String.utf8EncodeChar < ds.flatMap String.utf8EncodeChar ↔ cs < ds := by
  induction cs generalizing ds with
  | nil =>
    cases ds with
    | nil => simp
    | cons d ds =>
      rw [List.forall_mem_cons] at hds
      simp [utf8EncodeChar_of_isNameChar hds.1]
  | cons c cs ih =>
    rw [List.forall_mem_cons] at hcs
    cases ds with
    | nil => simp
    | cons d ds =>
      rw [List.forall_mem_cons] at hds
      have hc := toNat_lt_of_isNameChar hcs.1
      have hd := toNat_lt_of_isNameChar hds.1
      have hlt : UInt8.ofNat c.toNat < UInt8.ofNat d.toNat ↔ c < d := by
        rw [UInt8.lt_iff_toNat_lt, UInt8.toNat_ofNat', UInt8.toNat_ofNat', Char.lt_def,
          UInt32.lt_iff_toNat_lt, Nat.mod_eq_of_lt (by omega), Nat.mod_eq_of_lt (by omega)]
        rfl
      have heq : UInt8.ofNat c.toNat = UInt8.ofNat d.toNat ↔ c = d := by
        rw [← UInt8.toNat_inj, UInt8.toNat_ofNat', UInt8.toNat_ofNat',
          Nat.mod_eq_of_lt (by omega), Nat.mod_eq_of_lt (by omega), Char.toNat_inj]
      rw [List.flatMap_cons, List.flatMap_cons, utf8EncodeChar_of_isNameChar hcs.1,
        utf8EncodeChar_of_isNameChar hds.1, List.singleton_append, List.singleton_append,
        List.cons_lt_cons_iff, List.cons_lt_cons_iff, hlt, heq, ih hcs.2 hds.2]

namespace Catalog

/-- Of two names the longer one precedes, or the one with the lesser bytes. -/
theorem precedes_iff_utf8Bytes {a b : String} (ha : isName a.toList) (hb : isName b.toList) :
    precedes a b ↔ b.utf8ByteSize < a.utf8ByteSize ∨
      a.utf8ByteSize = b.utf8ByteSize ∧ utf8Bytes a < utf8Bytes b := by
  have hchars {name : String} (h : isName name.toList) : ∀ c ∈ name.toList, isNameChar c = true :=
    List.all_eq_true.mp (Bool.and_eq_true_iff.mp h).1
  rw [precedes_iff, utf8Bytes_eq, utf8Bytes_eq,
    flatMap_utf8EncodeChar_lt_iff (hchars ha) (hchars hb), String.lt_iff]

/-- What registering a name answers, and the catalog behind it. A fault leaves the catalog as it
was. -/
def register (catalog : Catalog) (entry : String × TileClass) :
    Except CatalogFault Unit × Catalog :=
  match catalog.insert entry.1 entry.2 with
  | .ok after => (.ok (), after)
  | .error fault => (.error fault, catalog)

/-- Register names one after another, going on behind faults: all answers, and the catalog at the
end. -/
def registerEach (catalog : Catalog) :
    List (String × TileClass) → List (Except CatalogFault Unit) × Catalog
  | [] => ([], catalog)
  | entry :: history =>
    let (answer, middle) := catalog.register entry
    let (answers, after) := middle.registerEach history
    (answer :: answers, after)

/-- The class in which a history registers a text first, if that is a name. -/
def registered? (history : List (String × TileClass)) (name : String) : Option TileClass :=
  if isName name.toList then (history.find? (·.1 = name)).map (·.2) else none

variable {catalog catalog' : Catalog} {history : List (String × TileClass)}
  {entry : String × TileClass} {name : String} {cls : TileClass}

theorem registered?_cons :
    registered? (entry :: history) name =
      (registered? [entry] name).or (registered? history name) := by
  by_cases hname : isName name.toList
  · by_cases hentry : entry.1 = name <;> simp [registered?, hname, hentry]
  · simp [registered?, hname]

theorem isName_of_registered? (h : registered? history name = some cls) : isName name.toList := by
  by_contra hname
  simp [registered?, hname] at h

theorem Ordered.register (h : catalog.Ordered) (entry : String × TileClass) :
    (catalog.register entry).2.Ordered := by
  rw [Catalog.register]
  split
  · next after hinsert => exact h.insert hinsert
  · exact h

theorem Ordered.registerEach (h : catalog.Ordered) (history : List (String × TileClass)) :
    (catalog.registerEach history).2.Ordered := by
  induction history generalizing catalog with
  | nil => exact h
  | cons entry history ih => exact ih (h.register entry)

theorem register_eq (catalog : Catalog) (name : String) (cls : TileClass) :
    catalog.register (name, cls) =
      if isName name.toList then
        match catalog.classOf? name with
        | none => (.ok (), ⟨insertEntry (name, cls) catalog.entries⟩)
        | some existing =>
          (if existing = cls then .ok () else .error (.duplicate name existing cls), catalog)
      else (.error (.invalidName name), catalog) := by
  rw [register, insert]
  by_cases hname : isName name.toList
  · rw [if_pos hname, if_pos hname]
    cases catalog.classOf? name with
    | none => rfl
    | some existing => by_cases hsame : existing = cls <;> simp [hsame]
  · rw [if_neg hname, if_neg hname]

theorem Ordered.classOf?_register (h : catalog.Ordered) (entry : String × TileClass)
    (name : String) :
    (catalog.register entry).2.classOf? name =
      (catalog.classOf? name).or (registered? [entry] name) := by
  obtain ⟨key, cls⟩ := entry
  have hafter := h.register (key, cls)
  rw [register_eq] at hafter ⊢
  by_cases hkey : isName key.toList
  · rw [if_pos hkey] at hafter ⊢
    cases hclass : catalog.classOf? key with
    | none =>
      rw [hclass] at hafter
      ext existing
      rw [hafter.classOf?_eq_some, mem_insertEntry, ← h.classOf?_eq_some]
      by_cases hname : key = name
      · subst hname
        simp [registered?, hkey, hclass, eq_comm]
      · simp [registered?, hname, Ne.symm hname]
    | some existing =>
      by_cases hname : key = name
      · subst hname
        simp [hclass]
      · simp [registered?, hname]
  · rw [if_neg hkey]
    by_cases hname : key = name
    · subst hname
      simp [registered?, hkey]
    · simp [registered?, hname]

theorem Ordered.classOf?_registerEach (h : catalog.Ordered) (history : List (String × TileClass))
    (name : String) :
    (catalog.registerEach history).2.classOf? name =
      (catalog.classOf? name).or (registered? history name) := by
  induction history generalizing catalog with
  | nil => simp [Catalog.registerEach, registered?]
  | cons entry history ih =>
    rw [registered?_cons, ← Option.or_assoc, ← h.classOf?_register]
    exact ih (h.register entry)

/-- All registrations of a history succeed. -/
def Succeeds (history : List (String × TileClass)) : Prop :=
  ∀ answer ∈ (({} : Catalog).registerEach history).1, answer = .ok ()

theorem insertAll_eq_ok_iff_registerEach :
    catalog.insertAll history = .ok catalog' ↔
      (∀ answer ∈ (catalog.registerEach history).1, answer = .ok ()) ∧
        (catalog.registerEach history).2 = catalog' := by
  induction history generalizing catalog with
  | nil => simp [insertAll, registerEach, pure, Except.pure]
  | cons entry history ih =>
    obtain ⟨name, cls⟩ := entry
    rw [insertAll_cons_eq_ok]
    cases hinsert : catalog.insert name cls with
    | error fault => simp [registerEach, register, hinsert]
    | ok middle => simp [registerEach, register, hinsert, ih]

/-- Whether all registrations succeed does not depend on their order, and if they do the catalog
does not either. -/
theorem registerEach_perm {history' : List (String × TileClass)} (h : history'.Perm history)
    (hsucceeds : Succeeds history) :
    Succeeds history' ∧
      (({} : Catalog).registerEach history').2 = (({} : Catalog).registerEach history).2 := by
  have hall := insertAll_eq_ok_iff_registerEach.mpr ⟨hsucceeds, rfl⟩
  rw [insertAll_eq_ok_iff] at hall
  refine insertAll_eq_ok_iff_registerEach.mp (insertAll_eq_ok_iff.mpr ⟨hall.1, fun e => ?_⟩)
  rw [hall.2 e, h.mem_iff]

/-- What a catalog has to do with the history that made it. -/
structure Records (history : List (String × TileClass)) (catalog : Catalog) : Prop where
  /-- Longer names stand first, names of one length in the order of their bytes. -/
  sorted : catalog.names.Pairwise fun a b => b.utf8ByteSize < a.utf8ByteSize ∨
    a.utf8ByteSize = b.utf8ByteSize ∧ utf8Bytes a < utf8Bytes b
  mem_names : ∀ name, name ∈ catalog.names ↔ ∃ cls, registered? history name = some cls
  classOf?_eq : ∀ name, catalog.classOf? name = registered? history name
  /-- The next registration fails for a text that is no name, or for a name of another class. -/
  register_eq_error : ∀ name cls fault, (catalog.register (name, cls)).1 = .error fault ↔
    ¬ isName name.toList ∧ fault = .invalidName name ∨
      ∃ existing, registered? history name = some existing ∧ existing ≠ cls ∧
        fault = .duplicate name existing cls
  /-- A registration that fails changes nothing. -/
  register_unchanged : ∀ entry, (catalog.register entry).1 ≠ .ok () →
    (catalog.register entry).2 = catalog
  /-- Of the names that start a text, the one that is found is longer than all others. -/
  longestPrefix?_eq_some : ∀ text name cls, catalog.longestPrefix? text = some (name, cls) ↔
    registered? history name = some cls ∧ name.toList <+: text ∧
      ∀ other cls', registered? history other = some cls' → other.toList <+: text →
        other = name ∨ other.utf8ByteSize < name.utf8ByteSize
  longestPrefix?_eq_none : ∀ text, catalog.longestPrefix? text = none ↔
    ∀ name cls, registered? history name = some cls → ¬ name.toList <+: text

theorem Ordered.mem_names (h : catalog.Ordered) :
    name ∈ catalog.names ↔ ∃ cls, catalog.classOf? name = some cls := by
  simp [Catalog.names, h.classOf?_eq_some]

theorem Ordered.sorted_names (h : catalog.Ordered) :
    catalog.names.Pairwise fun a b => b.utf8ByteSize < a.utf8ByteSize ∨
      a.utf8ByteSize = b.utf8ByteSize ∧ utf8Bytes a < utf8Bytes b := by
  rw [Catalog.names, List.pairwise_map]
  refine h.sorted.imp_of_mem fun ha hb hprecedes => ?_
  exact (precedes_iff_utf8Bytes (h.names _ ha) (h.names _ hb)).mp hprecedes

theorem Ordered.longestPrefix?_iff (h : catalog.Ordered) {text : List Char} :
    catalog.longestPrefix? text = some (name, cls) ↔
      catalog.classOf? name = some cls ∧ name.toList <+: text ∧
        ∀ other cls', catalog.classOf? other = some cls' → other.toList <+: text →
          other = name ∨ other.utf8ByteSize < name.utf8ByteSize := by
  simp only [h.longestPrefix?_eq_some, h.classOf?_eq_some]
  refine and_congr_right fun _ => and_congr_right fun hstart => ⟨?_, ?_⟩
  · intro hlongest other cls' hmem hother
    have hsize := hlongest (other, cls') hmem hother
    by_cases heq : other.utf8ByteSize = name.utf8ByteSize
    · exact Or.inl (prefix_inj hother hstart heq)
    · exact Or.inr (Nat.lt_of_le_of_ne hsize heq)
  · rintro hlongest ⟨other, cls'⟩ hmem hother
    rcases hlongest other cls' hmem hother with rfl | hsize
    · exact Nat.le_refl _
    · exact Nat.le_of_lt hsize

theorem Ordered.longestPrefix?_eq_none (h : catalog.Ordered) {text : List Char} :
    catalog.longestPrefix? text = none ↔
      ∀ name cls, catalog.classOf? name = some cls → ¬ name.toList <+: text := by
  simp [longestPrefix?, List.find?_eq_none, h.classOf?_eq_some]

theorem register_unchanged (catalog : Catalog) (entry : String × TileClass)
    (h : (catalog.register entry).1 ≠ .ok ()) : (catalog.register entry).2 = catalog := by
  rw [register] at h ⊢
  split
  · next after hinsert => simp [hinsert] at h
  · rfl

theorem register_eq_error {fault : CatalogFault} :
    (catalog.register (name, cls)).1 = .error fault ↔
      ¬ isName name.toList ∧ fault = .invalidName name ∨
        isName name.toList ∧ ∃ existing, catalog.classOf? name = some existing ∧ existing ≠ cls ∧
          fault = .duplicate name existing cls := by
  rw [register_eq]
  by_cases hname : isName name.toList
  · cases hclass : catalog.classOf? name with
    | none => simp [hname]
    | some existing =>
      by_cases hsame : existing = cls
      · simp [hname, hsame]
      · simp only [hname, hsame, if_true, if_false, Except.error.injEq, not_true, false_and,
          false_or, true_and, Option.some.injEq, exists_eq_left']
        exact ⟨fun h => ⟨hsame, h.symm⟩, fun h => h.2.symm⟩
  · simp [hname, eq_comm]

/-- A catalog has exactly what its history registered, in the order of length and of bytes. It finds
the longest name that starts a text, and a registration that fails leaves it as it was. Whether some
registration of a history fails does not depend on their order, and if none does neither does the
catalog. -/
theorem records_registerEach (history : List (String × TileClass)) :
    Records history (({} : Catalog).registerEach history).2 ∧
      ∀ history' : List (String × TileClass), history'.Perm history →
        Succeeds history ∧ Succeeds history' ∧
            (({} : Catalog).registerEach history').2 = (({} : Catalog).registerEach history).2 ∨
          ¬ Succeeds history ∧ ¬ Succeeds history' := by
  have hempty : ({} : Catalog).Ordered := ⟨List.Pairwise.nil, by simp⟩
  have hordered := hempty.registerEach history
  have hclass (name : String) :
      (({} : Catalog).registerEach history).2.classOf? name = registered? history name := by
    rw [hempty.classOf?_registerEach]
    rfl
  refine ⟨?_, fun history' hperm => ?_⟩
  · constructor
    · exact hordered.sorted_names
    · intro name
      rw [hordered.mem_names, hclass]
    · exact hclass
    · intro name cls fault
      rw [register_eq_error, hclass]
      refine or_congr_right (and_iff_right_of_imp ?_)
      rintro ⟨existing, hexisting, -⟩
      exact isName_of_registered? hexisting
    · exact register_unchanged _
    · intro text name cls
      simp only [hordered.longestPrefix?_iff, hclass]
    · intro text
      simp only [hordered.longestPrefix?_eq_none, hclass]
  · by_cases hsucceeds : Succeeds history
    · obtain ⟨hsucceeds', hsame⟩ := registerEach_perm hperm hsucceeds
      exact Or.inl ⟨hsucceeds, hsucceeds', hsame⟩
    · refine Or.inr ⟨hsucceeds, fun hsucceeds' => hsucceeds ?_⟩
      exact (registerEach_perm hperm.symm hsucceeds').1

/-- Two registrations fail, since `42` is no name and `t1` has a class already. The last one repeats
the first. -/
def mixedHistory : List (String × TileClass) :=
  [("t1", .accepting), ("42", .binary), ("t1", .ternary), ("b", .random), ("t10", .binary),
    ("t1", .accepting)]

/-- In the other order `t1` comes in the same two classes. -/
theorem records_registerEach_mixed :
    mixedHistory.reverse.Perm mixedHistory ∧
      (({} : Catalog).registerEach mixedHistory).2.classOf? "t1" = some .accepting ∧
      ("42" ∉ (({} : Catalog).registerEach mixedHistory).2.names) ∧
      ¬ Succeeds mixedHistory.reverse := by
  have hperm : mixedHistory.reverse.Perm mixedHistory := List.reverse_perm _
  obtain ⟨hrecords, horders⟩ := records_registerEach mixedHistory
  have hfirst : registered? mixedHistory "t1" = some .accepting := by decide
  have hdigits : registered? mixedHistory "42" = none := by decide
  have hfails : ¬ Succeeds mixedHistory := by
    intro h
    have hanswer := h (.error (.invalidName "42")) (by decide)
    cases hanswer
  refine ⟨hperm, (hrecords.classOf?_eq "t1").trans hfirst, ?_, ?_⟩
  · rw [hrecords.mem_names, hdigits]
    rintro ⟨cls, h⟩
    cases h
  · exact ((horders _ hperm).resolve_left fun h => hfails h.1).2

end Catalog

end Tilework
