import Tilework.Proofs.Choices
import Tilework.Proofs.Numeral
import Tilework.Proofs.Overflow
import Tilework.Proofs.Splitting
import Tilework.Proofs.Trimming

/-!
# The grammar of bound labels

A label is intervals between bars, an interval is two sides around a colon, and a side is nothing, a
word or a numeral for a finite value, with blanks around it. The reader accepts exactly these
labels, and reports the first part of any other one that is wrong. No infinity and no NaN is read,
and so a tracker never holds one.
-/

namespace Tilework

namespace Bound

open Text (Trims)

/-- The texts of sides without blanks. `none` is a side without a bound, and the infinities stand
for the outermost finite values. -/
inductive SideText : List Char → Option Binary64 → Prop
  | empty : SideText [] none
  | dash : SideText "-".toList none
  | nan : SideText "nan".toList none
  | capitalNan : SideText "NaN".toList none
  | inf : SideText "inf".toList (some .greatest)
  | plusInf : SideText "+inf".toList (some .greatest)
  | minusInf : SideText "-inf".toList (some .least)
  | finite {cs : List Char} {v : Binary64} {d : Decimal} (hcs : SignedNumeral cs v d)
      (hfinite : d.toRat < Binary64.overflow) : SideText cs (some v)

def Side (cs : List Char) (value : Option Binary64) : Prop :=
  ∃ side, Trims cs side ∧ SideText side value

/-- A side that is none, and what is left of it without the blanks. -/
def NoSide (cs side : List Char) : Prop :=
  Trims cs side ∧ ∀ value, ¬ SideText side value

/-- Two sides around the first colon. -/
inductive Interval : List Char → Bound → Prop
  | bounded {low high : List Char} {l h : Binary64} (hlow : Side low (some l)) (hcolon : ':' ∉ low)
      (hhigh : Side high (some h)) : Interval (low ++ ':' :: high) (interval l h)
  | free {low high : List Char} {l h : Option Binary64} (hlow : Side low l) (hcolon : ':' ∉ low)
      (hhigh : Side high h) (hfree : l = none ∨ h = none) : Interval (low ++ ':' :: high) free

/-- What is wrong with a part. The low side is looked at before the high side. -/
inductive NoInterval : List Char → LabelFault → Prop
  | separator {part side : List Char} (hcolon : ':' ∉ part) (htrims : Trims part side) :
      NoInterval part (.missingSeparator (String.ofList side))
  | low {low high side : List Char} (hcolon : ':' ∉ low) (hlow : NoSide low side) :
      NoInterval (low ++ ':' :: high) (.badSide (String.ofList side))
  | high {low high side : List Char} {l : Option Binary64} (hcolon : ':' ∉ low)
      (hlow : Side low l) (hhigh : NoSide high side) :
      NoInterval (low ++ ':' :: high) (.badSide (String.ofList side))

/-- Intervals with bars between them. -/
inductive Label : List Char → List Bound → Prop
  | last {part : List Char} {b : Bound} (hbar : '|' ∉ part) (hpart : Interval part b) :
      Label part [b]
  | more {part rest : List Char} {b : Bound} {bounds : List Bound} (hbar : '|' ∉ part)
      (hpart : Interval part b) (hrest : Label rest bounds) :
      Label (part ++ '|' :: rest) (b :: bounds)

/-- What is wrong with the first part that is no interval. -/
inductive NoLabel : List Char → LabelFault → Prop
  | last {part : List Char} {fault : LabelFault} (hbar : '|' ∉ part)
      (hpart : NoInterval part fault) : NoLabel part fault
  | here {part rest : List Char} {fault : LabelFault} (hbar : '|' ∉ part)
      (hpart : NoInterval part fault) : NoLabel (part ++ '|' :: rest) fault
  | later {part rest : List Char} {b : Bound} {fault : LabelFault} (hbar : '|' ∉ part)
      (hpart : Interval part b) (hrest : NoLabel rest fault) : NoLabel (part ++ '|' :: rest) fault

variable {cs side : List Char} {value : Option Binary64} {b : Bound} {fault : LabelFault}

theorem finite?_eq_some_iff {v : Binary64} :
    finite? cs = some v ↔ ∃ d, SignedNumeral cs v d ∧ d.toRat < Binary64.overflow := by
  rw [finite?, Option.filter_eq_some_iff, Decimal.readSigned?_eq_some_iff, ← exists_and_right]
  refine exists_congr fun d => and_congr_right fun hcs => ?_
  obtain ⟨-, -⟩ := hcs
  exact decide_eq_true_iff.trans d.magnitude_lt_iff

theorem finite?_word :
    ∀ word ∈ unbounded ++ ["inf".toList, "+inf".toList, "-inf".toList], finite? word = none := by
  decide

theorem readSide_of_side (h : Side cs value) : readSide cs = .ok value := by
  obtain ⟨side, htrims, h⟩ := h
  simp only [readSide, htrims.trim_eq]
  cases h with
  | finite hcs hfinite =>
    have hread := finite?_eq_some_iff.mpr ⟨_, hcs, hfinite⟩
    have hword := fun hmem => (finite?_word side hmem).symm.trans hread
    simp only [List.mem_append, List.mem_cons, List.not_mem_nil, or_false, reduceCtorEq,
      imp_false, not_or] at hword
    rw [if_neg hword.1, if_neg (not_or.mpr ⟨hword.2.1, hword.2.2.1⟩), if_neg hword.2.2.2, hread]
  | _ => rfl

theorem readSide_of_noSide (h : NoSide cs side) :
    readSide cs = .error (.badSide (String.ofList side)) := by
  obtain ⟨htrims, hnone⟩ := h
  have hfree : side ∉ unbounded := by
    intro hmem
    simp only [unbounded, List.mem_cons, List.not_mem_nil, or_false] at hmem
    rcases hmem with rfl | rfl | rfl | rfl
    exacts [hnone _ .empty, hnone _ .dash, hnone _ .nan, hnone _ .capitalNan]
  have hinf : ¬ (side = "inf".toList ∨ side = "+inf".toList) := by
    rintro (rfl | rfl)
    exacts [hnone _ .inf, hnone _ .plusInf]
  have hminus : side ≠ "-inf".toList := by
    rintro rfl
    exact hnone _ .minusInf
  have hread : finite? side = none := by
    rw [Option.eq_none_iff_forall_ne_some]
    intro v hv
    obtain ⟨d, hcs, hfinite⟩ := finite?_eq_some_iff.mp hv
    exact hnone _ (.finite hcs hfinite)
  simp only [readSide, htrims.trim_eq]
  rw [if_neg hfree, if_neg hinf, if_neg hminus, hread]

theorem side_or_noSide (cs : List Char) : (∃ value, Side cs value) ∨ ∃ side, NoSide cs side := by
  by_cases h : ∃ value, SideText (Text.trim cs) value
  · obtain ⟨value, hvalue⟩ := h
    exact Or.inl ⟨value, _, Text.trims_trim cs, hvalue⟩
  · exact Or.inr ⟨_, Text.trims_trim cs, not_exists.mp h⟩

theorem exists_interval {low high : List Char} {l h : Option Binary64} (hlow : Side low l)
    (hcolon : ':' ∉ low) (hhigh : Side high h) : ∃ b, Interval (low ++ ':' :: high) b :=
  match l, h with
  | some _, some _ => ⟨_, .bounded hlow hcolon hhigh⟩
  | none, _ => ⟨_, .free hlow hcolon hhigh (Or.inl rfl)⟩
  | some _, none => ⟨_, .free hlow hcolon hhigh (Or.inr rfl)⟩

theorem ofSides_eq_free {l h : Option Binary64} (hfree : l = none ∨ h = none) :
    ofSides l h = .free := by
  rcases hfree with rfl | rfl
  · rfl
  · cases l <;> rfl

theorem readInterval_of_interval (h : Interval cs b) : readInterval cs = .ok b := by
  cases h with
  | bounded hlow hcolon hhigh =>
    simp only [readInterval, Text.cutAt?_append hcolon, readSide_of_side hlow,
      readSide_of_side hhigh]
    rfl
  | free hlow hcolon hhigh hfree =>
    simp only [readInterval, Text.cutAt?_append hcolon, readSide_of_side hlow,
      readSide_of_side hhigh]
    exact congrArg Except.ok (ofSides_eq_free hfree)

theorem readInterval_of_noInterval (h : NoInterval cs fault) : readInterval cs = .error fault := by
  cases h with
  | separator hcolon htrims => rw [readInterval, Text.cutAt?_of_notMem hcolon, htrims.trim_eq]
  | low hcolon hlow =>
    simp only [readInterval, Text.cutAt?_append hcolon, readSide_of_noSide hlow]
    rfl
  | high hcolon hlow hhigh =>
    simp only [readInterval, Text.cutAt?_append hcolon, readSide_of_side hlow,
      readSide_of_noSide hhigh]
    rfl

theorem interval_or_noInterval (cs : List Char) :
    (∃ b, Interval cs b) ∨ ∃ fault, NoInterval cs fault := by
  by_cases hmem : ':' ∈ cs
  · obtain ⟨low, high, rfl, hcolon⟩ := List.eq_append_cons_of_mem hmem
    rcases side_or_noSide low with ⟨l, hlow⟩ | ⟨side, hlow⟩
    · rcases side_or_noSide high with ⟨h, hhigh⟩ | ⟨side, hhigh⟩
      · exact Or.inl (exists_interval hlow hcolon hhigh)
      · exact Or.inr ⟨_, .high hcolon hlow hhigh⟩
    · exact Or.inr ⟨_, .low hcolon hlow⟩
  · exact Or.inr ⟨_, .separator hmem (Text.trims_trim cs)⟩

theorem mapM_splitOn_last {part : List Char} (hbar : '|' ∉ part) :
    (Text.splitOn '|' part).mapM readInterval = (readInterval part).map ([·]) := by
  rw [Text.splitOn_of_notMem hbar, List.mapM_cons, List.mapM_nil]
  cases readInterval part <;> rfl

theorem mapM_splitOn_more {part : List Char} (hbar : '|' ∉ part) (rest : List Char) :
    (Text.splitOn '|' (part ++ '|' :: rest)).mapM readInterval = (do
      let b ← readInterval part
      let bounds ← (Text.splitOn '|' rest).mapM readInterval
      return b :: bounds) := by
  rw [Text.splitOn_append_sep, Text.splitOn_of_notMem hbar, List.singleton_append, List.mapM_cons]

theorem mapM_of_label {bounds : List Bound} (h : Label cs bounds) :
    (Text.splitOn '|' cs).mapM readInterval = .ok bounds := by
  induction h with
  | last hbar hpart => rw [mapM_splitOn_last hbar, readInterval_of_interval hpart]; rfl
  | more hbar hpart hrest ih =>
    rw [mapM_splitOn_more hbar, readInterval_of_interval hpart, ih]
    rfl

theorem mapM_of_noLabel (h : NoLabel cs fault) :
    (Text.splitOn '|' cs).mapM readInterval = .error fault := by
  induction h with
  | last hbar hpart => rw [mapM_splitOn_last hbar, readInterval_of_noInterval hpart]; rfl
  | here hbar hpart => rw [mapM_splitOn_more hbar, readInterval_of_noInterval hpart]; rfl
  | later hbar hpart hrest ih =>
    rw [mapM_splitOn_more hbar, readInterval_of_interval hpart, ih]
    rfl

/-- Every text is a label or has a first part that is wrong. -/
theorem label_or_noLabel (cs : List Char) :
    (∃ bounds, Label cs bounds) ∨ ∃ fault, NoLabel cs fault := by
  induction cs using Text.separated_induction '|' with
  | last part hbar =>
    rcases interval_or_noInterval part with ⟨b, hpart⟩ | ⟨fault, hpart⟩
    · exact Or.inl ⟨_, .last hbar hpart⟩
    · exact Or.inr ⟨_, .last hbar hpart⟩
  | more part rest hbar ih =>
    rcases interval_or_noInterval part with ⟨b, hpart⟩ | ⟨fault, hpart⟩
    · rcases ih with ⟨bounds, hrest⟩ | ⟨fault, hrest⟩
      · exact Or.inl ⟨_, .more hbar hpart hrest⟩
      · exact Or.inr ⟨_, .later hbar hpart hrest⟩
    · exact Or.inr ⟨_, .here hbar hpart⟩

end Bound

namespace BoundTracker

inductive Operation where
  | add (label : String)
  | store (name : String)
  | reset

/-- A label that cannot be read leaves the tracker as it is. -/
def perform (tracker : BoundTracker) : Operation → BoundTracker
  | .add label => match tracker.add label with
    | .ok narrowed => narrowed
    | .error _ => tracker
  | .store name => tracker.store name
  | .reset => tracker.reset

def performAll (operations : List Operation) : BoundTracker := operations.foldl perform {}

/-- A bound of the working set or of a stored set. -/
def Holds (tracker : BoundTracker) (b : Bound) : Prop :=
  b ∈ tracker.current ∨ ∃ name bounds, tracker.get? name = some bounds ∧ b ∈ bounds

variable {tracker : BoundTracker}

theorem isFinite_of_mem_combine {current intervals : List Bound}
    (hcurrent : ∀ b ∈ current, b.IsFinite) (hintervals : ∀ b ∈ intervals, b.IsFinite) :
    ∀ b ∈ combine current intervals, b.IsFinite := by
  intro b hb
  rw [combine] at hb
  split at hb
  · exact hintervals b hb
  · obtain ⟨interval, hinterval, hb⟩ := List.mem_flatMap.mp hb
    obtain ⟨old, hold, rfl⟩ := List.mem_map.mp hb
    exact (hcurrent old hold).inter (hintervals interval hinterval)

theorem isFinite_perform (h : ∀ b, tracker.Holds b → b.IsFinite) (operation : Operation) :
    ∀ b, (tracker.perform operation).Holds b → b.IsFinite := by
  intro b hb
  cases operation with
  | add label =>
    rw [perform, add] at hb
    cases hread : Bound.readLabel label with
    | error fault =>
      rw [hread] at hb
      exact h b hb
    | ok intervals =>
      rw [hread] at hb
      rcases hb with hb | hb
      · exact isFinite_of_mem_combine (fun b hb => h b (Or.inl hb))
          (Bound.isFinite_of_readLabel hread) b hb
      · exact h b (Or.inr hb)
  | store name =>
    rcases hb with hb | ⟨other, bounds, hget, hb⟩
    · exact h b (Or.inl hb)
    · by_cases hother : other = name
      · rw [hother, get?, perform, store, Table.get?_put_self] at hget
        cases hget
        exact h b (Or.inl hb)
      · rw [get?, perform, store, Table.get?_put_of_ne _ _ hother] at hget
        exact h b (Or.inr ⟨other, bounds, hget, hb⟩)
  | reset =>
    rcases hb with hb | hb
    · cases hb
    · exact h b (Or.inr hb)

theorem isFinite_performAll (operations : List Operation) :
    ∀ b, (performAll operations).Holds b → b.IsFinite := by
  have hrun (tracker : BoundTracker) (h : ∀ b, tracker.Holds b → b.IsFinite) :
      ∀ b, (operations.foldl perform tracker).Holds b → b.IsFinite := by
    induction operations generalizing tracker with
    | nil => exact h
    | cons operation operations ih => exact ih _ (isFinite_perform h operation)
  refine hrun {} fun b hb => ?_
  rcases hb with hb | ⟨name, bounds, hget, -⟩
  · cases hb
  · cases hget

end BoundTracker

namespace Bound

theorem isDisjoint_iff {low high : Binary64} (h : (interval low high).IsFinite) :
    (interval low high).isDisjoint = true ↔ high.key < low.key := by
  rw [isDisjoint, decide_eq_true_iff, Binary64.lt_iff, Binary64.isNaN_of_isFinite h.1,
    Binary64.isNaN_of_isFinite h.2]
  simp

/-- The reader accepts labels and nothing else, and reports the first part that is wrong. Whatever
is done to a tracker, the bounds that it holds are free or have two finite sides, and are disjoint
when these are the wrong way round. -/
theorem readLabel_grammar (label : String) (operations : List BoundTracker.Operation) :
    (∀ bounds, readLabel label = .ok bounds ↔ Label label.toList bounds) ∧
      (∀ fault, readLabel label = .error fault ↔ NoLabel label.toList fault) ∧
      ∀ b, (BoundTracker.performAll operations).Holds b → b = free ∨
        ∃ low high, b = interval low high ∧ low.isFinite = true ∧ high.isFinite = true ∧
          (b.isDisjoint = true ↔ high.key < low.key) := by
  refine ⟨fun bounds => ⟨fun hread => ?_, mapM_of_label⟩,
    fun fault => ⟨fun hread => ?_, mapM_of_noLabel⟩, fun b hb => ?_⟩
  · rcases label_or_noLabel label.toList with ⟨bounds', h⟩ | ⟨fault, h⟩
    · cases hread.symm.trans (mapM_of_label h)
      exact h
    · cases hread.symm.trans (mapM_of_noLabel h)
  · rcases label_or_noLabel label.toList with ⟨bounds, h⟩ | ⟨fault', h⟩
    · cases hread.symm.trans (mapM_of_label h)
    · cases hread.symm.trans (mapM_of_noLabel h)
      exact h
  · have hfinite := BoundTracker.isFinite_performAll operations b hb
    cases b with
    | free => exact Or.inl rfl
    | interval low high =>
      exact Or.inr ⟨low, high, rfl, hfinite.1, hfinite.2, isDisjoint_iff hfinite⟩

def disjointHistory : List BoundTracker.Operation :=
  [.add "inf:inf", .add "-inf:0", .store "hall", .add "0:", .reset]

/-- A label with a free interval, a label with a side that is too great for a finite value, and
a history. -/
theorem readLabel_grammar_mixed :
    Label " 0:+inf|nan : -2.5e-1".toList [interval ⟨false, 0⟩ .greatest, free] ∧
      NoLabel "4:2|-: 1e999 |7".toList (.badSide "1e999") ∧
      ∃ low high, (BoundTracker.performAll disjointHistory).get? "hall" = some [interval low high] ∧
        low.isFinite = true ∧ high.isFinite = true ∧ high.key < low.key := by
  obtain ⟨haccepts, -, hheld⟩ := readLabel_grammar " 0:+inf|nan : -2.5e-1" disjointHistory
  obtain ⟨-, hrejects, -⟩ := readLabel_grammar "4:2|-: 1e999 |7" []
  refine ⟨(haccepts _).mp rfl, (hrejects _).mp rfl, ?_⟩
  have hget : (BoundTracker.performAll disjointHistory).get? "hall" =
      some [interval .greatest ⟨false, 0⟩] := rfl
  have hdisjoint : (interval .greatest ⟨false, 0⟩).isDisjoint = true := by decide
  rcases hheld _ (Or.inr ⟨"hall", _, hget, List.mem_singleton_self _⟩) with hfree | hbounds
  · cases hfree
  · obtain ⟨low, high, hb, hlow, hhigh, hiff⟩ := hbounds
    exact ⟨low, high, hb ▸ hget, hlow, hhigh, hiff.mp hdisjoint⟩

end Bound

end Tilework
