import Mathlib.Data.Int.ConditionallyCompleteOrder
import Mathlib.Order.ConditionallyCompleteLattice.Basic
import Tilework.Proofs.Choices

/-!
# Narrowing a union of intervals

A label allows the numbers of all its intervals. When labels are fed to a tracker that starts
without bounds, a number is left exactly when every label that can be read allows it: the working
set is the product of the unions, with an entry for each choice of one interval from every label.
The order of the labels is of no account, and a label that cannot be read changes nothing.
-/

namespace Tilework

namespace Bound

/-- A number is allowed by a free bound, and by an interval when it lies between the sides. The
numbers are those of any order; `place` gives the values their places among them. -/
def Allows {α : Type} [LinearOrder α] (place : Int → α) (p : α) : Bound → Prop
  | free => True
  | interval low high => place low.key ≤ p ∧ p ≤ place high.key

section places

variable {α : Type} [LinearOrder α] {place : Int → α} {a b : Bound}

/-- An intersection allows what both of its parts allow. -/
theorem allows_inter (hplace : Monotone place) (ha : a.IsFinite) (hb : b.IsFinite) (p : α) :
    (a.inter b).Allows place p ↔ a.Allows place p ∧ b.Allows place p := by
  cases a with
  | free => simp [Allows]
  | interval l h =>
    cases b with
    | free => simp [Allows]
    | interval l' h' =>
      rw [interval_inter_interval]
      simp only [Allows]
      rw [Binary64.key_sup ha.1 hb.1, Binary64.key_inf ha.2 hb.2, hplace.map_max, hplace.map_min,
        max_le_iff, le_min_iff]
      exact and_and_and_comm

theorem allows_foldl_inter (hplace : Monotone place) {choice : List Bound} (ha : a.IsFinite)
    (h : ∀ b ∈ choice, b.IsFinite) (p : α) :
    (choice.foldl inter a).Allows place p ↔
      a.Allows place p ∧ ∀ b ∈ choice, b.Allows place p := by
  induction choice generalizing a with
  | nil => simp
  | cons b choice ih =>
    have hb := h b List.mem_cons_self
    rw [List.foldl_cons, ih (ha.inter hb) fun b hb => h b (List.mem_cons_of_mem _ hb),
      allows_inter hplace ha hb, List.forall_mem_cons, and_assoc]

theorem not_allows_of_isDisjoint (hplace : StrictMono place) (h : b.isDisjoint = true) (p : α) :
    ¬ b.Allows place p := by
  cases b with
  | free => cases h
  | interval low high =>
    have hkeys : high.key < low.key := (of_decide_eq_true h).2.2
    rintro ⟨hlow, hhigh⟩
    exact absurd (hlow.trans hhigh) (not_le.mpr (hplace hkeys))

theorem exists_mem_sections {β : Type} {P : β → Prop} {lists : List (List β)} :
    (∃ choice ∈ lists.sections, ∀ b ∈ choice, P b) ↔ ∀ l ∈ lists, ∃ b ∈ l, P b := by
  induction lists with
  | nil => simp
  | cons l lists ih =>
    rw [List.forall_mem_cons, ← ih]
    constructor
    · rintro ⟨choice, hchoice, hall⟩
      obtain ⟨rest, hrest, hhead⟩ := List.mem_flatMap.mp hchoice
      obtain ⟨b, hb, rfl⟩ := List.mem_map.mp hhead
      rw [List.forall_mem_cons] at hall
      exact ⟨⟨b, hb, hall.1⟩, rest, hrest, hall.2⟩
    · rintro ⟨⟨b, hb, hP⟩, rest, hrest, hall⟩
      refine ⟨b :: rest, ?_, List.forall_mem_cons.mpr ⟨hP, hall⟩⟩
      exact List.mem_flatMap.mpr ⟨rest, hrest, List.mem_map_of_mem hb⟩

theorem isFinite_foldl_inter {choice : List Bound} (ha : a.IsFinite)
    (h : ∀ b ∈ choice, b.IsFinite) : (choice.foldl inter a).IsFinite := by
  induction choice generalizing a with
  | nil => exact ha
  | cons b choice ih =>
    rw [List.forall_mem_cons] at h
    exact ih (ha.inter h.1) h.2

variable {lists : List (List Bound)}

theorem mem_intersections :
    b ∈ intersections lists ↔
      lists ≠ [] ∧ ∃ choice ∈ lists.sections, choice.foldl inter free = b := by
  rw [intersections]
  split <;> simp_all

theorem isFinite_of_mem_intersections (h : ∀ l ∈ lists, ∀ b ∈ l, b.IsFinite)
    (hb : b ∈ intersections lists) : b.IsFinite := by
  obtain ⟨-, choice, hchoice, rfl⟩ := mem_intersections.mp hb
  exact isFinite_foldl_inter trivial (isFinite_of_mem_sections h hchoice)

theorem exists_allows_intersections (hplace : Monotone place)
    (h : ∀ l ∈ lists, ∀ b ∈ l, b.IsFinite) (p : α) :
    (∃ b ∈ intersections lists, b.Allows place p) ↔
      lists ≠ [] ∧ ∀ l ∈ lists, ∃ b ∈ l, b.Allows place p := by
  have hchoice : ∀ choice ∈ lists.sections,
      ((choice.foldl inter free).Allows place p ↔ ∀ b ∈ choice, b.Allows place p) := by
    intro choice hmem
    have hfree : free.IsFinite := trivial
    rw [allows_foldl_inter hplace hfree (isFinite_of_mem_sections h hmem)]
    exact and_iff_right trivial
  rw [← exists_mem_sections]
  constructor
  · rintro ⟨b, hb, hallows⟩
    obtain ⟨hne, choice, hmem, rfl⟩ := mem_intersections.mp hb
    exact ⟨hne, choice, hmem, (hchoice choice hmem).mp hallows⟩
  · rintro ⟨hne, choice, hmem, hall⟩
    exact ⟨_, mem_intersections.mpr ⟨hne, choice, hmem, rfl⟩, (hchoice choice hmem).mpr hall⟩

theorem length_intersections (hne : lists ≠ []) :
    (intersections lists).length = (lists.map List.length).prod := by
  rw [intersections, if_neg hne, List.length_map]
  have hcard : (Multiset.Sections (.ofList (lists.map .ofList) : Multiset (Multiset Bound))).card =
      _ := Multiset.card_sections
  rw [Multiset.coe_sections] at hcard
  simpa [Function.comp_def] using hcard

end places

/-- The intervals of the labels that can be read, label by label. -/
def readable (labels : List String) : List (List Bound) :=
  labels.filterMap fun label => (readLabel label).toOption

section labels

variable {label : String} {labels : List String}

theorem readable_cons_of_error {fault : LabelFault} (h : readLabel label = .error fault) :
    readable (label :: labels) = readable labels := by
  rw [readable, List.filterMap_cons, h]
  rfl

theorem readable_cons_of_ok {intervals : List Bound} (h : readLabel label = .ok intervals) :
    readable (label :: labels) = intervals :: readable labels := by
  rw [readable, List.filterMap_cons, h]
  rfl

theorem exists_of_mem_readable {intervals : List Bound}
    (h : intervals ∈ readable labels) : ∃ label ∈ labels, readLabel label = .ok intervals := by
  obtain ⟨label, hlabel, hread⟩ := List.mem_filterMap.mp h
  refine ⟨label, hlabel, ?_⟩
  cases hresult : readLabel label with
  | error fault => simp [hresult, Except.toOption] at hread
  | ok found =>
    rw [hresult] at hread
    exact congrArg Except.ok (Option.some.inj hread)

theorem isFinite_of_mem_readable :
    ∀ intervals ∈ readable labels, ∀ b ∈ intervals, b.IsFinite := by
  intro intervals h
  obtain ⟨label, -, hread⟩ := exists_of_mem_readable h
  exact isFinite_of_readLabel hread

theorem readable_ne_nil : ∀ intervals ∈ readable labels, intervals ≠ [] := by
  intro intervals h
  obtain ⟨label, -, hread⟩ := exists_of_mem_readable h
  exact readLabel_ne_nil hread

end labels

end Bound

namespace BoundTracker

open Tilework.Bound

/-- Feed labels one by one, going on behind those that cannot be read. -/
def addEach (tracker : BoundTracker) (labels : List String) : BoundTracker :=
  labels.foldl (fun tracker label => (tracker.addAll [label]).2) tracker

variable {tracker : BoundTracker}

theorem addAll_singleton_of_error {label : String} {fault : LabelFault}
    (h : readLabel label = .error fault) :
    tracker.addAll [label] = (.error (.label fault), tracker) := by
  rw [addAll, add, h]
  rfl

theorem addAll_singleton_of_ok {label : String} {intervals : List Bound}
    (h : readLabel label = .ok intervals) :
    tracker.addAll [label] =
      (.ok (), { tracker with current := combine tracker.current intervals }) := by
  rw [addAll, add, h]
  rfl

/-- The labels that can be read narrow the working set, and nothing else changes. -/
theorem addEach_eq (labels : List String) :
    tracker.addEach labels =
      { tracker with current := (readable labels).foldl combine tracker.current } := by
  induction labels generalizing tracker with
  | nil => rfl
  | cons label labels ih =>
    rw [addEach, List.foldl_cons, ← addEach, ih]
    cases hread : readLabel label with
    | error fault =>
      rw [addAll_singleton_of_error hread, readable_cons_of_error hread]
    | ok intervals =>
      rw [addAll_singleton_of_ok hread, readable_cons_of_ok hread]
      rfl

theorem current_addEach (hempty : tracker.current = []) (labels : List String) :
    (tracker.addEach labels).current = intersections (readable labels) := by
  rw [addEach_eq, hempty]
  exact foldl_combine_nil readable_ne_nil

/-- Labels that are fed one by one to an empty working set leave one entry for each choice of an
interval from every label that can be read: the intersection of what was chosen. A number is left by
some entry exactly when each of these labels allows it, the order of the labels is of no account
apart from the signs of zeros, and a label that cannot be read changes nothing. -/
theorem addEach_choices (hempty : tracker.current = []) (labels : List String) {α : Type}
    [LinearOrder α] {place : Int → α} (hplace : StrictMono place) :
    let lists := readable labels
    let after := tracker.addEach labels
    (lists = [] → after.current = []) ∧
    (lists ≠ [] →
      after.current.length = (lists.map List.length).prod ∧
      (after.current.map keys : Multiset (Option (Int × Int))) =
        (Multiset.Sections (.ofList (lists.map .ofList))).map
          fun choice => (choice.map keys).fold meet none) ∧
    (∀ b ∈ after.current, b.IsFinite ∧ (b = free → ∀ p, b.Allows place p) ∧
      (b.isDisjoint = true → ∀ p, ¬ b.Allows place p)) ∧
    (∀ p, (∃ b ∈ after.current, b.Allows place p) ↔
      lists ≠ [] ∧ ∀ intervals ∈ lists, ∃ b ∈ intervals, b.Allows place p) ∧
    (∀ labels', labels'.Perm labels →
      ((tracker.addEach labels').current.map keys).Perm (after.current.map keys)) ∧
    after.stored = tracker.stored ∧
    ∀ (t : BoundTracker) (label : String) (fault : LabelFault), readLabel label = .error fault →
      t.addAll [label] = (.error (.label fault), t) := by
  intro lists after
  have hcurrent : after.current = intersections lists := current_addEach hempty labels
  have hfinite : ∀ l ∈ lists, ∀ b ∈ l, b.IsFinite := isFinite_of_mem_readable
  refine ⟨?_, ?_, ?_, ?_, ?_, ?_, fun t label fault h => addAll_singleton_of_error h⟩
  · intro hnil
    rw [hcurrent, hnil]
    rfl
  · intro hne
    rw [hcurrent]
    exact ⟨length_intersections hne, map_keys_intersections hne hfinite⟩
  · intro b hb
    rw [hcurrent] at hb
    refine ⟨isFinite_of_mem_intersections hfinite hb, ?_, not_allows_of_isDisjoint hplace⟩
    rintro rfl p
    trivial
  · intro p
    rw [hcurrent]
    exact exists_allows_intersections hplace.monotone hfinite p
  · intro labels' hperm
    rw [hcurrent, current_addEach hempty labels']
    exact perm_keys_intersections (hperm.filterMap _) isFinite_of_mem_readable
  · change (tracker.addEach labels).stored = tracker.stored
    rw [addEach_eq]

def rangeLabels : List String := ["0:5|8:inf", "5", "6:7|3:10"]

/-- The values themselves serve as numbers: four lies from 3 to 5, and six in no entry. -/
theorem addEach_choices_range :
    StrictMono (id : Int → Int) ∧ (({} : BoundTracker).addEach rangeLabels).current.length = 4 ∧
      (∃ b ∈ (({} : BoundTracker).addEach rangeLabels).current,
        b.Allows id (Binary64.key ⟨false, 0x4010000000000000⟩)) ∧
      ¬ ∃ b ∈ (({} : BoundTracker).addEach rangeLabels).current,
        b.Allows id (Binary64.key ⟨false, 0x4018000000000000⟩) := by
  have hlists : readable rangeLabels =
      [[.interval ⟨false, 0⟩ ⟨false, 0x4014000000000000⟩,
          .interval ⟨false, 0x4020000000000000⟩ .greatest],
        [.interval ⟨false, 0x4018000000000000⟩ ⟨false, 0x401c000000000000⟩,
          .interval ⟨false, 0x4008000000000000⟩ ⟨false, 0x4024000000000000⟩]] := by
    decide +kernel
  have hplace : StrictMono (id : Int → Int) := strictMono_id
  have hempty : ({} : BoundTracker).current = [] := rfl
  obtain ⟨-, hproduct, -, hallows, -⟩ := addEach_choices hempty rangeLabels hplace
  rw [hlists] at hproduct hallows
  refine ⟨hplace, (hproduct (List.cons_ne_nil _ _)).1, ?_, ?_⟩
  · rw [hallows]
    simp [Allows, Binary64.key]
  · rw [hallows]
    simp [Allows, Binary64.key]

end BoundTracker

end Tilework
