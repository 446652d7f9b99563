import Mathlib.Data.List.Perm.Basic
import Mathlib.Data.List.Sections
import Mathlib.Data.Multiset.Fold
import Mathlib.Data.Multiset.Sections
import Tilework.Operator.Merge
import Tilework.Proofs.Sequencing

/-!
# Choices of intervals

Labels that are added to an empty working set leave all intersections of one interval chosen from
each of them. Intersecting does not depend on an order, apart from the signs of zeros, and so
neither does what the labels leave.
-/

namespace Tilework

namespace Binary64

variable {a b : Binary64}

theorem isNaN_of_isFinite (h : a.isFinite = true) : a.isNaN = false := by
  rw [isFinite, decide_eq_true_iff] at h
  rw [isNaN, decide_eq_false_iff_not]
  omega

theorem sup_of_isFinite (ha : a.isFinite = true) (hb : b.isFinite = true) :
    a.sup b = if a.key < b.key then b else a := by
  rw [sup, isNaN_of_isFinite ha, isNaN_of_isFinite hb]
  rfl

theorem inf_of_isFinite (ha : a.isFinite = true) (hb : b.isFinite = true) :
    a.inf b = if b.key < a.key then b else a := by
  rw [inf, isNaN_of_isFinite ha, isNaN_of_isFinite hb]
  rfl

theorem key_sup (ha : a.isFinite = true) (hb : b.isFinite = true) :
    (a.sup b).key = max a.key b.key := by
  rw [sup_of_isFinite ha hb]
  split <;> omega

theorem key_inf (ha : a.isFinite = true) (hb : b.isFinite = true) :
    (a.inf b).key = min a.key b.key := by
  rw [inf_of_isFinite ha hb]
  split <;> omega

theorem isFinite_sup (ha : a.isFinite = true) (hb : b.isFinite = true) :
    (a.sup b).isFinite = true := by
  rw [sup_of_isFinite ha hb]
  split <;> assumption

theorem isFinite_inf (ha : a.isFinite = true) (hb : b.isFinite = true) :
    (a.inf b).isFinite = true := by
  rw [inf_of_isFinite ha hb]
  split <;> assumption

end Binary64

namespace Bound

/-- An interval with two finite sides, or no bound. -/
def IsFinite : Bound → Prop
  | free => True
  | interval low high => low.isFinite = true ∧ high.isFinite = true

def keys : Bound → Option (Int × Int)
  | free => none
  | interval low high => some (low.key, high.key)

def meet : Option (Int × Int) → Option (Int × Int) → Option (Int × Int)
  | none, k => k
  | k, none => k
  | some (l, h), some (l', h') => some (max l l', min h h')

instance : Std.Commutative meet where
  comm := by
    rintro (_ | ⟨l, h⟩) (_ | ⟨l', h'⟩) <;> simp [meet, max_comm, min_comm]

instance : Std.Associative meet where
  assoc := by
    rintro (_ | ⟨l, h⟩) (_ | ⟨l', h'⟩) (_ | ⟨l'', h''⟩) <;> simp [meet, max_assoc, min_assoc]

variable {a b : Bound}

theorem keys_inter (ha : a.IsFinite) (hb : b.IsFinite) : (a.inter b).keys = meet a.keys b.keys := by
  cases a with
  | free => rw [free_inter]; cases b <;> rfl
  | interval l h =>
    cases b with
    | free => rfl
    | interval l' h' =>
      rw [interval_inter_interval, keys, Binary64.key_sup ha.1 hb.1, Binary64.key_inf ha.2 hb.2]
      rfl

theorem IsFinite.inter (ha : a.IsFinite) (hb : b.IsFinite) : (a.inter b).IsFinite := by
  cases a with
  | free => rwa [free_inter]
  | interval l h =>
    cases b with
    | free => exact ha
    | interval l' h' =>
      exact ⟨Binary64.isFinite_sup ha.1 hb.1, Binary64.isFinite_inf ha.2 hb.2⟩

theorem keys_foldl_inter {choice : List Bound} (ha : a.IsFinite) (h : ∀ b ∈ choice, b.IsFinite) :
    (choice.foldl inter a).keys = (choice.map keys).foldl meet a.keys := by
  induction choice generalizing a with
  | nil => rfl
  | cons b choice ih =>
    have hb := h b List.mem_cons_self
    rw [List.foldl_cons, ih (ha.inter hb) fun b hb => h b (List.mem_cons_of_mem _ hb),
      keys_inter ha hb]
    rfl

/-- All intersections of one interval chosen from each list. Without lists there is none. -/
def intersections (lists : List (List Bound)) : List Bound :=
  if lists = [] then [] else lists.sections.map (·.foldl inter free)

/-- Every choice of intervals narrows every member of a working set. -/
theorem foldl_combine {lists : List (List Bound)} {current : List Bound} (hcurrent : current ≠ [])
    (h : ∀ l ∈ lists, l ≠ []) :
    lists.foldl BoundTracker.combine current =
      lists.sections.flatMap fun choice => current.map fun b => choice.foldl inter b := by
  induction lists generalizing current with
  | nil => simp [List.sections]
  | cons l lists ih =>
    obtain ⟨b, rest, rfl⟩ := List.exists_cons_of_ne_nil hcurrent
    obtain ⟨i, more, rfl⟩ := List.exists_cons_of_ne_nil (h l List.mem_cons_self)
    -- A set that is not empty stays so, and is narrowed by every list behind this one.
    have hne : BoundTracker.combine (b :: rest) (i :: more) ≠ [] := by
      simp [BoundTracker.combine]
    rw [List.foldl_cons, ih hne fun l hl => h l (List.mem_cons_of_mem _ hl), List.sections,
      List.flatMap_assoc]
    refine List.flatMap_congr fun choice _ => ?_
    simp [BoundTracker.combine, List.map_flatMap, List.flatMap_map, Function.comp_def]

/-- An empty working set is narrowed to all intersections. -/
theorem foldl_combine_nil {lists : List (List Bound)} (h : ∀ l ∈ lists, l ≠ []) :
    lists.foldl BoundTracker.combine [] = intersections lists := by
  cases lists with
  | nil => rfl
  | cons l lists =>
    have hfree : (l :: lists).foldl BoundTracker.combine [] =
        (l :: lists).foldl BoundTracker.combine [free] := by
      simp [BoundTracker.combine]
    rw [hfree, foldl_combine (List.cons_ne_nil _ _) h, intersections,
      if_neg (List.cons_ne_nil l lists), List.map_eq_flatMap]
    rfl

theorem isFinite_of_mem_sections {lists : List (List Bound)} {choice : List Bound}
    (h : ∀ l ∈ lists, ∀ b ∈ l, b.IsFinite) (hchoice : choice ∈ lists.sections) :
    ∀ b ∈ choice, b.IsFinite := by
  intro b hb
  obtain ⟨l, hl, hbl⟩ := exists_of_mem_of_forall₂ (List.mem_sections.mp hchoice).flip hb
  exact h l hl b hbl

/-- Apart from the signs of zeros, each choice is intersected without an order. -/
theorem map_keys_intersections {lists : List (List Bound)} (hne : lists ≠ [])
    (h : ∀ l ∈ lists, ∀ b ∈ l, b.IsFinite) :
    ((intersections lists).map keys : Multiset (Option (Int × Int))) =
      (Multiset.Sections (.ofList (lists.map .ofList))).map
        fun choice => (choice.map keys).fold meet none := by
  rw [intersections, if_neg hne, Multiset.coe_sections, Multiset.map_coe, List.map_map,
    List.map_map]
  refine congrArg _ (List.map_congr_left fun choice hchoice => ?_)
  have hfinite : ∀ b ∈ choice, b.IsFinite := isFinite_of_mem_sections h hchoice
  rw [Function.comp_apply, Function.comp_apply, Multiset.map_coe, Multiset.coe_fold_l]
  exact keys_foldl_inter trivial hfinite

theorem perm_keys_intersections {lists lists' : List (List Bound)} (hperm : lists.Perm lists')
    (h : ∀ l ∈ lists, ∀ b ∈ l, b.IsFinite) :
    ((intersections lists).map keys).Perm ((intersections lists').map keys) := by
  by_cases hnil : lists = []
  · have hnil' : lists' = [] := (hnil ▸ hperm).nil_eq.symm
    rw [hnil, hnil']
  · have hne : lists' ≠ [] := fun hnil' => hnil (hnil' ▸ hperm).eq_nil
    have hfinite : ∀ l ∈ lists', ∀ b ∈ l, b.IsFinite := fun l hl => h l (hperm.mem_iff.mpr hl)
    rw [← Multiset.coe_eq_coe, map_keys_intersections hnil h, map_keys_intersections hne hfinite,
      Multiset.coe_eq_coe.mpr (hperm.map Multiset.ofList)]

theorem isFinite_of_readSide {text : List Char} {v : Binary64} (h : readSide text = .ok (some v)) :
    v.isFinite = true := by
  simp only [readSide] at h
  split at h
  · cases h
  split at h
  · cases h
    rfl
  split at h
  · cases h
    rfl
  split at h
  · next hfinite =>
    cases h
    exact (Option.filter_eq_some_iff.mp hfinite).2
  · cases h

theorem isFinite_of_readInterval {text : List Char} {b : Bound} (h : readInterval text = .ok b) :
    b.IsFinite := by
  rw [readInterval] at h
  split at h
  · cases h
  next low high _ =>
  obtain ⟨l, hlow, h⟩ := bind_eq_ok_iff.mp h
  obtain ⟨r, hhigh, h⟩ := bind_eq_ok_iff.mp h
  cases h
  match l, r, hlow, hhigh with
  | none, _, _, _ => trivial
  | some _, none, _, _ => trivial
  | some _, some _, hlow, hhigh =>
    exact ⟨isFinite_of_readSide hlow, isFinite_of_readSide hhigh⟩

theorem isFinite_of_readLabel {label : String} {intervals : List Bound}
    (h : readLabel label = .ok intervals) : ∀ b ∈ intervals, b.IsFinite := by
  intro b hb
  obtain ⟨text, -, htext⟩ := exists_of_mem_of_forall₂ (mapM_eq_ok_iff.mp h) hb
  exact isFinite_of_readInterval htext

theorem readLabel_ne_nil {label : String} {intervals : List Bound}
    (h : readLabel label = .ok intervals) : intervals ≠ [] := by
  rintro rfl
  exact Text.splitOn_ne_nil _ _ (List.forall₂_nil_right_iff.mp (mapM_eq_ok_iff.mp h))

end Bound

namespace BoundTracker

variable {tracker tracker' : BoundTracker} {labels : List String}

theorem addAll_eq_ok (h : tracker.addAll labels = (.ok (), tracker')) :
    ∃ lists, labels.mapM Bound.readLabel = .ok lists ∧
      tracker'.current = lists.foldl combine tracker.current := by
  simp only [mapM_eq_ok_iff]
  induction labels generalizing tracker with
  | nil =>
    cases h
    exact ⟨[], .nil, rfl⟩
  | cons label labels ih =>
    rw [addAll, add] at h
    cases hread : Bound.readLabel label with
    | error fault =>
      rw [hread] at h
      cases h
    | ok intervals =>
      rw [hread] at h
      obtain ⟨lists, hlists, hcurrent⟩ := ih h
      exact ⟨intervals :: lists, .cons hread hlists, hcurrent⟩

theorem current_addAll (h : tracker.addAll labels = (.ok (), tracker'))
    (hempty : tracker.current = []) :
    ∃ lists, labels.mapM Bound.readLabel = .ok lists ∧
      tracker'.current = Bound.intersections lists := by
  obtain ⟨lists, hlists, hcurrent⟩ := addAll_eq_ok h
  refine ⟨lists, hlists, ?_⟩
  rw [hcurrent, hempty]
  refine Bound.foldl_combine_nil fun l hl => ?_
  obtain ⟨label, -, hread⟩ := exists_of_mem_of_forall₂ (mapM_eq_ok_iff.mp hlists) hl
  exact Bound.readLabel_ne_nil hread

end BoundTracker

end Tilework
