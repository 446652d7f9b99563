import Tilework.Proofs.Application
import Tilework.Proofs.Declaration
import Tilework.Proofs.Narrowing
import Tilework.Proofs.Reference
import Tilework.Proofs.Transitions

/-!
# Nesting of size-matched operators

The exits of a size-matched composite are those of its right part, and its entries those of its left
part. So the two nestings of three tiles join the same boundaries by the same joints. They differ in
the order of their edges and in the order in which labels are fed, and neither order shows in what
is left, apart from the signs of zeros.
-/

namespace Tilework

/-! ## Narrowing by several labels at once -/

theorem Binary64.sup_assoc (a b c : Binary64) : (a.sup b).sup c = a.sup (b.sup c) := by
  grind [sup]

theorem Binary64.inf_assoc (a b c : Binary64) : (a.inf b).inf c = a.inf (b.inf c) := by
  grind [inf]

namespace Bound

instance : Std.Associative inter where
  assoc := by
    rintro (_ | ⟨l, h⟩) (_ | ⟨l', h'⟩) (_ | ⟨l'', h''⟩) <;>
      simp [Binary64.sup_assoc, Binary64.inf_assoc]

theorem foldl_inter (b : Bound) (choice : List Bound) :
    choice.foldl inter b = b.inter (choice.foldl inter free) := by
  have hassoc : b.inter (choice.foldl inter free) = choice.foldl inter (b.inter free) :=
    List.foldl_assoc.symm
  rw [hassoc, inter_free]

variable {lists : List (List Bound)} {xs ys : List Bound}

theorem foldl_combine_eq (hne : lists ≠ []) (h : ∀ l ∈ lists, l ≠ []) (current : List Bound) :
    lists.foldl BoundTracker.combine current =
      BoundTracker.combine current (intersections lists) := by
  by_cases hcurrent : current = []
  · rw [hcurrent, foldl_combine_nil h, BoundTracker.combine_nil]
  · -- Each choice narrows every member of the set, one interval after another or all at once.
    rw [foldl_combine hcurrent h, BoundTracker.combine, if_neg (by simpa using hcurrent),
      intersections, if_neg hne, List.flatMap_map]
    refine List.flatMap_congr fun choice _ => List.map_congr_left fun b _ => ?_
    exact foldl_inter b choice

/-- The places of the sides of a bound that is narrowed by one with finite sides at these places.
The bound itself may have sides that are NaN, as a member of any tracker may. -/
def narrow : Bound → Option (Int × Int) → Option (Int × Int)
  | free, k => k
  | interval low high, none => some (low.key, high.key)
  | interval low high, some (l, h) =>
    some (if low.isNaN then l else max low.key l, if high.isNaN then h else min high.key h)

theorem keys_inter_eq_narrow {b : Bound} (hb : b.IsFinite) (a : Bound) :
    (a.inter b).keys = a.narrow b.keys := by
  cases a with
  | free => rw [free_inter]; rfl
  | interval low high =>
    cases b with
    | free => rfl
    | interval l h =>
      have hl := Binary64.isNaN_of_isFinite hb.1
      have hh := Binary64.isNaN_of_isFinite hb.2
      simp only [interval_inter_interval, keys, narrow, Binary64.sup, Binary64.inf, hl, hh]
      grind

theorem perm_keys_combine (hxs : ∀ b ∈ xs, b.IsFinite) (hys : ∀ b ∈ ys, b.IsFinite)
    (hperm : (xs.map keys).Perm (ys.map keys)) (current : List Bound) :
    ((BoundTracker.combine current xs).map keys).Perm
      ((BoundTracker.combine current ys).map keys) := by
  by_cases hcurrent : current = []
  · rwa [hcurrent]
  · have hkeys : ∀ zs : List Bound, (∀ b ∈ zs, b.IsFinite) →
        (BoundTracker.combine current zs).map keys =
          (zs.map keys).flatMap fun k => current.map fun b => b.narrow k := by
      intro zs hzs
      rw [BoundTracker.combine, if_neg (by simpa using hcurrent), List.map_flatMap,
        List.flatMap_map]
      refine List.flatMap_congr fun b hb => ?_
      rw [List.map_map]
      exact List.map_congr_left fun a _ => keys_inter_eq_narrow (hzs b hb) a
    rw [hkeys xs hxs, hkeys ys hys]
    exact hperm.flatMap_right _

theorem perm_keys_foldl_combine {lists' : List (List Bound)} (hperm : lists'.Perm lists)
    (hne : ∀ l ∈ lists, l ≠ []) (hfinite : ∀ l ∈ lists, ∀ b ∈ l, b.IsFinite)
    (current : List Bound) :
    ((lists'.foldl BoundTracker.combine current).map keys).Perm
      ((lists.foldl BoundTracker.combine current).map keys) := by
  by_cases hnil : lists = []
  · rw [hnil, (hnil ▸ hperm : lists'.Perm []).eq_nil]
  · have hnil' : lists' ≠ [] := fun h => hnil (h ▸ hperm).nil_eq.symm
    have hfinite' : ∀ l ∈ lists', ∀ b ∈ l, b.IsFinite := fun l hl =>
      hfinite l (hperm.mem_iff.mp hl)
    rw [foldl_combine_eq hnil hne,
      foldl_combine_eq hnil' fun l hl => hne l (hperm.mem_iff.mp hl)]
    exact perm_keys_combine (fun b => isFinite_of_mem_intersections hfinite')
      (fun b => isFinite_of_mem_intersections hfinite) (perm_keys_intersections hperm hfinite')
      current

end Bound

namespace BoundTracker

variable {labels labels' : List String} {tracker after : BoundTracker}

theorem exists_addAll_of_perm (hperm : labels'.Perm labels)
    (h : tracker.addAll labels = (.ok (), after)) :
    ∃ after', tracker.addAll labels' = (.ok (), after') ∧
      (after'.current.map Bound.keys).Perm (after.current.map Bound.keys) := by
  obtain ⟨lists, hlists, hcurrent⟩ := addAll_eq_ok h
  have hread : ∀ l ∈ lists, ∃ label, Bound.readLabel label = .ok l := by
    intro l hl
    obtain ⟨label, -, hlabel⟩ := exists_of_mem_of_forall₂ (mapM_eq_ok_iff.mp hlists) hl
    exact ⟨label, hlabel⟩
  have hne : ∀ l ∈ lists, l ≠ [] := fun l hl => (hread l hl).elim fun _ => Bound.readLabel_ne_nil
  have hfinite : ∀ l ∈ lists, ∀ b ∈ l, b.IsFinite := fun l hl =>
    (hread l hl).elim fun _ => Bound.isFinite_of_readLabel
  have hreadable : ∀ label ∈ labels', Bound.Readable label := by
    intro label hlabel
    obtain ⟨l, -, hl⟩ := exists_of_mem_of_forall₂ (mapM_eq_ok_iff.mp hlists).flip
      (hperm.mem_iff.mp hlabel)
    exact ⟨l, hl⟩
  obtain ⟨after', h'⟩ := exists_addAll hreadable tracker
  obtain ⟨lists', hlists', hcurrent'⟩ := addAll_eq_ok h'
  obtain ⟨same, hsame, hlists_perm⟩ := exists_mapM_of_perm hperm hlists
  obtain rfl : same = lists' := Except.ok.inj (hsame.symm.trans hlists')
  refine ⟨after', h', ?_⟩
  rw [hcurrent, hcurrent']
  exact Bound.perm_keys_foldl_combine hlists_perm hne hfinite tracker.current

end BoundTracker

/-! ## One operator -/

namespace Tile

/-- The joints of all exits of the left tile and all entries of the right one. -/
def pairs (left right : Tile) : List Joint := left.exits.zipWith Joint.mk right.entries

def plus (left right : Tile) : Tile := Operator.sizeMatched.merge [left, right] (left.pairs right)

/-- The operator takes two tiles whose boundaries have the same size. -/
def Fits (left right : Tile) : Prop := left.exits.length = right.entries.length

theorem foldl_joinDeclarations (blocks declarations : List String) :
    declarations.foldl joinDeclarations (joinedDeclarations blocks) =
      joinedDeclarations (blocks ++ declarations) := by
  induction declarations generalizing blocks with
  | nil => simp
  | cons declaration declarations ih =>
    rw [List.foldl_cons, joinDeclarations_singleton, joinDeclarations_joinedDeclarations, ih,
      List.append_assoc, List.singleton_append]

variable {left right tile : Tile}

theorem unite?_eq_some_iff :
    Operator.sizeMatched.unite? [left, right] = some tile ↔
      left.Fits right ∧ tile = left.plus right := by
  rw [Operator.unite?, Operator.joints?, joinAll]
  by_cases h : left.exits.length = right.entries.length
  · simp [h, Fits, plus, pairs, eq_comm]
  · simp [h, Fits]

theorem declaration_plus :
    (left.plus right).declaration = joinedDeclarations [left.declaration, right.declaration] := by
  rw [plus, Operator.merge, declaration_foldl_join]
  exact foldl_joinDeclarations [] [left.declaration, right.declaration]

theorem planned_pairs (h : left.Fits right) :
    Operator.Planned .sizeMatched [left, right] (left.pairs right) := by
  apply Operator.planned_of_joints?
  exact congrArg some (if_pos h)

section fits

variable (h : left.Fits right) (hnd : (left.locationIds ++ right.locationIds).Nodup)

include h in
theorem entry_mem_locationIds {joint : Joint} (hjoint : joint ∈ left.pairs right) :
    joint.entry ∈ right.locationIds := by
  cases planned_pairs h with
  | sizeMatched hexits hentries =>
    have hmem : joint.entry ∈ right.entries := hentries ▸ List.mem_map_of_mem hjoint
    exact (right.boundary_sublist .entry).subset hmem

include hnd in
theorem nodup_absorbAll : (Operator.sizeMatched.absorbAll [left, right]).locationIds.Nodup := by
  simpa using hnd

include hnd in
theorem locations_plus :
    (left.plus right).locations =
      (left.locations ++ right.locations).map (·.release (Joint.ends (left.pairs right))) := by
  rw [plus, Operator.merge, locations_foldl_join, foldl_clearRole (nodup_absorbAll hnd)]
  simp

include h hnd

theorem entries_plus : (left.plus right).entries = left.entries :=
  (planned_pairs h).entries_merge (nodup_absorbAll hnd)

theorem exits_plus : (left.plus right).exits = right.exits :=
  (planned_pairs h).exits_merge (nodup_absorbAll hnd)

theorem transitions_plus :
    (left.plus right).transitions =
      left.transitions ++ right.transitions ++ (left.pairs right).map (·.edge right) := by
  rw [plus, Operator.transitions_merge]
  congr 1
  · simp
  · refine List.map_congr_left fun joint hjoint => ?_
    have hentry : joint.entry ∈ right.locationIds := entry_mem_locationIds h hjoint
    have hmerge : Operator.sizeMatched.absorbAll [left, right] =
        Operator.sizeMatched.merge [left, right] [] := rfl
    rw [Joint.edge_eq, Joint.edge_eq, hmerge,
      Operator.comment?_merge (nodup_absorbAll hnd) (by simp) hentry]

end fits

/-! ## Two operators -/

section nest

variable {a b c : Tile}

@[simp] theorem locationIds_plus (left right : Tile) :
    (left.plus right).locationIds = left.locationIds ++ right.locationIds := by
  simp [plus]

theorem declaration_plus_plus (a b c : Tile) :
    ((a.plus b).plus c).declaration = (a.plus (b.plus c)).declaration := by
  have hpair : ∀ first second : String, joinedDeclarations [first, second] =
      joinDeclarations (joinedDeclarations [first]) (joinedDeclarations [second]) :=
    fun first second => (joinDeclarations_joinedDeclarations [first] [second]).symm
  have hjoined : ∀ blocks : List String,
      joinedDeclarations [joinedDeclarations blocks] = joinedDeclarations blocks := by
    intro blocks
    have hsame := joinDeclarations_singleton (joinedDeclarations []) (joinedDeclarations blocks)
    rw [joinDeclarations_joinedDeclarations, joinDeclarations_joinedDeclarations] at hsame
    exact hsame.symm
  simp only [declaration_plus]
  rw [hpair (joinedDeclarations [a.declaration, b.declaration]) c.declaration, hjoined,
    hpair a.declaration (joinedDeclarations [b.declaration, c.declaration]), hjoined,
    joinDeclarations_joinedDeclarations, joinDeclarations_joinedDeclarations]
  rfl

variable (hab : a.Fits b) (hbc : b.Fits c)
  (hnd : (a.locationIds ++ (b.locationIds ++ c.locationIds)).Nodup)

include hnd in
theorem nodup_left : (a.locationIds ++ b.locationIds).Nodup :=
  (List.append_assoc _ _ _ ▸ hnd).of_append_left

include hnd in
theorem nodup_right : (b.locationIds ++ c.locationIds).Nodup := hnd.of_append_right

include hab hnd in
theorem pairs_plus_left : (a.plus b).pairs c = b.pairs c := by
  rw [pairs, exits_plus hab (nodup_left hnd), ← pairs]

include hbc hnd in
theorem pairs_plus_right : a.pairs (b.plus c) = a.pairs b := by
  rw [pairs, entries_plus hbc (nodup_right hnd), ← pairs]

include hab hnd in
theorem fits_plus_left : (a.plus b).Fits c ↔ b.Fits c := by
  rw [Fits, exits_plus hab (nodup_left hnd), ← Fits]

include hbc hnd in
theorem fits_plus_right : a.Fits (b.plus c) ↔ a.Fits b := by
  rw [Fits, entries_plus hbc (nodup_right hnd), ← Fits]

include hab hnd in
theorem disjoint_ends_left : (c.locations.map (·.id)).Disjoint (Joint.ends (a.pairs b)) := by
  intro id hc hend
  have hid : id ∈ a.locationIds ++ b.locationIds := by
    simpa using (planned_pairs hab).fit.ends_subset hend
  have hall : ((a.locationIds ++ b.locationIds) ++ c.locationIds).Nodup :=
    List.append_assoc _ _ _ ▸ hnd
  exact (List.nodup_append'.mp hall).2.2 hid hc

include hbc hnd in
theorem disjoint_ends_right : (a.locations.map (·.id)).Disjoint (Joint.ends (b.pairs c)) := by
  intro id ha hend
  have hid : id ∈ b.locationIds ++ c.locationIds := by
    simpa using (planned_pairs hbc).fit.ends_subset hend
  exact (List.nodup_append'.mp hnd).2.2 ha hid

theorem map_release_append {ls : List Location} {ids ids' : List String}
    (h : (ls.map (·.id)).Disjoint ids') :
    ls.map (·.release (ids ++ ids')) = ls.map (·.release ids) := by
  refine List.map_congr_left fun l hl => ?_
  have hid : l.id ∉ ids' := h (List.mem_map_of_mem hl)
  simp [Location.release, hid]

include hab hbc hnd

theorem locations_plus_plus :
    ((a.plus b).plus c).locations = (a.plus (b.plus c)).locations := by
  have hleft : ((a.plus b).locationIds ++ c.locationIds).Nodup := by simpa using hnd
  have hright : (a.locationIds ++ (b.plus c).locationIds).Nodup := by simpa using hnd
  rw [locations_plus hleft, locations_plus hright, locations_plus (nodup_left hnd),
    locations_plus (nodup_right hnd), pairs_plus_left hab hnd, pairs_plus_right hbc hnd]
  set ends := Joint.ends (a.pairs b)
  set ends' := Joint.ends (b.pairs c)
  -- Both operators act on the middle tile only; no end of one is in the outer tile of the other.
  have hboth : b.locations.map (·.release (ends ++ ends')) =
      b.locations.map (·.release (ends' ++ ends)) :=
    List.map_congr_left fun l _ => by simp [Location.release, or_comm]
  calc ((a.locations ++ b.locations).map (·.release ends) ++ c.locations).map (·.release ends')
      = a.locations.map (·.release (ends ++ ends')) ++
          b.locations.map (·.release (ends ++ ends')) ++ c.locations.map (·.release ends') := by
        simp [Function.comp_def, Location.release_release]
    _ = a.locations.map (·.release ends) ++ b.locations.map (·.release (ends' ++ ends)) ++
          c.locations.map (·.release (ends' ++ ends)) := by
        rw [map_release_append (disjoint_ends_right hbc hnd), hboth,
          map_release_append (disjoint_ends_left hab hnd)]
    _ = (a.locations ++ (b.locations ++ c.locations).map (·.release ends')).map
          (·.release ends) := by
        simp [Function.comp_def, Location.release_release]

theorem perm_transitions_plus_plus :
    ((a.plus b).plus c).transitions.Perm (a.plus (b.plus c)).transitions := by
  have hleft : ((a.plus b).locationIds ++ c.locationIds).Nodup := by simpa using hnd
  have hright : (a.locationIds ++ (b.plus c).locationIds).Nodup := by simpa using hnd
  have hfits : (a.plus b).Fits c := (fits_plus_left hab hnd).mpr hbc
  have hfits' : a.Fits (b.plus c) := (fits_plus_right hbc hnd).mpr hab
  rw [transitions_plus hfits hleft, transitions_plus hfits' hright,
    transitions_plus hab (nodup_left hnd), transitions_plus hbc (nodup_right hnd),
    pairs_plus_left hab hnd, pairs_plus_right hbc hnd]
  -- An entry of the middle tile has one setup text, in the tile itself and in the composite.
  have hedges : (a.pairs b).map (·.edge (b.plus c)) = (a.pairs b).map (·.edge b) := by
    refine List.map_congr_left fun joint hjoint => ?_
    have hentry : joint.entry ∈ b.locationIds := entry_mem_locationIds hab hjoint
    rw [Joint.edge_eq, Joint.edge_eq, plus,
      Operator.comment?_merge (nodup_absorbAll (nodup_right hnd)) (by simp) hentry]
  rw [hedges]
  refine List.perm_iff_count.mpr fun t => ?_
  simp only [List.count_append]
  omega

end nest

end Tile

/-! ## Both nestings -/

def Tile.labels (tiles : List Tile) : List String := tiles.filterMap (·.parameterBounds)

theorem BoundTracker.addAll_append_eq_ok {labels labels' : List String}
    {tracker after : BoundTracker} :
    tracker.addAll (labels ++ labels') = (.ok (), after) ↔
      ∃ middle, tracker.addAll labels = (.ok (), middle) ∧
        middle.addAll labels' = (.ok (), after) := by
  rw [addAll_append]
  rcases tracker.addAll labels with ⟨fault | u, middle⟩
  · simp
  · simp

namespace Operator

/-- Merge the first two tiles, and then their composite with the third. -/
def nestLeft (op : Operator) (a b c : Tile) (tracker : BoundTracker) : Attempt BoundTracker Tile :=
  (op.apply [a, b] tracker).andThen fun ab tracker => op.apply [ab, c] tracker

/-- Merge the last two tiles, and then the first with their composite. -/
def nestRight (op : Operator) (a b c : Tile) (tracker : BoundTracker) : Attempt BoundTracker Tile :=
  (op.apply [b, c] tracker).andThen fun bc tracker => op.apply [a, bc] tracker

variable {a b c tile : Tile} {tracker after : BoundTracker}

theorem apply_sizeMatched_eq_ok {left right : Tile} :
    sizeMatched.apply [left, right] tracker = (.ok tile, after) ↔
      left.Fits right ∧ tile = left.plus right ∧
        tracker.addAll (Tile.labels [left, right]) = (.ok (), after) := by
  rw [apply_eq_ok_iff, Tile.unite?_eq_some_iff, and_assoc, Tile.labels]

theorem nestLeft_eq_ok (hnd : (a.locationIds ++ (b.locationIds ++ c.locationIds)).Nodup) :
    sizeMatched.nestLeft a b c tracker = (.ok tile, after) ↔
      a.Fits b ∧ b.Fits c ∧ tile = (a.plus b).plus c ∧
        tracker.addAll (Tile.labels [a, b] ++ Tile.labels [c]) = (.ok (), after) := by
  have hlabels : Tile.labels [a.plus b, c] = Tile.labels [c] := by
    simp [Tile.labels, Tile.plus]
  constructor
  · intro h
    obtain ⟨ab, middle, hfirst, hsecond⟩ := Attempt.andThen_eq_ok h
    obtain ⟨hab, rfl, hfed⟩ := apply_sizeMatched_eq_ok.mp hfirst
    obtain ⟨habc, rfl, hfed'⟩ := apply_sizeMatched_eq_ok.mp hsecond
    refine ⟨hab, (Tile.fits_plus_left hab hnd).mp habc, rfl, ?_⟩
    exact BoundTracker.addAll_append_eq_ok.mpr ⟨middle, hfed, hlabels ▸ hfed'⟩
  · rintro ⟨hab, hbc, rfl, hfed⟩
    obtain ⟨middle, hfirst, hsecond⟩ := BoundTracker.addAll_append_eq_ok.mp hfed
    rw [nestLeft, apply_sizeMatched_eq_ok.mpr ⟨hab, rfl, hfirst⟩, Attempt.andThen_ok]
    exact apply_sizeMatched_eq_ok.mpr
      ⟨(Tile.fits_plus_left hab hnd).mpr hbc, rfl, hlabels.symm ▸ hsecond⟩

theorem nestRight_eq_ok (hnd : (a.locationIds ++ (b.locationIds ++ c.locationIds)).Nodup) :
    sizeMatched.nestRight a b c tracker = (.ok tile, after) ↔
      a.Fits b ∧ b.Fits c ∧ tile = a.plus (b.plus c) ∧
        tracker.addAll (Tile.labels [b, c] ++ Tile.labels [a]) = (.ok (), after) := by
  have hlabels : Tile.labels [a, b.plus c] = Tile.labels [a] := by
    simp [Tile.labels, Tile.plus, List.filterMap_cons]
  constructor
  · intro h
    obtain ⟨bc, middle, hfirst, hsecond⟩ := Attempt.andThen_eq_ok h
    obtain ⟨hbc, rfl, hfed⟩ := apply_sizeMatched_eq_ok.mp hfirst
    obtain ⟨habc, rfl, hfed'⟩ := apply_sizeMatched_eq_ok.mp hsecond
    refine ⟨(Tile.fits_plus_right hbc hnd).mp habc, hbc, rfl, ?_⟩
    exact BoundTracker.addAll_append_eq_ok.mpr ⟨middle, hfed, hlabels ▸ hfed'⟩
  · rintro ⟨hab, hbc, rfl, hfed⟩
    obtain ⟨middle, hfirst, hsecond⟩ := BoundTracker.addAll_append_eq_ok.mp hfed
    rw [nestRight, apply_sizeMatched_eq_ok.mpr ⟨hbc, rfl, hfirst⟩, Attempt.andThen_ok]
    exact apply_sizeMatched_eq_ok.mpr
      ⟨(Tile.fits_plus_right hbc hnd).mpr hab, rfl, hlabels.symm ▸ hsecond⟩

theorem perm_labels (a b c : Tile) :
    (Tile.labels [b, c] ++ Tile.labels [a]).Perm (Tile.labels [a, b] ++ Tile.labels [c]) := by
  have hsplit : Tile.labels [a, b] ++ Tile.labels [c] = Tile.labels [a] ++ Tile.labels [b, c] := by
    simp only [Tile.labels, ← List.filterMap_append, List.cons_append, List.nil_append]
  rw [hsplit]
  exact List.perm_append_comm

/-- With distinct location ids, one nesting succeeds when the other does. Both results have the same
locations, declarations and boundary, and the same transitions up to their order; the working sets
are the same up to their order and the signs of zeros. -/
theorem nest_sizeMatched (hnd : (a.locationIds ++ (b.locationIds ++ c.locationIds)).Nodup)
    (tracker : BoundTracker) :
    ((∃ left after, sizeMatched.nestLeft a b c tracker = (.ok left, after)) ↔
      ∃ right after, sizeMatched.nestRight a b c tracker = (.ok right, after)) ∧
    ∀ left right after after', sizeMatched.nestLeft a b c tracker = (.ok left, after) →
      sizeMatched.nestRight a b c tracker = (.ok right, after') →
      left.locations = right.locations ∧ left.declaration = right.declaration ∧
        left.entries = right.entries ∧ left.exits = right.exits ∧
        left.transitions.Perm right.transitions ∧
        (after.current.map Bound.keys).Perm (after'.current.map Bound.keys) := by
  simp only [nestLeft_eq_ok hnd, nestRight_eq_ok hnd]
  constructor
  · constructor
    · rintro ⟨_, after, hab, hbc, rfl, hfed⟩
      obtain ⟨after', hfed', -⟩ := BoundTracker.exists_addAll_of_perm (perm_labels a b c) hfed
      exact ⟨_, after', hab, hbc, rfl, hfed'⟩
    · rintro ⟨_, after, hab, hbc, rfl, hfed⟩
      obtain ⟨after', hfed', -⟩ := BoundTracker.exists_addAll_of_perm (perm_labels a b c).symm hfed
      exact ⟨_, after', hab, hbc, rfl, hfed'⟩
  · rintro _ _ after after' ⟨hab, hbc, rfl, hfed⟩ ⟨-, -, rfl, hfed'⟩
    have hlocations := Tile.locations_plus_plus hab hbc hnd
    have hboundary (role : Role) :
        ((a.plus b).plus c).boundary role = (a.plus (b.plus c)).boundary role := by
      rw [Tile.boundary, hlocations, ← Tile.boundary]
    obtain ⟨same, hsame, hperm⟩ := BoundTracker.exists_addAll_of_perm (perm_labels a b c).symm hfed'
    obtain rfl : same = after := congrArg Prod.snd (hsame.symm.trans hfed)
    exact ⟨hlocations, Tile.declaration_plus_plus a b c, hboundary .entry, hboundary .exit,
      Tile.perm_transitions_plus_plus hab hbc hnd, hperm⟩

/-! ## A third tile, with a label and a setup text -/

def stopTile : Tile where
  name := "stop"
  declaration := "clock t;"
  parameterBounds := some "-0:10"
  locations := [{ id := "s", comment := some "n = 1", isFinal := true, role := some .entry }]

theorem nestLeft_fork : (sizeMatched.nestLeft forkTile meetTile stopTile {}).1.toOption.isSome := by
  decide +kernel

/-- The low side 0 of the first label and the low side -0 of the last one are intersected in both
orders. -/
theorem nest_sizeMatched_fork :
    (forkTile.locationIds ++ (meetTile.locationIds ++ stopTile.locationIds)).Nodup ∧
      ∃ left right after after',
        sizeMatched.nestLeft forkTile meetTile stopTile {} = (.ok left, after) ∧
        sizeMatched.nestRight forkTile meetTile stopTile {} = (.ok right, after') ∧
        left.locations = right.locations ∧ left.transitions.Perm right.transitions ∧
        (after.current.map Bound.keys).Perm (after'.current.map Bound.keys) := by
  have hnd : (forkTile.locationIds ++ (meetTile.locationIds ++ stopTile.locationIds)).Nodup := by
    decide
  obtain ⟨left, hvalue⟩ := Option.isSome_iff_exists.mp nestLeft_fork
  have hleft := Attempt.eq_ok_of_toOption hvalue
  obtain ⟨hiff, hsame⟩ := nest_sizeMatched hnd {}
  obtain ⟨right, after', hright⟩ := hiff.mp ⟨left, _, hleft⟩
  obtain ⟨hlocations, -, -, -, htransitions, hbounds⟩ := hsame left right _ after' hleft hright
  exact ⟨hnd, left, right, _, after', hleft, hright, hlocations, htransitions, hbounds⟩

end Operator

end Tilework
