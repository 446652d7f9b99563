import Mathlib.Data.List.Basic
import Tilework.File.Tree
import Tilework.Proofs.Sequencing
import Tilework.Proofs.Splitting

/-!
# Walking along paths

A path below a directory is walked as the path of the directory and then one name more. So what a
directory lists is found under its name there, unless the name or the whole path is too long.
-/

namespace Tilework

namespace FileTree

variable {tree : FileTree} {path directory name : String} {place place' : List String}
  {entry : FileEntry}

theorem checkPath_eq_ok_iff : checkPath path = .ok () ↔
    '\x00' ∉ path.toList ∧ path ≠ "" ∧ path.utf8ByteSize ≤ pathLimit := by
  rw [checkPath]
  split
  · simp [*]
  split
  · simp [*]
  split
  · next hlong => simp [Nat.not_le.mpr hlong]
  · next hnul hempty hshort => exact iff_of_true rfl ⟨hnul, hempty, Nat.not_lt.mp hshort⟩

theorem find_eq_ok_iff : tree.find path = .ok (place, entry) ↔
    checkPath path = .ok () ∧
      (tree.route path).2.foldlM tree.descend (tree.route path).1 = .ok place ∧
      tree.entry? place = some entry := by
  rw [find, bind_eq_ok_iff]
  constructor
  · rintro ⟨_, hcheck, h⟩
    obtain ⟨found, hwalk, h⟩ := bind_eq_ok_iff.mp h
    split at h
    · next hentry =>
      cases h
      exact ⟨hcheck, hwalk, hentry⟩
    · cases h
  · rintro ⟨hcheck, hwalk, hentry⟩
    refine ⟨(), hcheck, bind_eq_ok_iff.mpr ⟨place, hwalk, ?_⟩⟩
    rw [hentry]
    rfl

theorem isFile_iff : tree.isFile path ↔
    ∃ place entry, tree.find path = .ok (place, entry) ∧ entry.isFile = true := by
  rw [isFile]
  cases tree.find path with
  | error fault => simp
  | ok found => exact ⟨fun h => ⟨found.1, found.2, rfl, h⟩, by rintro ⟨_, _, ⟨⟩, h⟩; exact h⟩

theorem readText_of_find (hfind : tree.find path = .ok (place, entry)) :
    tree.readText path = entry.text := by
  rw [readText, hfind]
  rfl

theorem exists_entry?_iff (hplace : place ≠ []) :
    (∃ entry, tree.entry? place = some entry) ↔ ∃ e ∈ tree.entries, e.1 = place := by
  unfold entry?
  rw [if_neg hplace, ← Option.isSome_iff_exists, Option.isSome_map, List.find?_isSome]
  simp only [decide_eq_true_eq]

theorem mem_children : name ∈ tree.children path ↔
    ∃ place, tree.find path = .ok (place, .directory) ∧
      ∃ entry, tree.entry? (place ++ [name]) = some entry := by
  rw [children]
  split
  · next place hfind =>
    have hchild : ∀ e : List String × FileEntry,
        (e.1 ≠ [] ∧ e.1.dropLast = place) ∧ e.1.getLast? = some name ↔ e.1 = place ++ [name] := by
      intro e
      constructor
      · rintro ⟨⟨-, hplace⟩, hlast⟩
        rw [← hplace, List.dropLast_append_getLast? name hlast]
      · intro he
        simp [he]
    have hmem : name ∈ (tree.entries.filter fun e => e.1 ≠ [] ∧ e.1.dropLast = place).filterMap
        (·.1.getLast?) ↔ ∃ e ∈ tree.entries, e.1 = place ++ [name] := by
      simp only [List.mem_filterMap, List.mem_filter, decide_eq_true_eq, and_assoc, ← hchild]
    rw [hmem, ← exists_entry?_iff (by simp)]
    constructor
    · exact fun hentry => ⟨place, hfind, hentry⟩
    · rintro ⟨other, hother, hentry⟩
      cases hfind.symm.trans hother
      exact hentry
  · next hnot =>
    refine iff_of_false List.not_mem_nil ?_
    rintro ⟨place, hfind, -⟩
    exact hnot place hfind

/-- A text that can be the name of an entry of a directory. -/
structure EntryName (name : String) : Prop where
  noSlash : '/' ∉ name.toList
  noNul : '\x00' ∉ name.toList
  proper : name ∉ ["", ".", ".."]

theorem toList_child (directory name : String) :
    (directory ++ "/" ++ name).toList = directory.toList ++ '/' :: name.toList := by
  rw [String.append_assoc, String.toList_append, String.toList_append]
  rfl

theorem route_child (hdirectory : directory ≠ "") (hname : EntryName name) :
    tree.route (directory ++ "/" ++ name) =
      ((tree.route directory).1, (tree.route directory).2 ++ [name.toList]) := by
  have hhead : (directory ++ "/" ++ name).toList.head? = directory.toList.head? := by
    rw [toList_child, List.head?_append_of_ne_nil]
    exact fun hnil => hdirectory (String.toList_eq_nil_iff.mp hnil)
  have hsplit : Text.splitOn '/' (directory ++ "/" ++ name).toList =
      Text.splitOn '/' directory.toList ++ [name.toList] := by
    rw [toList_child, Text.splitOn_append_sep, Text.splitOn_of_notMem hname.noSlash]
  rw [route, route, hhead, hsplit]

theorem step_child (place : List String) (hname : EntryName name) :
    step place name.toList = place ++ [name] := by
  have hproper : ∀ special ∈ ["", ".", ".."], name.toList ≠ special.toList := by
    intro special hspecial heq
    exact hname.proper (String.toList_inj.mp heq ▸ hspecial)
  have hempty : name.toList ≠ [] := hproper "" (by simp)
  have hdot : name.toList ≠ ['.'] := hproper "." (by simp)
  have hdots : name.toList ≠ ['.', '.'] := hproper ".." (by simp)
  rw [step, if_neg (not_or.mpr ⟨hempty, hdot⟩), if_neg hdots, String.ofList_toList]

theorem find_child_eq_ok_iff (hfound : tree.find directory = .ok (place, .directory))
    (hname : EntryName name) :
    tree.find (directory ++ "/" ++ name) = .ok (place', entry) ↔
      (name.utf8ByteSize ≤ nameLimit ∧ (directory ++ "/" ++ name).utf8ByteSize ≤ pathLimit) ∧
        place' = place ++ [name] ∧ tree.entry? place' = some entry := by
  obtain ⟨hcheck, hwalk, hplace⟩ := find_eq_ok_iff.mp hfound
  obtain ⟨hnul, hempty, -⟩ := checkPath_eq_ok_iff.mp hcheck
  have hcheck' : checkPath (directory ++ "/" ++ name) = .ok () ↔
      (directory ++ "/" ++ name).utf8ByteSize ≤ pathLimit := by
    have hnul' : '\x00' ∉ (directory ++ "/" ++ name).toList := by
      rw [toList_child]
      simp [hnul, hname.noNul]
    have hempty' : directory ++ "/" ++ name ≠ "" := by
      intro hnil
      have hlist := congrArg String.toList hnil
      rw [toList_child] at hlist
      simp at hlist
    rw [checkPath_eq_ok_iff]
    exact ⟨fun h => h.2.2, fun h => ⟨hnul', hempty', h⟩⟩
  have hwalk' : ((tree.route directory).2 ++ [name.toList]).foldlM tree.descend
      (tree.route directory).1 =
        if nameLimit < name.utf8ByteSize then .error .longName else .ok (place ++ [name]) := by
    have hlast : tree.descend place name.toList =
        if nameLimit < name.utf8ByteSize then .error .longName else .ok (place ++ [name]) := by
      simp only [descend, hplace, String.ofList_toList, step_child place hname]
    rw [List.foldlM_append, hwalk, ← hlast]
    exact bind_pure (tree.descend place name.toList)
  rw [find_eq_ok_iff, hcheck', route_child hempty hname, hwalk']
  by_cases hlong : nameLimit < name.utf8ByteSize
  · simp [if_pos hlong, Nat.not_le.mpr hlong]
  · rw [if_neg hlong, Except.ok.injEq, eq_comm (a := place ++ [name]),
      and_iff_right (Nat.not_lt.mp hlong)]

end FileTree

end Tilework
