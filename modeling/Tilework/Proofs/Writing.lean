import Tilework.Proofs.Walking

/-!
# Writing files

A text is written to a place that is no directory, so the walk to any path goes on as before. What
is read from the path of a file afterwards is the text, and all other places keep what lies there. A
device takes the text in, and the tree stays as it is.
-/

namespace Tilework.FileTree

variable {tree tree' : FileTree} {path text : String} {start next place other : List String}
  {name : List Char} {names : List (List Char)} {entry : FileEntry}

theorem entry?_put_self (hplace : place ≠ []) :
    entry? (tree.put place entry) place = some entry := by
  have hnone : (tree.entries.filter (·.1 ≠ place)).find? (·.1 = place) = none := by
    rw [List.find?_eq_none]
    intro e he
    simpa using (List.mem_filter.mp he).2
  unfold entry?
  rw [if_neg hplace, put, List.find?_append, hnone]
  simp

theorem entry?_put_of_ne (h : other ≠ place) :
    entry? (tree.put place entry) other = tree.entry? other := by
  have hfilter : (tree.entries.filter (·.1 ≠ place)).find? (·.1 = other) =
      tree.entries.find? (·.1 = other) := by
    rw [List.find?_filter]
    congr 1
    funext e
    by_cases he : e.1 = other <;> simp [he, h]
  unfold entry?
  rw [put, List.find?_append, hfilter]
  simp [h.symm]

theorem descend_put (hplace : tree.entry? place ≠ some .directory)
    (h : tree.descend start name = .ok next) :
    (tree.put place entry).descend start name = .ok next := by
  have hne : start ≠ place := by
    rintro rfl
    rw [descend] at h
    split at h
    · cases h
    · next hdirectory => exact hplace hdirectory
    · cases h
  rwa [descend, entry?_put_of_ne hne]

theorem walk_put (hplace : tree.entry? place ≠ some .directory)
    (h : names.foldlM tree.descend start = .ok next) :
    names.foldlM (tree.put place entry).descend start = .ok next := by
  induction names generalizing start with
  | nil => exact h
  | cons name names ih =>
    rw [List.foldlM_cons] at h ⊢
    obtain ⟨middle, hstep, hrest⟩ := bind_eq_ok_iff.mp h
    exact bind_eq_ok_iff.mpr ⟨middle, descend_put hplace hstep, ih hrest⟩

theorem entry?_of_descend (h : tree.descend start name = .ok next) :
    tree.entry? start = some .directory ∧ next = step start name := by
  rw [descend] at h
  split at h
  · cases h
  · next hdirectory =>
    split at h
    · cases h
    · exact ⟨hdirectory, (Except.ok.inj h).symm⟩
  · cases h

theorem entry?_of_descend_dot (h : tree.descend start ['.'] = .ok place) :
    tree.entry? place = some .directory := by
  obtain ⟨hdirectory, rfl⟩ := entry?_of_descend h
  exact hdirectory

/-- No name is dropped where the last one is not empty. -/
theorem eq_append_of_dropWhile_reverse {names above : List (List Char)} {name : List Char}
    (hlast : names.getLast? ≠ some [])
    (hnames : names.reverse.dropWhile (· = []) = name :: above) :
    names = above.reverse ++ [name] := by
  rw [← List.head?_reverse] at hlast
  cases hreverse : names.reverse with
  | nil =>
    rw [hreverse] at hnames
    cases hnames
  | cons last rest =>
    rw [hreverse] at hnames hlast
    rw [List.dropWhile_cons_of_neg (by simpa using hlast)] at hnames
    rw [← List.reverse_reverse names, hreverse, hnames, List.reverse_cons]

theorem writeText_eq_ok (h : tree.writeText path text = .ok tree') :
    checkPath path = .ok () ∧ ∃ place,
      (tree.route path).2.foldlM tree.descend (tree.route path).1 = .ok place ∧
      tree.entry? place ≠ some .directory ∧
      ((∃ hasRoom, tree.entry? place = some (.device hasRoom)) ∧ tree' = tree ∨
        tree' = tree.put place (.file text.toUTF8)) := by
  obtain ⟨_, hcheck, h⟩ := bind_eq_ok_iff.mp h
  refine ⟨hcheck, ?_⟩
  generalize tree.route path = route at h ⊢
  obtain ⟨start, names⟩ := route
  dsimp only at h ⊢
  split at h
  · cases h
  next name above hnames =>
  obtain ⟨directory, habove, h⟩ := bind_eq_ok_iff.mp h
  obtain ⟨place, hlast, h⟩ := bind_eq_ok_iff.mp h
  by_cases hslash : names.getLast? = some []
  · rw [if_pos hslash] at hlast
    rw [entry?_of_descend_dot hlast] at h
    cases h
  have hwhole := eq_append_of_dropWhile_reverse hslash hnames
  rw [if_neg hslash] at hlast
  refine ⟨place, ?_, ?_⟩
  · rw [hwhole, List.foldlM_append]
    exact bind_eq_ok_iff.mpr ⟨directory, habove, bind_eq_ok_iff.mpr ⟨place, hlast, rfl⟩⟩
  · split at h
    · cases h
    · cases h
    · next hroom =>
      cases h
      simp [hroom]
    · next hroom =>
      split at h
      · cases h
        simp [hroom]
      · cases h
    · next hdirectory _ _ _ =>
      cases h
      exact ⟨hdirectory, Or.inr rfl⟩

/-- The tree after a text was written to a path. The path leads to a file that holds the text, and
all other places hold what they held. A device takes the text in and leaves the tree as it is. -/
inductive Written (tree : FileTree) (path text : String) : FileTree → Prop
  | file {tree' : FileTree} {place : List String}
      (found : tree'.find path = .ok (place, .file text.toUTF8))
      (others : ∀ other, other ≠ place → tree'.entry? other = tree.entry? other) :
      Written tree path text tree'
  | device {place : List String} {hasRoom : Bool}
      (found : tree.find path = .ok (place, .device hasRoom)) : Written tree path text tree

theorem Written.of_writeText (h : tree.writeText path text = .ok tree') :
    tree.Written path text tree' := by
  obtain ⟨hcheck, place, hwalk, hdirectory, ⟨⟨hasRoom, hdevice⟩, rfl⟩ | rfl⟩ := writeText_eq_ok h
  · exact .device (find_eq_ok_iff.mpr ⟨hcheck, hwalk, hdevice⟩)
  · have hplace : place ≠ [] := by
      rintro rfl
      exact hdirectory rfl
    have hfound : (tree.put place (.file text.toUTF8)).find path =
        .ok (place, .file text.toUTF8) :=
      find_eq_ok_iff.mpr ⟨hcheck, walk_put hdirectory hwalk, entry?_put_self hplace⟩
    exact .file hfound fun other hother => entry?_put_of_ne hother

theorem Written.readText (h : tree.Written path text tree') :
    tree'.readText path = .ok text ∨
      tree' = tree ∧ ∃ place hasRoom, tree.find path = .ok (place, .device hasRoom) := by
  cases h with
  | file found others =>
    have htext : String.fromUTF8? text.toUTF8 = some text := dif_pos text.isValidUTF8
    rw [readText_of_find found, FileEntry.text, htext]
    exact Or.inl rfl
  | device found => exact Or.inr ⟨rfl, _, _, found⟩

end Tilework.FileTree
