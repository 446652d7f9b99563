import Tilework.Proofs.Holding
import Tilework.Proofs.Walking
import Tilework.Source.Directory

/-!
# What directory sources list and find

A directory source lists the names of all entries whose name ends as that of a document, whatever
the entries are. It makes a tile of a listed name when a generator has the name or when the entry is
a file that a path can reach. A directory or a device of such a name is listed and then said to be
absent, and so is a file behind too long a path.
-/

namespace Tilework

/-- The source says that it has no such tile. -/
def SourceFault.IsAbsence : SourceFault → Prop
  | notFound _ _ | unsupported _ => True
  | unreadable _ _ | badDocument _ _ => False

namespace DirectorySource

variable {files : FileTree} {root name file : String} {cls : TileClass}
  {source source' : DirectorySource}

theorem documentName?_eq_some (h : documentName? file = some name) : file = documentFile name := by
  simp only [documentName?] at h
  split at h
  · next hfile =>
    cases h
    exact hfile.2
  · cases h

theorem documentFile_mem_children (h : (name, cls) ∈ listing files root) :
    documentFile name ∈ files.children (classPath root cls) := by
  simp only [listing, List.mem_flatMap, List.mem_map, Prod.mk.injEq] at h
  obtain ⟨_, -, _, hname, rfl, rfl⟩ := h
  rw [documentNames, ascending, List.mem_mergeSort] at hname
  obtain ⟨file, hfile, hdocument⟩ := List.mem_filterMap.mp hname
  rwa [← documentName?_eq_some hdocument]

theorem isNameChar_of_mem_documentFile (h : isName name.toList) {c : Char}
    (hc : c ∈ (documentFile name).toList) : isNameChar c := by
  rw [documentFile, String.toList_append] at hc
  rcases List.mem_append.mp hc with hname | hsuffix
  · rw [isName, Bool.and_eq_true] at h
    exact List.all_eq_true.mp h.1 c hname
  · have hchars : documentSuffix.toList.all isNameChar = true := by decide
    exact List.all_eq_true.mp hchars c hsuffix

theorem entryName_documentFile (h : isName name.toList) :
    FileTree.EntryName (documentFile name) where
  noSlash hslash := absurd (isNameChar_of_mem_documentFile h hslash) (by decide)
  noNul hnul := absurd (isNameChar_of_mem_documentFile h hnul) (by decide)
  proper hspecial := by
    have hlength : (documentFile name).length = name.length + 5 := String.length_append _ _
    have hspecials : ∀ special ∈ ["", ".", ".."], special.length < 5 := by decide
    have hshort := hspecials _ hspecial
    omega

theorem getLast?_classPath (root : String) (cls : TileClass) :
    (classPath root cls).toList.getLast? = cls.name.toList.getLast? := by
  have hname : cls.name.toList ≠ [] := by cases cls <;> decide
  rw [classPath, joinPath]
  split
  · rfl
  split <;> simp only [String.toList_append, List.getLast?_append_of_ne_nil _ hname]

theorem documentPath_eq (h : isName name.toList) :
    source.documentPath name cls = classPath source.root cls ++ "/" ++ documentFile name := by
  have hrelative : (documentFile name).toList.head? ≠ some '/' :=
    fun hhead => (entryName_documentFile h).noSlash (List.mem_of_head? hhead)
  have hopen : ¬ (classPath source.root cls).toList.getLast?.all (· = '/') := by
    rw [getLast?_classPath]
    cases cls <;> decide
  rw [documentPath, joinPath, if_neg hrelative, if_neg hopen]

/-- The sources that come of opening a directory, while nothing changes its files. -/
inductive Opened (files : FileTree) (root : String) : DirectorySource → Prop
  | open {source : DirectorySource} (h : ofFiles files root = .ok source) : Opened files root source
  | register {source source' : DirectorySource} (h : Opened files root source) {name : String}
      {generator : Generator} (hregister : source.register name generator = .ok source') :
      Opened files root source'
  | load {source : DirectorySource} (h : Opened files root source) (name : String)
      (cls : TileClass) (param : Nat) : Opened files root (source.load name cls param).2

/-- The catalog has what the directory lists and what generators make. -/
structure Lists (files : FileTree) (root : String) (source : DirectorySource) : Prop where
  sameFiles : source.files = files
  sameRoot : source.root = root
  ordered : source.catalog.Ordered
  mem_entries : ∀ name cls, (name, cls) ∈ source.catalog.entries ↔
    (name, cls) ∈ listing files root ∨ cls = .random ∧ name ∈ source.generators.keys

theorem Lists.ofFiles (h : DirectorySource.ofFiles files root = .ok source) :
    Lists files root source := by
  rw [DirectorySource.ofFiles] at h
  cases hinsert : ({} : Catalog).insertAll (listing files root) with
  | error fault =>
    rw [hinsert] at h
    cases h
  | ok catalog =>
    rw [hinsert] at h
    cases h
    obtain ⟨hordered, hmem⟩ := Catalog.insertAll_eq_ok_iff.mp hinsert
    refine ⟨rfl, rfl, hordered, fun name cls => ?_⟩
    simp [hmem, Table.keys]

theorem Lists.register (h : Lists files root source) {generator : Generator}
    (hregister : source.register name generator = .ok source') : Lists files root source' := by
  rw [DirectorySource.register] at hregister
  cases hinsert : source.catalog.insert name .random with
  | error fault =>
    rw [hinsert] at hregister
    cases hregister
  | ok catalog =>
    rw [hinsert] at hregister
    cases hregister
    refine ⟨h.sameFiles, h.sameRoot, h.ordered.insert hinsert, fun other cls => ?_⟩
    rw [h.ordered.mem_insert hinsert, List.mem_cons, h.mem_entries, Prod.mk.injEq,
      Table.mem_keys_put]
    tauto

theorem Lists.load (h : Lists files root source) (name : String) (cls : TileClass) (param : Nat) :
    Lists files root (source.load name cls param).2 := by
  rw [DirectorySource.load]
  split
  · next tile generators hmade =>
    split at hmade
    · refine ⟨h.sameFiles, h.sameRoot, h.ordered, fun other cls => ?_⟩
      rw [keys_synthesize? hmade]
      exact h.mem_entries other cls
    · cases hmade
  · exact h

theorem Opened.lists (h : Opened files root source) : Lists files root source := by
  induction h with
  | «open» h => exact .ofFiles h
  | register h hregister ih => exact ih.register hregister
  | load h name cls param ih => exact ih.load name cls param

theorem readDocument_eq_error {fault : SourceFault}
    (hfile : source.files.isFile (source.documentPath name cls))
    (h : source.readDocument name cls = .error fault) :
    let path := source.documentPath name cls
    (∃ cause, source.files.readText path = .error cause ∧ fault = .unreadable path cause) ∨
      ∃ text cause, source.files.readText path = .ok text ∧ Tile.ofDocument text = .error cause ∧
        fault = .badDocument path cause := by
  intro path
  rw [readDocument, if_pos hfile, readTile] at h
  cases htext : source.files.readText path with
  | error cause =>
    rw [htext] at h
    cases h
    exact Or.inl ⟨cause, rfl, rfl⟩
  | ok text =>
    rw [htext] at h
    dsimp only at h
    cases hdocument : Tile.ofDocument text with
    | ok tile =>
      rw [hdocument] at h
      cases h
    | error cause =>
      rw [hdocument] at h
      cases h
      exact Or.inr ⟨text, cause, rfl, hdocument, rfl⟩

theorem readDocument_absent_iff :
    (∃ fault, source.readDocument name cls = .error fault ∧ fault.IsAbsence) ↔
      ¬ source.files.isFile (source.documentPath name cls) := by
  constructor
  · rintro ⟨fault, hread, habsent⟩ hfile
    rcases readDocument_eq_error hfile hread with ⟨_, -, rfl⟩ | ⟨_, _, -, -, rfl⟩ <;> exact habsent
  · intro hfile
    refine ⟨_, if_neg hfile, ?_⟩
    split <;> trivial

theorem load_of_mem_keys (hname : name ∈ source.generators.keys) (param : Nat) :
    ∃ tile, (source.load name .random param).1 = .ok tile := by
  rw [load, if_pos rfl]
  split
  · exact ⟨_, rfl⟩
  · next hnone => exact absurd hname (synthesize?_eq_none_iff.mp hnone)

theorem load_of_not_mem_keys (hname : name ∉ source.generators.keys) (param : Nat) :
    source.load name cls param = (source.readDocument name cls, source) := by
  rw [load, synthesize?_eq_none_iff.mpr hname, ite_self]

theorem Lists.isFile_documentPath (h : Lists files root source) (hname : isName name.toList)
    {place : List String} (hplace : files.find (classPath root cls) = .ok (place, .directory)) :
    source.files.isFile (source.documentPath name cls) ↔
      (∃ entry, files.entry? (place ++ [documentFile name]) = some entry ∧ entry.isFile = true) ∧
        (documentFile name).utf8ByteSize ≤ FileTree.nameLimit ∧
        (source.documentPath name cls).utf8ByteSize ≤ FileTree.pathLimit := by
  rw [h.sameFiles, FileTree.isFile_iff, documentPath_eq hname, h.sameRoot]
  simp only [FileTree.find_child_eq_ok_iff hplace (entryName_documentFile hname)]
  constructor
  · rintro ⟨_, entry, ⟨hlengths, rfl, hentry⟩, hfile⟩
    exact ⟨⟨entry, hentry, hfile⟩, hlengths⟩
  · rintro ⟨⟨entry, hentry, hfile⟩, hlengths⟩
    exact ⟨_, entry, ⟨hlengths, rfl, hentry⟩, hfile⟩

/-- Loading a listed name fails as if the tile were absent exactly when no generator has the name
and the entry that was listed is no file, or its name or path is too long. All other faults are
those of reading the file or its text. -/
theorem Opened.load_listed (h : Opened files root source)
    (hlisted : source.catalog.classOf? name = some cls) (param : Nat) :
    ((∃ fault, (source.load name cls param).1 = .error fault ∧ fault.IsAbsence) ↔
      name ∉ source.generators.keys ∧ ∃ place entry,
        files.find (classPath root cls) = .ok (place, .directory) ∧
          files.entry? (place ++ [documentFile name]) = some entry ∧
          (entry.isFile = false ∨
            FileTree.nameLimit < (documentFile name).utf8ByteSize ∨
            FileTree.pathLimit < (source.documentPath name cls).utf8ByteSize)) ∧
      ∀ fault, (source.load name cls param).1 = .error fault → ¬ fault.IsAbsence →
        let path := source.documentPath name cls
        (∃ cause, files.readText path = .error cause ∧ fault = .unreadable path cause) ∨
          ∃ text cause, files.readText path = .ok text ∧ Tile.ofDocument text = .error cause ∧
            fault = .badDocument path cause := by
  have hlists := h.lists
  have hmem := hlists.ordered.classOf?_eq_some.mp hlisted
  by_cases hgenerated : name ∈ source.generators.keys
  · have hrandom : (name, .random) ∈ source.catalog.entries :=
      (hlists.mem_entries name .random).mpr (Or.inr ⟨rfl, hgenerated⟩)
    -- A name with a generator is listed as random, and a generator does not fail.
    have hcls : cls = .random :=
      congrArg Prod.snd (hlists.ordered.eq_of_name_eq hmem hrandom rfl)
    subst hcls
    obtain ⟨tile, hload⟩ := load_of_mem_keys hgenerated param
    rw [hload]
    exact ⟨iff_of_false (by simp) (fun hnot => hnot.1 hgenerated), nofun⟩
  · have hlisting : (name, cls) ∈ listing files root :=
      ((hlists.mem_entries name cls).mp hmem).resolve_right fun hmade => hgenerated hmade.2
    obtain ⟨place, hplace, entry, hentry⟩ :=
      FileTree.mem_children.mp (documentFile_mem_children hlisting)
    have hname : isName name.toList := hlists.ordered.names _ hmem
    have hfile := hlists.isFile_documentPath hname hplace
    rw [load_of_not_mem_keys hgenerated]
    refine ⟨?_, ?_⟩
    · rw [readDocument_absent_iff, hfile]
      constructor
      · intro hnot
        refine ⟨hgenerated, place, entry, hplace, hentry, ?_⟩
        by_contra hnone
        simp only [not_or, Bool.not_eq_false, Nat.not_lt] at hnone
        obtain ⟨hisFile, hshort, hnear⟩ := hnone
        exact hnot ⟨⟨entry, hentry, hisFile⟩, hshort, hnear⟩
      · rintro ⟨-, place', entry', hplace', hentry', hcases⟩
          ⟨⟨file, hother, hisFile⟩, hshort, hnear⟩
        cases hplace.symm.trans hplace'
        cases hentry'.symm.trans hother
        rcases hcases with hcases | hlong | hfar
        · exact absurd hisFile (Bool.eq_false_iff.mp hcases)
        · exact absurd hshort (Nat.not_le.mpr hlong)
        · exact absurd hnear (Nat.not_le.mpr hfar)
    · intro fault hread hpresent
      rw [← hlists.sameFiles]
      refine readDocument_eq_error ?_ hread
      by_contra hnot
      obtain ⟨other, hother, habsent⟩ := readDocument_absent_iff.mpr hnot
      cases hread.symm.trans hother
      exact hpresent habsent

def closetFiles : FileTree where
  entries := [(["tiles"], .directory), (["tiles", "accepting"], .directory),
    (["tiles", "accepting", "x.json"], .directory), (["tiles", "random"], .directory),
    (["tiles", "random", "g.json"], .directory)]

def closetSource : DirectorySource where
  files := closetFiles
  root := "tiles"
  catalog := ⟨[("g", .random), ("x", .accepting)]⟩

theorem opened_closetSource : Opened closetFiles "tiles" closetSource := by
  have hinsert : ({} : Catalog).insertAll (listing closetFiles "tiles") =
      .ok closetSource.catalog := by
    decide +kernel
  refine .open ?_
  rw [ofFiles, hinsert]
  rfl

def servedClosetSource : DirectorySource :=
  { closetSource with generators := [("g", MemorySource.passGenerator)] }

/-- Of two directories that are listed as documents, the one with a generator is not missed. -/
theorem load_listed_closet : Opened closetFiles "tiles" servedClosetSource ∧
    servedClosetSource.catalog.classOf? "x" = some .accepting ∧
    servedClosetSource.catalog.classOf? "g" = some .random ∧
    (∃ fault, (servedClosetSource.load "x" .accepting 0).1 = .error fault ∧ fault.IsAbsence) ∧
    ¬ ∃ fault, (servedClosetSource.load "g" .random 5).1 = .error fault ∧ fault.IsAbsence := by
  have hregister :
      closetSource.register "g" MemorySource.passGenerator = .ok servedClosetSource := rfl
  have hopened := opened_closetSource.register hregister
  refine ⟨hopened, rfl, rfl, ?_, ?_⟩
  · refine (hopened.load_listed rfl 0).1.mpr ⟨?_, ["tiles", "accepting"], .directory, ?_⟩
    · simp [servedClosetSource, Table.keys]
    · exact ⟨rfl, rfl, Or.inl rfl⟩
  · rw [(hopened.load_listed rfl 5).1]
    exact fun hmissed => hmissed.1 (List.mem_singleton_self "g")

/-- What is listed cannot always be loaded, not even as a document that cannot be read. -/
theorem not_forall_load_listed :
    ¬ ∀ (files : FileTree) (root : String) (source : DirectorySource), Opened files root source →
      ∀ name cls, source.catalog.classOf? name = some cls →
        ∀ param fault, (source.load name cls param).1 = .error fault → ¬ fault.IsAbsence := by
  intro hall
  have hload : (closetSource.load "x" .accepting 0).1 = .error (.notFound "x" .accepting) := rfl
  exact hall _ _ _ opened_closetSource "x" .accepting rfl 0 _ hload trivial

end DirectorySource

end Tilework
