import Tilework.Proofs.Registration
import Tilework.Proofs.Serving
import Tilework.Source.Memory

/-!
# Memory sources serve what they list

A memory source lists the names of its tiles and generators, each with its class. Neither table has
a key twice, so a listed name is found again in the class in which it is listed; a random one may be
found at a generator first. Making tiles changes the generators in place and takes no name away. So
a session over a memory source and the catalog of its names never asks for a tile in vain.
-/

namespace Tilework

namespace Table

variable {α : Type} {table : Table α} {key : String}

theorem keys_put_of_mem (h : key ∈ table.keys) (value : α) :
    (put table key value).keys = table.keys := by
  induction table with
  | nil => cases h
  | cons e rest ih =>
    rw [put]
    split
    · next heq => simp [keys, heq]
    · next hne =>
      have hrest : key ∈ keys rest := (List.mem_cons.mp h).resolve_left (Ne.symm hne)
      exact congrArg (e.1 :: ·) (ih hrest)

theorem keys_put_of_not_mem (h : key ∉ table.keys) (value : α) :
    (put table key value).keys = table.keys ++ [key] := by
  induction table with
  | nil => rfl
  | cons e rest ih =>
    simp only [keys, List.map_cons, List.mem_cons, not_or] at h
    obtain ⟨hne, hrest⟩ := h
    rw [put, if_neg (Ne.symm hne)]
    exact congrArg (e.1 :: ·) (ih hrest)

theorem mem_keys_put {other : String} {value : α} :
    other ∈ (put table key value).keys ↔ other = key ∨ other ∈ table.keys := by
  by_cases hkey : key ∈ table.keys
  · rw [keys_put_of_mem hkey]
    exact (or_iff_right_of_imp fun heq => heq ▸ hkey).symm
  · rw [keys_put_of_not_mem hkey, List.mem_append, List.mem_singleton, or_comm]

theorem nodup_keys_put (h : table.keys.Nodup) (key : String) (value : α) :
    (put table key value).keys.Nodup := by
  by_cases hkey : key ∈ table.keys
  · rwa [keys_put_of_mem hkey]
  · rw [keys_put_of_not_mem hkey]
    exact List.concat_eq_append ▸ h.concat hkey

theorem get?_of_mem (h : table.keys.Nodup) {value : α} (hmem : (key, value) ∈ table) :
    table.get? key = some value := by
  induction table with
  | nil => cases hmem
  | cons e rest ih =>
    obtain ⟨hfirst, hrest⟩ := List.nodup_cons.mp h
    rcases List.mem_cons.mp hmem with rfl | hmem
    · simp [get?]
    · have hne : e.1 ≠ key := by
        rintro rfl
        exact hfirst (List.mem_map.mpr ⟨_, hmem, rfl⟩)
      rw [← ih hrest hmem]
      simp [get?, hne]

theorem get?_ne_none_of_mem_keys (h : key ∈ table.keys) : table.get? key ≠ none := by
  obtain ⟨e, he, rfl⟩ := List.mem_map.mp h
  simp only [get?, ne_eq, Option.map_eq_none_iff, List.find?_eq_none, decide_eq_true_eq, not_forall]
  exact ⟨e, he, not_not.mpr rfl⟩

theorem mem_keys_of_get? {value : α} (h : table.get? key = some value) : key ∈ table.keys := by
  obtain ⟨e, hfind, -⟩ := Option.map_eq_some_iff.mp h
  have hkey : e.1 = key := by simpa using List.find?_some hfind
  exact hkey ▸ List.mem_map_of_mem (List.mem_of_find?_eq_some hfind)

end Table

theorem synthesize?_eq_none_iff {generators : Table Generator} {name : String} {param : Nat} :
    synthesize? generators name param = none ↔ name ∉ generators.keys := by
  rw [synthesize?, Option.map_eq_none_iff]
  constructor
  · intro hnone hkey
    exact Table.get?_ne_none_of_mem_keys hkey hnone
  · intro hkey
    refine Option.eq_none_iff_forall_ne_some.mpr fun generator hget => ?_
    exact hkey (Table.mem_keys_of_get? hget)

theorem keys_synthesize? {generators generators' : Table Generator} {name : String} {param : Nat}
    {tile : Tile} (h : synthesize? generators name param = some (tile, generators')) :
    generators'.keys = generators.keys := by
  obtain ⟨generator, hget, hmade⟩ := Option.map_eq_some_iff.mp h
  cases hmade
  exact Table.keys_put_of_mem (Table.mem_keys_of_get? hget) _

namespace MemorySource

variable {source shuffled : MemorySource} {catalog : Catalog}

/-- The sources that are made from the empty one. -/
inductive Built : MemorySource → Prop
  | empty : Built {}
  | insert {source : MemorySource} (h : Built source) (name : String) (cls : TileClass)
      (tile : Tile) : Built (source.insert name cls tile)
  | register {source : MemorySource} (h : Built source) (name : String) (generator : Generator) :
      Built (source.register name generator)

theorem Built.nodup_keys (h : source.Built) :
    source.tiles.keys.Nodup ∧ source.generators.keys.Nodup := by
  induction h with
  | empty => exact ⟨List.nodup_nil, List.nodup_nil⟩
  | insert h name cls tile ih => exact ⟨Table.nodup_keys_put ih.1 _ _, ih.2⟩
  | register h name generator ih => exact ⟨ih.1, Table.nodup_keys_put ih.2 _ _⟩

theorem catalog_eq_ok_iff :
    source.catalog = .ok catalog ↔
      catalog.Ordered ∧ ∀ e, e ∈ catalog.entries ↔ e ∈ source.names :=
  Catalog.insertAll_eq_ok_iff

theorem mem_names {name : String} {cls : TileClass} :
    (name, cls) ∈ source.names ↔
      (∃ tile, (name, cls, tile) ∈ source.tiles) ∨
        cls = .random ∧ name ∈ source.generators.keys := by
  simp only [names, List.mem_append, List.mem_map, Prod.mk.injEq]
  constructor
  · rintro (⟨⟨_, _, tile⟩, hmem, rfl, rfl⟩ | ⟨_, hmem, rfl, rfl⟩)
    · exact Or.inl ⟨tile, hmem⟩
    · exact Or.inr ⟨rfl, hmem⟩
  · rintro (⟨tile, hmem⟩ | ⟨rfl, hmem⟩)
    · exact Or.inl ⟨_, hmem, rfl, rfl⟩
    · exact Or.inr ⟨_, hmem, rfl, rfl⟩

theorem keys_load (source : MemorySource) (name : String) (cls : TileClass) (param : Nat) :
    (source.load name cls param).2.tiles = source.tiles ∧
      (source.load name cls param).2.generators.keys = source.generators.keys := by
  rw [load]
  split
  · next tile generators hmade =>
    split at hmade
    · exact ⟨rfl, keys_synthesize? hmade⟩
    · cases hmade
  · exact ⟨rfl, rfl⟩

theorem exists_load (htiles : source.tiles.keys.Nodup) {name : String} {cls : TileClass}
    (h : (name, cls) ∈ source.names) (param : Nat) :
    ∃ tile, (source.load name cls param).1 = .ok tile := by
  rw [load]
  split
  · exact ⟨_, rfl⟩
  · -- Nothing was generated, so a random name is not that of a generator.
    next hnone =>
    rcases mem_names.mp h with ⟨tile, hmem⟩ | ⟨rfl, hkey⟩
    · refine ⟨tile, ?_⟩
      simp [stored, Table.get?_of_mem htiles hmem, Option.filter]
    · rw [if_pos rfl, synthesize?_eq_none_iff] at hnone
      exact absurd hkey hnone

/-- A source serves its names in every state in which it may be left by loading. -/
theorem serves (htiles : source.tiles.keys.Nodup)
    (hcatalog : ∀ e ∈ catalog.entries, e ∈ source.names) :
    Serves (fun later : MemorySource =>
      later.tiles = source.tiles ∧ later.generators.keys = source.generators.keys) catalog := by
  rintro later ⟨hsame, hkeys⟩ name cls hmem param
  have hlisted : (name, cls) ∈ later.names := by
    rw [mem_names, hsame, hkeys, ← mem_names]
    exact hcatalog _ hmem
  obtain ⟨hsame', hkeys'⟩ := later.keys_load name cls param
  exact ⟨exists_load (hsame ▸ htiles) hlisted param, hsame'.trans hsame, hkeys'.trans hkeys⟩

/-- Sources that hold the same, each in an order of its own. -/
structure Shuffled (source shuffled : MemorySource) : Prop where
  tiles : shuffled.tiles.Perm source.tiles
  generators : shuffled.generators.Perm source.generators

theorem Shuffled.mem_names (h : source.Shuffled shuffled) (e : String × TileClass) :
    e ∈ shuffled.names ↔ e ∈ source.names :=
  ((h.tiles.map _).append ((h.generators.map _).map _)).mem_iff

/-- A source that is built by registrations has one catalog, in whatever order its names are listed,
and no run over this catalog fails by the source, until the source is changed from outside. -/
theorem Built.serves_catalog (h : source.Built) :
    (∀ shuffled, source.Shuffled shuffled →
      ∀ catalog, shuffled.catalog = .ok catalog ↔ source.catalog = .ok catalog) ∧
    ∀ start : Session MemorySource, source.Shuffled start.source →
      source.catalog = .ok start.catalog →
      ∀ session, start.Later session → ∀ name expression fault,
        (session.compose name expression).1 ≠ .error (.source fault) := by
  constructor
  · intro shuffled hshuffled catalog
    simp only [catalog_eq_ok_iff, hshuffled.mem_names]
  · intro start hshuffled hcatalog session hlater name expression fault
    have htiles : start.source.tiles.keys.Nodup :=
      (hshuffled.tiles.map _).nodup_iff.mpr h.nodup_keys.1
    have hentries : ∀ e ∈ start.catalog.entries, e ∈ start.source.names := fun e he =>
      (hshuffled.mem_names e).mpr (((catalog_eq_ok_iff.mp hcatalog).2 e).mp he)
    exact hlater.ne_source (serves htiles hentries) ⟨rfl, rfl⟩ name expression fault

def passTile : Tile where
  locations := [{ id := "i", role := some .entry }, { id := "o", role := some .exit }]

def passGenerator : Generator where
  make _ _ := passTile

def mixedSource : MemorySource :=
  let source : MemorySource := ({} : MemorySource).insert "a" .ternary passTile
  let source := (source.insert "r" .random passTile).register "g" passGenerator
  (source.register "r" passGenerator).insert "a" .accepting passTile

def shuffledSource : MemorySource where
  tiles := mixedSource.tiles.reverse
  generators := mixedSource.generators.reverse

def mixedCatalog : Catalog := ⟨[("a", .accepting), ("g", .random), ("r", .random)]⟩

def mixedSession : Session MemorySource where
  source := shuffledSource
  catalog := mixedCatalog

theorem catalog_mixedSource : mixedSource.catalog = .ok mixedCatalog := rfl

def laterSession : Session MemorySource := (mixedSession.perform (.compose "m" "g[2] + r +")).2

theorem Built.serves_catalog_mixed :
    mixedSource.Built ∧ mixedSource.Shuffled shuffledSource ∧
      shuffledSource.catalog = .ok mixedCatalog ∧
      ∀ fault, (laterSession.compose "n" "a + g[7] + r").1 ≠ .error (.source fault) := by
  have hbuilt : mixedSource.Built :=
    ((((Built.empty.insert "a" .ternary passTile).insert "r" .random passTile).register "g"
      passGenerator).register "r" passGenerator).insert "a" .accepting passTile
  have hshuffled : mixedSource.Shuffled shuffledSource :=
    ⟨List.reverse_perm _, List.reverse_perm _⟩
  have hlater : mixedSession.Later laterSession := .perform .refl nofun
  obtain ⟨hsame, hserved⟩ := hbuilt.serves_catalog
  refine ⟨hbuilt, hshuffled, (hsame shuffledSource hshuffled _).mpr catalog_mixedSource, ?_⟩
  exact hserved mixedSession hshuffled catalog_mixedSource _ hlater "n" "a + g[7] + r"

end MemorySource

end Tilework
