import Tilework.Proofs.Composite
import Tilework.Proofs.Reading

/-!
# Rebuilding a composite from its name

The name of a composite is the text of the tree that built it. When the tiles of a memory source
carry the names under which they are held, no random tile is referred to and nothing was left over,
running that text from the same state gives the same composite again.
-/

namespace Tilework

def Catalog.reference (catalog : Catalog) (tile : Tile) : Reference where
  name := tile.name
  cls := (catalog.classOf? tile.name).getD .accepting
  param := 0

namespace MemorySource

variable {source source' : MemorySource} {tile : Tile}

theorem load_eq_stored {name : String} {cls : TileClass} (hcls : cls ≠ .random) (param : Nat) :
    TileSource.load source name cls param = (source.stored name cls, source) := by
  change source.load name cls param = _
  rw [load, if_neg hcls]

theorem serve_eq_ok {reference : Reference} (hcls : reference.cls ≠ .random)
    (h : reference.serve source = (.ok tile, source')) :
    source' = source ∧ source.stored reference.name reference.cls = .ok tile ∧
      ∀ param,
        Reference.serve ⟨reference.name, reference.cls, param⟩ source = (.ok tile, source) := by
  simp only [Reference.serve, load_eq_stored hcls] at h ⊢
  cases hstored : source.stored reference.name reference.cls with
  | error fault => simp [hstored] at h
  | ok made =>
    rw [hstored] at h
    cases hcheck : reference.cls.check made with
    | error defect => simp [hcheck] at h
    | ok u =>
      simp only [hcheck] at h
      cases h
      exact ⟨rfl, rfl, fun _ => by simp only [hcheck]⟩

theorem name_of_stored (hnames : ∀ entry ∈ source.tiles, entry.2.2.name = entry.1) {name : String}
    {cls : TileClass} (h : source.stored name cls = .ok tile) : tile.name = name := by
  rw [stored] at h
  split at h
  · next cls' held hheld =>
    cases h
    obtain ⟨hget, -⟩ := Option.filter_eq_some_iff.mp hheld
    rw [Table.get?, Option.map_eq_some_iff] at hget
    obtain ⟨entry, hfind, heq⟩ := hget
    have hkey : entry.1 = name := by simpa using List.find?_some hfind
    have hname := hnames entry (List.mem_of_find?_eq_some hfind)
    rw [heq, hkey] at hname
    exact hname
  · cases h

/-- Tiles that references were served are served again to references by their names. -/
theorem serveAll_reference (hnames : ∀ entry ∈ source.tiles, entry.2.2.name = entry.1)
    {catalog : Catalog} {references : List Reference} {loaded : List Tile}
    (hreferences : ∀ r ∈ references, r.cls ≠ .random ∧ catalog.classOf? r.name = some r.cls)
    (h : serveAll references source = (.ok loaded, source')) :
    serveAll (loaded.map catalog.reference) source = (.ok loaded, source) ∧
      ∀ tile ∈ loaded, catalog.classOf? tile.name = some (catalog.reference tile).cls := by
  induction references generalizing loaded with
  | nil =>
    cases h
    exact ⟨rfl, by simp⟩
  | cons r references ih =>
    obtain ⟨tile, middle, hserve, h⟩ := Attempt.andThen_eq_ok h
    obtain ⟨tiles, last, hrest, h⟩ := Attempt.andThen_eq_ok h
    cases h
    obtain ⟨hcls, hclass⟩ := hreferences r (by simp)
    obtain ⟨rfl, hstored, hagain⟩ := serve_eq_ok hcls hserve
    obtain ⟨hall, hclasses⟩ := ih (fun r hr => hreferences r (by simp [hr])) hrest
    have hname : tile.name = r.name := name_of_stored hnames hstored
    have hreference : catalog.reference tile = ⟨r.name, r.cls, 0⟩ := by
      rw [Catalog.reference, hname, hclass]
      rfl
    constructor
    · rw [List.map_cons, serveAll, hreference, hagain, Attempt.andThen_ok, hall]
      rfl
    · intro t ht
      rcases List.mem_cons.mp ht with rfl | ht
      · rw [hreference, hname, hclass]
      · exact hclasses t ht

end MemorySource

theorem BoundTracker.addAll_stored {labels : List String} {tracker tracker' : BoundTracker}
    (h : tracker.addAll labels = (.ok (), tracker')) (stored : Table (List Bound)) :
    addAll labels { tracker with stored } = (.ok (), { tracker' with stored }) := by
  induction labels generalizing tracker with
  | nil =>
    cases h
    rfl
  | cons label labels ih =>
    rw [addAll, add] at h ⊢
    cases hread : Bound.readLabel label with
    | error fault => simp [hread, Except.map] at h
    | ok intervals =>
      simp only [hread, Except.map] at h ⊢
      exact ih h

theorem loads_reference {source : MemorySource} {catalog : Catalog} {assembly : Assembly}
    {counter : NamespaceCounter} {loaded : List Tile}
    (hleaves : assembly.leaves = number counter.next.toNat loaded)
    (hserved : serveAll (loaded.map catalog.reference) source = (.ok loaded, source)) :
    Loads (assembly.map fun i => (catalog.reference i.tile, i)).leaves source counter source := by
  rw [Expression.leaves_map, hleaves]
  refine loads_of_serveAll ?_ counter.standsAt_toNat ?_
  · simpa [List.map_map, Function.comp_def, map_number] using hserved
  · simp [List.map_map, Function.comp_def]

/-- The tokens of the name of a tile that comes from references of a catalog give the tile again,
and feed the same labels. -/
theorem Origin.run_name {start m : Machine MemorySource} {lexemes : List Lexeme}
    {loaded : List Tile} {assembly : Assembly} {tile : Tile}
    (h : Origin start lexemes loaded assembly tile m) (hquiet : ¬ Dropped m.diagnostics)
    (hnames : ∀ entry ∈ start.source.tiles, entry.2.2.name = entry.1) {catalog : Catalog}
    (hordered : catalog.Ordered)
    (hreferences : ∀ r ∈ references lexemes,
      r.cls ≠ .random ∧ catalog.classOf? r.name = some r.cls)
    (stored : Table (List Bound)) (stop : Nat) :
    (TokenStream.ofText catalog tile.name).skipped = [] ∧
      ∃ m', (⟨start.source, start.namespaces, { start.bounds with stored }, {}, []⟩ :
          Machine MemorySource).run (TokenStream.ofText catalog tile.name).lexemes stop =
            (.ok tile, m') ∧
        m'.bounds.current = m.bounds.current ∧ m'.diagnostics = [] := by
  obtain ⟨hleaves, hfed⟩ := h.complete hquiet
  obtain ⟨hserved, hclasses⟩ := MemorySource.serveAll_reference hnames hreferences h.served
  -- The tree of the assembly, with a reference by its name at every leaf.
  let tree : Expression (Reference × Instance) :=
    assembly.map fun i => (catalog.reference i.tile, i)
  have hsnd : tree.map Prod.snd = assembly := by
    rw [Expression.map_map]
    exact Expression.map_id _
  have hfst : tree.map Prod.fst = assembly.map fun i => catalog.reference i.tile :=
    Expression.map_map _ _ _
  have hname : tile.name = ((tree.map Prod.fst).map (·.name)).text := by
    have htext := Expression.name_assemble h.assembled
    rw [hfst, Expression.map_map]
    exact htext
  have hentries : ∀ r ∈ (tree.map Prod.fst).leaves,
      (r.name, r.cls) ∈ catalog.entries ∧ r.param = 0 := by
    intro r hr
    rw [hfst, Expression.leaves_map, hleaves] at hr
    obtain ⟨i, hi, rfl⟩ := List.mem_map.mp hr
    exact ⟨hordered.classOf?_eq_some.mp (hclasses _ (tile_of_mem_number _ _ hi)), rfl⟩
  obtain ⟨htokens, hskipped⟩ := TokenStream.ofText_text hordered (tree.map Prod.fst) hentries
  have hloads : Loads tree.leaves start.source start.namespaces start.source :=
    loads_reference hleaves hserved
  rw [← hname] at htokens hskipped
  refine ⟨hskipped, ?_⟩
  let c : Context MemorySource :=
    ⟨start.source, start.namespaces, { start.bounds with stored }, []⟩
  have hassemble : (tree.map Prod.snd).assemble =
      some { tile with parameterBounds := assembly.label? } := by
    rw [hsnd]
    exact h.assembled
  have hfed_again :
      c.bounds.addAll ((tree.map Prod.snd).labels ++ (tree.map Prod.snd).label?.toList) =
      (.ok (), { m.bounds with stored }) := by
    rw [hsnd]
    exact BoundTracker.addAll_stored hfed stored
  obtain ⟨m', hrun, hcontext⟩ := Machine.exists_run
    (Machine.run_of_assemble (c := c) htokens hloads hassemble hfed_again stop)
  refine ⟨m', ?_, ?_, congrArg Context.diagnostics hcontext⟩
  · have htile : { tile with parameterBounds := none } = tile := by
      rw [← h.unlabelled]
    rw [← htile]
    exact hrun
  · exact congrArg (·.bounds.current) hcontext

theorem mem_references {lexemes : List Lexeme} {r : Reference} (h : r ∈ references lexemes) :
    ∃ lexeme ∈ lexemes, lexeme.token = .tile r.name r.cls r.param := by
  obtain ⟨lexeme, hmem, hreference⟩ := List.mem_filterMap.mp h
  refine ⟨lexeme, hmem, ?_⟩
  cases htoken : lexeme.token with
  | tile name cls param =>
    rw [htoken] at hreference
    cases hreference
    rfl
  | operator op => simp [htoken, Token.reference?] at hreference
  | openParen => simp [htoken, Token.reference?] at hreference
  | closeParen => simp [htoken, Token.reference?] at hreference
  | openBracket => simp [htoken, Token.reference?] at hreference
  | closeBracket => simp [htoken, Token.reference?] at hreference
  | integer value => simp [htoken, Token.reference?] at hreference

/-- The name of a composite is an expression that rebuilds it: from the same source, catalog and
namespace it gives the same tile and the same bounds, with nothing skipped or to warn about. -/
theorem Session.compose_name {session session' : Session MemorySource} {name expression : String}
    {c : Composition} (hnames : ∀ entry ∈ session.source.tiles, entry.2.2.name = entry.1)
    (hcatalog : session.source.catalog = .ok session.catalog)
    (hrandom : ∀ lexeme ∈ (TokenStream.ofText session.catalog expression).lexemes,
      ∀ tile param, lexeme.token ≠ .tile tile .random param)
    (h : session.compose name expression = (.ok c, session')) (hquiet : c.diagnostics = [])
    (again : String) (stored : Table (List Bound)) :
    ∃ after,
      ({ session with bounds := { session.bounds with stored } } : Session MemorySource).compose
        again c.tile.name = (.ok {
        name := again
        expression := c.tile.name
        tile := c.tile
        bounds := c.bounds
        diagnostics := []
        skipped := [] }, after) := by
  have hordered : session.catalog.Ordered := Catalog.ordered_of_insertAll hcatalog
  obtain ⟨m, hrun, hbounds, hdiagnostics, -⟩ := compose_eq_ok h
  obtain ⟨loaded, assembly, horigin⟩ := Machine.origin_of_run rfl hrun
  have hdropped : ¬ Dropped m.diagnostics := by
    rw [← hdiagnostics, hquiet]
    rintro ⟨d, hd, -⟩
    cases hd
  have hreferences : ∀ r ∈ references (TokenStream.ofText session.catalog expression).lexemes,
      r.cls ≠ .random ∧ session.catalog.classOf? r.name = some r.cls := by
    intro r hr
    obtain ⟨lexeme, hlexeme, htoken⟩ := mem_references hr
    constructor
    · intro hcls
      rw [hcls] at htoken
      exact hrandom lexeme hlexeme _ _ htoken
    · have hmem : Token.tile r.name r.cls r.param ∈
          (TokenStream.ofText session.catalog expression).tokens := by
        rw [← htoken]
        exact List.mem_map_of_mem hlexeme
      exact hordered.classOf?_eq_some.mpr (TokenStream.mem_entries_of_mem_ofText hmem)
  obtain ⟨hskipped, m', hagain, hcurrent, hnone⟩ := horigin.run_name hdropped hnames hordered
    hreferences stored c.tile.name.utf8ByteSize
  rw [← hskipped, hbounds, ← hcurrent, ← hnone]
  exact compose_of_run hagain again

def linkTile (name label : String) : Tile where
  name := name
  parameterBounds := some label
  locations := [{ id := "i", role := some .entry }, { id := "o", role := some .exit }]
  transitions := [{ id := "t", source := "i", target := "o" }]

def chainSource : MemorySource where
  tiles := [("a", .accepting, linkTile "a" "0:5"), ("b", .ternary, linkTile "b" "2:9")]

def chainCatalog : Catalog := ⟨[("a", .accepting), ("b", .ternary)]⟩

def chainSession : Session MemorySource where
  source := chainSource
  catalog := chainCatalog

/-- The latest operator of a chain applies first, so the name has its parentheses on the right. -/
def chainComposition : Composition where
  name := "r"
  expression := "a[7] + b + a"
  tile := {
    name := "(a + (b + a))"
    locations := [{ id := "i_0", role := some .entry }, { id := "o_0" }, { id := "i_1" },
      { id := "o_1" }, { id := "i_2" }, { id := "o_2", role := some .exit }]
    transitions := [{ id := "t_0", source := "i_0", target := "o_0" },
      { id := "t_1", source := "i_1", target := "o_1" },
      { id := "t_2", source := "i_2", target := "o_2" },
      { id := "o_1->i_2", source := "o_1", target := "i_2" },
      { id := "o_0->i_1", source := "o_0", target := "i_1" }] }
  bounds := [.interval ⟨false, 4611686018427387904⟩ ⟨false, 4617315517961601024⟩]
  diagnostics := []
  skipped := []

theorem ofText_chain : TokenStream.ofText chainSession.catalog "a[7] + b + a" =
    ⟨[⟨.tile "a" .accepting 7, ⟨0, 4⟩⟩, ⟨.operator .sizeMatched, ⟨5, 6⟩⟩,
      ⟨.tile "b" .ternary 0, ⟨7, 8⟩⟩, ⟨.operator .sizeMatched, ⟨9, 10⟩⟩,
      ⟨.tile "a" .accepting 0, ⟨11, 12⟩⟩], []⟩ := by
  decide +kernel

theorem compose_chain : (chainSession.compose "r" "a[7] + b + a").1 = .ok chainComposition := by
  have hvalue : (chainSession.compose "r" "a[7] + b + a").1.toOption = some chainComposition := by
    simp only [Session.compose, ofText_chain]
    decide +kernel
  exact congrArg Prod.fst (Attempt.eq_ok_of_toOption hvalue)

theorem Session.compose_name_chain :
    ∃ after, chainSession.compose "again" "(a + (b + a))" = (.ok {
      name := "again"
      expression := "(a + (b + a))"
      tile := chainComposition.tile
      bounds := chainComposition.bounds
      diagnostics := []
      skipped := [] }, after) := by
  have hnames : ∀ entry ∈ chainSession.source.tiles, entry.2.2.name = entry.1 := by decide
  have hcatalog : chainSession.source.catalog = .ok chainSession.catalog := by decide +kernel
  have hrandom : ∀ lexeme ∈ (TokenStream.ofText chainSession.catalog "a[7] + b + a").lexemes,
      ∀ tile param, lexeme.token ≠ .tile tile .random param := by
    rw [ofText_chain]
    simp
  have h : chainSession.compose "r" "a[7] + b + a" =
      (.ok chainComposition, (chainSession.compose "r" "a[7] + b + a").2) :=
    Prod.ext compose_chain rfl
  exact compose_name hnames hcatalog hrandom h rfl "again" []

end Tilework
