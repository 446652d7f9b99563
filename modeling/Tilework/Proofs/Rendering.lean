import Tilework.CommandLine.Report

/-!
# What a report tells

A listing has a head, a line for each location and a line for each transition, all made of words
between blanks, and the bounds of the run are a line behind it. A document has a member for each
thing there is to tell. A report consists of whole texts of this kind, one for each run and in the
order of the runs.
-/

namespace Tilework

namespace CommandLine

def wordLine (words : List String) : String := " ".intercalate words ++ "\n"

/-- The head of a listing tells how much there is to come. -/
def headWords (tile : Tile) : List String :=
  ["tile", tile.name ++ ":", toString tile.locations.length, "locations,",
    toString tile.transitions.length, "transitions"]

def locationWords (l : Location) : List String :=
  ["", "", "loc", l.id] ++ l.role.elim [] (fun role => ["[" ++ role.name ++ "]"]) ++
    if l.isFinal then ["final"] else []

def transitionWords (t : Transition) : List String :=
  ["", "", "edge", t.id ++ ":", t.source, "->", t.target] ++
    t.guard.elim [] (["if", ·]) ++ t.assignment.elim [] (["do", ·])

def boundWords (c : Composition) : List String :=
  (c.name ++ ":") :: if c.bounds = [] then ["unbounded"] else c.bounds.map Bound.text

def listingWords (tile : Tile) : List (List String) :=
  headWords tile :: (tile.locations.map locationWords ++ tile.transitions.map transitionWords)

theorem line_location (l : Location) : l.line = wordLine (locationWords l) := by
  rw [← String.toList_inj, Location.line, wordLine, locationWords]
  rcases l with ⟨id, invariant, comment, _ | _, _ | role⟩ <;>
    simp [String.intercalate_cons_cons, String.intercalate_singleton]

theorem line_transition (t : Transition) : t.line = wordLine (transitionWords t) := by
  rw [← String.toList_inj, Transition.line, wordLine, transitionWords]
  rcases t with ⟨id, source, target, _ | guard, _ | assignment⟩ <;>
    simp [String.intercalate_cons_cons, String.intercalate_singleton]

theorem listing_eq (tile : Tile) :
    tile.listing = String.join ((listingWords tile).map wordLine) := by
  have hhead : wordLine (headWords tile) =
      "tile " ++ tile.name ++ ": " ++ toString tile.locations.length ++ " locations, " ++
        toString tile.transitions.length ++ " transitions\n" := by
    rw [← String.toList_inj, wordLine, headWords]
    simp [String.intercalate_cons_cons, String.intercalate_singleton]
  have hlocations : tile.locations.map Location.line =
      tile.locations.map (wordLine ∘ locationWords) :=
    List.map_congr_left fun l _ => line_location l
  have htransitions : tile.transitions.map Transition.line =
      tile.transitions.map (wordLine ∘ transitionWords) :=
    List.map_congr_left fun t _ => line_transition t
  rw [Tile.listing, ← hhead, hlocations, htransitions, listingWords, List.map_cons, List.map_append,
    String.join_cons, String.join_append, List.map_map, List.map_map, String.append_assoc]

theorem boundsLine_eq (c : Composition) : c.boundsLine = wordLine (boundWords c) := by
  rw [Composition.boundsLine, wordLine, boundWords]
  cases hbounds : c.bounds with
  | nil =>
    rw [← String.toList_inj]
    simp [String.intercalate_cons_cons, String.intercalate_singleton]
  | cons bound bounds =>
    rw [if_neg (by simp), if_neg (by simp), String.intercalate_cons_of_ne_nil (by simp),
      ← String.toList_inj]
    simp

namespace Emit

/-- A document of some members, as a member of a list of documents. -/
def item (members : List (String × Json.Value)) : String :=
  String.ofList (Json.Value.newline 1 ++ (Json.Value.object members).pretty 1)

/-- What a report tells about one run. -/
def block (emit : Emit) (c : Composition) : String :=
  match emit with
  | tile => String.join ((listingWords c.tile ++ [boundWords c]).map wordLine)
  | bounds => wordLine (boundWords c)
  | json =>
    item [("name", .text c.name), ("expression", .text c.expression), ("tile", c.tile.toValue),
      ("bounds", .list (c.bounds.map Bound.toValue)),
      ("diagnostics", .list (c.diagnostics.map Diagnostic.toValue)),
      ("skipped", .list (c.skipped.map Span.toValue)),
      ("provenance", (Provenance.of c.expression c.tile).toValue)]
  | buildInfo =>
    item [("name", .text c.name), ("provenance", (Provenance.of c.expression c.tile).toValue)]

/-- Whether a report is one document that lists all runs. -/
def isDocument : Emit → Bool
  | tile | bounds => false
  | json | buildInfo => true

/-- The texts about all runs in their order. In a document they are the members of a list. -/
def rendering (emit : Emit) (runs : List Composition) : String :=
  let blocks := runs.map emit.block
  if emit.isDocument then "[" ++ ",".intercalate blocks ++ "\n]\n" else String.join blocks

theorem ofList_prettyItems (records : List (List (String × Json.Value))) :
    String.ofList (Json.Value.prettyItems 1 (records.map .object)) =
      ",".intercalate (records.map item) := by
  induction records with
  | nil => rfl
  | cons record records ih =>
    cases records with
    | nil => simp [Json.Value.prettyItems, item]
    | cons next records =>
      rw [List.map_cons (f := item), String.intercalate_cons_of_ne_nil (by simp), ← ih]
      simp [Json.Value.prettyItems, item, String.ofList_append, String.append_assoc]

theorem documentList_eq {records : List (List (String × Json.Value))} (h : records ≠ []) :
    documentList (records.map .object) = "[" ++ ",".intercalate (records.map item) ++ "\n]\n" := by
  obtain ⟨record, records, rfl⟩ := List.exists_cons_of_ne_nil h
  rw [← ofList_prettyItems, documentList, List.map_cons, Json.Value.pretty, ← String.toList_inj]
  simp [Json.Value.newline]

/-- A report is made of whole texts about the runs. -/
theorem report_eq_rendering (emit : Emit) {runs : List Composition} (h : runs ≠ []) :
    emit.report runs = emit.rendering runs := by
  have hdocuments : ∀ record : Composition → List (String × Json.Value),
      documentList (runs.map fun c => .object (record c)) =
        "[" ++ ",".intercalate (runs.map fun c => item (record c)) ++ "\n]\n" := by
    intro record
    have hlist := @documentList_eq (runs.map record) (by simpa using h)
    rwa [List.map_map, List.map_map] at hlist
  cases emit with
  | tile =>
    refine congrArg String.join (List.map_congr_left fun c _ => ?_)
    rw [listing_eq, boundsLine_eq, block, List.map_append, String.join_append]
    simp
  | bounds => exact congrArg String.join (List.map_congr_left fun c _ => boundsLine_eq c)
  | json => exact hdocuments _
  | buildInfo => exact hdocuments _

end Emit

end CommandLine

end Tilework
