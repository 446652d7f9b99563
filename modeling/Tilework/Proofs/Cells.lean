import Tilework.Proofs.Bytes
import Tilework.Proofs.Reading

/-!
# The cells of a text

Before parameters are attached, reading a text cuts it into cells: tokens, skipped runs and blanks.
Their texts make up the text, and the spans that a token stream keeps are the places where its cells
stand. So spans are in order and apart from each other, and only blanks are in none of them.
-/

namespace Tilework

/-- What a token without a written parameter may look like in a text. -/
def Token.WrittenAs (catalog : Catalog) : Token → List Char → Prop
  | integer value, cs => (∀ c ∈ cs, c.isDigit = true) ∧ Nat.ofDigitChars 10 cs 0 = value
  | tile name cls param, cs => catalog.classOf? name = some cls ∧ param = 0 ∧ cs = name.toList
  | token, cs => cs = token.text.toList

inductive Cell where
  | token (token : Token) (cs : List Char)
  | skipped (cs : List Char)
  | blank (c : Char)

namespace Cell

def text : Cell → List Char
  | token _ cs => cs
  | skipped cs => cs
  | blank c => [c]

/-- Tokens look as they may, and the other cells have only blanks in them or none. -/
def Proper (catalog : Catalog) : Cell → Prop
  | token t cs => cs ≠ [] ∧ t.WrittenAs catalog cs
  | skipped cs => cs ≠ [] ∧ ∀ c ∈ cs, Raw.isSpace c = false
  | blank c => Raw.isSpace c = true

/-- Where cells stand that are laid one behind another. -/
def place (start : Nat) : List Cell → List (Cell × Span)
  | [] => []
  | cell :: cells =>
    (cell, ⟨start, start + utf8Length cell.text⟩) ::
      place (start + utf8Length cell.text) cells

def lexeme? : Cell × Span → Option Lexeme
  | (token t _, span) => some ⟨t, span⟩
  | _ => none

def skipped? : Cell × Span → Option Span
  | (skipped _, span) => some span
  | _ => none

variable {catalog : Catalog} {text : String} {start i : Nat} {cell : Cell} {cells : List Cell}
  {span : Span} {lexeme : Lexeme} {placed : Cell × Span}

theorem place_append (cells others : List Cell) :
    place start (cells ++ others) =
      place start cells ++ place (start + utf8Length (cells.flatMap Cell.text)) others := by
  induction cells generalizing start with
  | nil => rfl
  | cons cell cells ih =>
    rw [List.cons_append, place, place, ih, List.flatMap_cons, utf8Length_append, Nat.add_assoc,
      List.cons_append]

theorem mem_place (h : (cell, span) ∈ place start cells) :
    ∃ before behind, cells = before ++ cell :: behind ∧
      start + utf8Length (before.flatMap Cell.text) = span.start ∧
      span.start + utf8Length cell.text = span.stop := by
  induction cells generalizing start with
  | nil => cases h
  | cons first cells ih =>
    rcases List.mem_cons.mp h with heq | h
    · obtain ⟨rfl, rfl⟩ := Prod.mk.inj heq
      exact ⟨[], cells, rfl, rfl, rfl⟩
    · obtain ⟨before, behind, rfl, hstart, hstop⟩ := ih h
      refine ⟨first :: before, behind, rfl, ?_, hstop⟩
      rw [← hstart, List.flatMap_cons, utf8Length_append, Nat.add_assoc]

theorem start_le_of_mem_place (h : placed ∈ place start cells) : start ≤ placed.2.start := by
  obtain ⟨cell, span⟩ := placed
  obtain ⟨before, behind, -, hstart, -⟩ := mem_place h
  dsimp only
  omega

theorem pairwise_place (start : Nat) (cells : List Cell) :
    (place start cells).Pairwise fun a b => a.2.stop ≤ b.2.start := by
  induction cells generalizing start with
  | nil => exact List.Pairwise.nil
  | cons cell cells ih => exact List.Pairwise.cons (fun _ => start_le_of_mem_place) (ih _)

theorem exists_mem_place (hstart : start ≤ i)
    (hstop : i < start + utf8Length (cells.flatMap Cell.text)) :
    ∃ placed ∈ place start cells, placed.2.Has i := by
  induction cells generalizing start with
  | nil =>
    rw [List.flatMap_nil, utf8Length_nil] at hstop
    omega
  | cons cell cells ih =>
    rw [List.flatMap_cons, utf8Length_append] at hstop
    by_cases hi : i < start + utf8Length cell.text
    · exact ⟨_, List.mem_cons_self, hstart, hi⟩
    · have hnext : start + utf8Length cell.text ≤ i := by omega
      obtain ⟨placed, hplaced, hhas⟩ := ih hnext (by omega)
      exact ⟨placed, List.mem_cons_of_mem _ hplaced, hhas⟩

theorem holds_of_mem_place (htext : cells.flatMap Cell.text = text.toList)
    (h : (cell, span) ∈ place 0 cells) : cell ∈ cells ∧ span.Holds text cell.text := by
  obtain ⟨before, behind, rfl, hstart, hstop⟩ := mem_place h
  refine ⟨by simp, before.flatMap Cell.text, behind.flatMap Cell.text, ?_, by omega, hstop⟩
  rw [← htext, List.flatMap_append, List.flatMap_cons, List.append_assoc]

theorem lexeme?_eq_some : lexeme? placed = some lexeme ↔
    ∃ cs, placed = (token lexeme.token cs, lexeme.span) := by
  obtain ⟨_ | _ | _, _⟩ := placed <;> cases lexeme <;> simp [lexeme?]

theorem skipped?_eq_some : skipped? placed = some span ↔ ∃ cs, placed = (skipped cs, span) := by
  obtain ⟨_ | _ | _, _⟩ := placed <;> simp [skipped?]

end Cell

namespace WordPart

def cell : WordPart → Cell
  | tile name cls => .token (.tile name cls 0) name.toList
  | skipped cs => .skipped cs

theorem text_cell (part : WordPart) : part.cell.text = part.text := by
  cases part <;> rfl

variable {catalog : Catalog} {covered : Nat} {name : String} {c : Char} {cs : List Char}
  {part : WordPart} {parts : List WordPart}

theorem flatMap_text_skip : (skip c parts).flatMap text = c :: parts.flatMap text := by
  unfold skip
  split <;> rfl

theorem append_drop_of_prefix (hne : name.toList ≠ []) (h : name.toList <+: c :: cs) :
    name.toList ++ cs.drop (name.length - 1) = c :: cs := by
  obtain ⟨behind, hbehind⟩ := h
  obtain ⟨d, ds, hname⟩ := List.exists_cons_of_ne_nil hne
  have hlength : name.length - 1 = ds.length := by
    rw [← String.length_toList, hname, List.length_cons, Nat.add_sub_cancel]
  rw [hname, List.cons_append] at hbehind
  obtain ⟨-, rfl⟩ := List.cons.inj hbehind
  rw [hlength, List.drop_left, hname, List.cons_append, hbehind]

/-- Nothing of a word is lost but what a name before it covers. -/
theorem flatMap_text_split (h : catalog.Ordered) (covered : Nat) (cs : List Char) :
    (split catalog covered cs).flatMap text = cs.drop covered := by
  induction cs generalizing covered with
  | nil => cases covered <;> rfl
  | cons c cs ih =>
    cases covered with
    | succ covered => exact ih covered
    | zero =>
      rw [split]
      split
      · next name cls hfound =>
        obtain ⟨hmem, hstart, -⟩ := h.longestPrefix?_eq_some.mp hfound
        rw [List.flatMap_cons, ih]
        exact append_drop_of_prefix (h.toList_ne_nil hmem) hstart
      · rw [flatMap_text_skip, ih]
        rfl

theorem text_ne_nil_of_mem_skip (h : part ∈ skip c parts) : part.text ≠ [] ∨ part ∈ parts := by
  unfold skip at h
  split at h
  · rcases List.mem_cons.mp h with rfl | h
    · exact Or.inl (List.cons_ne_nil _ _)
    · exact Or.inr (List.mem_cons_of_mem _ h)
  · rcases List.mem_cons.mp h with rfl | h
    · exact Or.inl (List.cons_ne_nil _ _)
    · exact Or.inr h

theorem text_ne_nil_of_mem_split (h : catalog.Ordered) (hpart : part ∈ split catalog covered cs) :
    part.text ≠ [] := by
  induction cs generalizing covered with
  | nil => cases covered <;> cases hpart
  | cons c cs ih =>
    cases covered with
    | succ covered => exact ih hpart
    | zero =>
      rw [split] at hpart
      split at hpart
      · next name cls hfound =>
        rcases List.mem_cons.mp hpart with rfl | hpart
        · exact h.toList_ne_nil (h.longestPrefix?_eq_some.mp hfound).1
        · exact ih hpart
      · exact (text_ne_nil_of_mem_skip hpart).elim id ih

theorem proper_cell (h : catalog.Ordered) (hword : ∀ c ∈ cs, Raw.isSpace c = false)
    (hpart : part ∈ ofWord catalog cs) : part.cell.Proper catalog := by
  have hne := text_ne_nil_of_mem_split h hpart
  cases part with
  | tile name cls =>
    exact ⟨hne, h.classOf?_eq_some.mpr (mem_entries_of_mem_split hpart), rfl, rfl⟩
  | skipped run =>
    refine ⟨hne, fun c hc => hword c ?_⟩
    have htext : (ofWord catalog cs).flatMap text = cs := flatMap_text_split h 0 cs
    rw [← htext]
    exact List.mem_flatMap.mpr ⟨_, hpart, hc⟩

end WordPart

namespace Raw

def cells (catalog : Catalog) : Raw → List Cell
  | symbol s => [.token s.token s.text]
  | digits cs =>
    let value := Nat.ofDigitChars 10 cs 0
    if value ≤ TokenStream.greatestInteger then [.token (.integer value) cs] else [.skipped cs]
  | word cs => (WordPart.ofWord catalog cs).map WordPart.cell
  | blank c => [.blank c]
  | unknown c => [.skipped [c]]

variable {catalog : Catalog} {piece : Raw} {cell : Cell}

theorem flatMap_text_cells (h : catalog.Ordered) (piece : Raw) :
    (piece.cells catalog).flatMap Cell.text = piece.text := by
  cases piece with
  | symbol s => exact List.append_nil _
  | digits cs =>
    rw [cells]
    split
    · exact List.append_nil cs
    · exact List.append_nil cs
  | word cs =>
    rw [cells, List.flatMap_map]
    simp only [WordPart.text_cell]
    exact WordPart.flatMap_text_split h 0 cs
  | blank c => rfl
  | unknown c => rfl

theorem isSpace_eq_false_of_isNameChar {c : Char} (h : isNameChar c = true) :
    isSpace c = false := by
  by_contra hspace
  rw [isNameChar_of_isSpace (by simpa using hspace)] at h
  cases h

theorem proper_of_mem_cells (h : catalog.Ordered) (hpiece : piece.Proper)
    (hcell : cell ∈ piece.cells catalog) : cell.Proper catalog := by
  cases piece with
  | symbol s =>
    obtain rfl := List.mem_singleton.mp hcell
    rcases s with (_ | _ | _) | _ | _ | _ | _ <;> exact ⟨by decide, rfl⟩
  | digits cs =>
    rw [cells] at hcell
    split at hcell
    · obtain rfl := List.mem_singleton.mp hcell
      exact ⟨hpiece.1, hpiece.2, rfl⟩
    · obtain rfl := List.mem_singleton.mp hcell
      exact ⟨hpiece.1, fun c hc =>
        isSpace_eq_false_of_isNameChar (isNameChar_of_isDigit (hpiece.2 c hc))⟩
  | word cs =>
    obtain ⟨part, hpart, rfl⟩ := List.mem_map.mp hcell
    have hname := List.all_eq_true.mp (Bool.and_eq_true_iff.mp hpiece).1
    exact WordPart.proper_cell h (fun c hc => isSpace_eq_false_of_isNameChar (hname c hc)) hpart
  | blank c =>
    obtain rfl := List.mem_singleton.mp hcell
    exact hpiece
  | unknown c =>
    obtain rfl := List.mem_singleton.mp hcell
    exact ⟨List.cons_ne_nil _ _, by simpa using hpiece.1⟩

end Raw

namespace TokenStream

/-- The token stream of cells that are laid one behind another. -/
def ofCells (start : Nat) (cells : List Cell) : TokenStream where
  lexemes := (Cell.place start cells).filterMap Cell.lexeme?
  skipped := (Cell.place start cells).filterMap Cell.skipped?

variable {catalog : Catalog}

theorem ofCells_append (start : Nat) (cells others : List Cell) :
    ofCells start (cells ++ others) =
      (ofCells start cells).append
        (ofCells (start + utf8Length (cells.flatMap Cell.text)) others) := by
  simp only [ofCells, append, Cell.place_append, List.filterMap_append]

theorem ofWordParts_eq (start : Nat) (parts : List WordPart) :
    ofWordParts start parts = ofCells start (parts.map WordPart.cell) := by
  induction parts generalizing start with
  | nil => rfl
  | cons part parts ih =>
    cases part with
    | tile name cls =>
      simp only [ofWordParts, ih]
      rfl
    | skipped cs =>
      simp only [ofWordParts, ih]
      rfl

theorem ofPiece_eq (start : Nat) (piece : Raw) :
    ofPiece catalog start piece = ofCells start (piece.cells catalog) := by
  cases piece with
  | symbol s => rfl
  | digits cs =>
    rw [ofPiece, Raw.cells]
    split
    · rfl
    · rfl
  | word cs => exact ofWordParts_eq start _
  | blank c => rfl
  | unknown c => rfl

theorem ofPieces_eq (h : catalog.Ordered) (start : Nat) (pieces : List Raw) :
    ofPieces catalog start pieces = ofCells start (pieces.flatMap (Raw.cells catalog)) := by
  induction pieces generalizing start with
  | nil => rfl
  | cons piece pieces ih =>
    rw [ofPieces, ih, ofPiece_eq, List.flatMap_cons, ofCells_append, Raw.flatMap_text_cells h]

/-- A text is cut into proper cells, and what is read are the places where they stand. -/
theorem exists_cells (h : catalog.Ordered) (text : String) :
    ∃ cells : List Cell, cells.flatMap Cell.text = text.toList ∧
      (∀ cell ∈ cells, cell.Proper catalog) ∧
      ofPieces catalog 0 (Raw.split text.toList) = ofCells 0 cells := by
  refine ⟨(Raw.split text.toList).flatMap (Raw.cells catalog), ?_, ?_, ofPieces_eq h 0 _⟩
  · rw [List.flatMap_assoc]
    simp only [Raw.flatMap_text_cells h]
    exact Raw.text_split text.toList
  · intro cell hcell
    obtain ⟨piece, hpiece, hcell⟩ := List.mem_flatMap.mp hcell
    exact Raw.proper_of_mem_cells h ((Raw.isCut_split text.toList).proper piece hpiece) hcell

end TokenStream

end Tilework
