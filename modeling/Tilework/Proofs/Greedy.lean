import Mathlib.Data.List.Chain
import Tilework.Proofs.Cells
import Tilework.Proofs.LongestName
import Tilework.Proofs.Printing

/-!
# Words are cut greedily

A word is cut from the left: where names start, the longest one is taken, and elsewhere characters
are skipped up to the next place where a name starts or the word ends. There is one cut that does
this, and reading a word makes it. Its parts stand one behind another from the place of the word.
-/

namespace Tilework

namespace Catalog

/-- The name starts the text and is longer than all others that do. -/
def IsLongest (catalog : Catalog) (text : List Char) (name : String) (cls : TileClass) : Prop :=
  catalog.classOf? name = some cls ∧ name.toList <+: text ∧
    ∀ other ∈ catalog.names, other.toList <+: text →
      other = name ∨ other.utf8ByteSize < name.utf8ByteSize

def NoneStarts (catalog : Catalog) (text : List Char) : Prop :=
  ∀ name ∈ catalog.names, ¬ name.toList <+: text

variable {catalog : Catalog} {text : List Char} {name : String} {cls : TileClass}

namespace Ordered

theorem isLongest_iff (h : catalog.Ordered) :
    catalog.IsLongest text name cls ↔ catalog.longestPrefix? text = some (name, cls) := by
  simp only [IsLongest, h.longestPrefix?_iff, h.mem_names, forall_exists_index]

theorem noneStarts_iff (h : catalog.Ordered) :
    catalog.NoneStarts text ↔ catalog.longestPrefix? text = none := by
  simp only [NoneStarts, h.longestPrefix?_eq_none, h.mem_names, forall_exists_index]

theorem not_noneStarts (h : catalog.Ordered)
    (hlongest : catalog.IsLongest text name cls) : ¬ catalog.NoneStarts text := by
  rw [h.noneStarts_iff, h.isLongest_iff.mp hlongest]
  exact Option.some_ne_none _

end Ordered

end Catalog

namespace WordPart

def isSkipped : WordPart → Bool
  | tile _ _ => false
  | skipped _ => true

/-- A cut of a word that takes the longest name wherever one starts, and skips no more than it has
to. Every part is judged by what is left of the word in front of it. -/
structure Greedy (catalog : Catalog) (word : List Char) (parts : List WordPart) : Prop where
  text_eq : parts.flatMap text = word
  isLongest : ∀ before name cls behind, parts = before ++ tile name cls :: behind →
    catalog.IsLongest (name.toList ++ behind.flatMap text) name cls
  noneStarts : ∀ before run behind, parts = before ++ skipped run :: behind →
    run ≠ [] ∧ ∀ i < run.length, catalog.NoneStarts (run.drop i ++ behind.flatMap text)
  apart : parts.IsChain fun a b => ¬ (a.isSkipped = true ∧ b.isSkipped = true)

variable {catalog : Catalog} {word cs run : List Char} {c : Char} {name : String} {cls : TileClass}
  {part : WordPart} {parts parts' : List WordPart}

namespace Greedy

theorem nil : Greedy catalog [] [] where
  text_eq := rfl
  isLongest := by simp
  noneStarts := by simp
  apart := .nil

theorem tail (h : Greedy catalog word (part :: parts)) :
    Greedy catalog (parts.flatMap text) parts where
  text_eq := rfl
  isLongest before name cls behind hparts :=
    h.isLongest (part :: before) name cls behind (by rw [hparts]; rfl)
  noneStarts before run behind hparts :=
    h.noneStarts (part :: before) run behind (by rw [hparts]; rfl)
  apart := h.apart.tail

theorem head_tile (h : Greedy catalog word (tile name cls :: parts)) :
    catalog.IsLongest word name cls := by
  rw [← h.text_eq]
  exact h.isLongest [] name cls parts rfl

theorem head_skipped (h : Greedy catalog word (skipped run :: parts)) :
    run ≠ [] ∧ ∀ i < run.length, catalog.NoneStarts (word.drop i) := by
  obtain ⟨hne, hnone⟩ := h.noneStarts [] run parts rfl
  refine ⟨hne, fun i hi => ?_⟩
  have hword : word = run ++ parts.flatMap text := h.text_eq.symm
  rw [hword, List.drop_append_of_le_length (Nat.le_of_lt hi)]
  exact hnone i hi

theorem cons_tile (h : Greedy catalog cs parts)
    (hlongest : catalog.IsLongest (name.toList ++ cs) name cls) :
    Greedy catalog (name.toList ++ cs) (tile name cls :: parts) := by
  obtain rfl := h.text_eq
  refine ⟨rfl, ?_, ?_, h.apart.cons fun _ _ => by simp [isSkipped]⟩
  · intro before name' cls' behind hparts
    cases before with
    | nil =>
      obtain ⟨heq, rfl⟩ := List.cons.inj hparts
      obtain ⟨rfl, rfl⟩ := WordPart.tile.inj heq
      exact hlongest
    | cons first before => exact h.isLongest before name' cls' behind (List.cons.inj hparts).2
  · intro before run behind hparts
    cases before with
    | nil => cases (List.cons.inj hparts).1
    | cons first before => exact h.noneStarts before run behind (List.cons.inj hparts).2

theorem cons_skipped (h : Greedy catalog cs parts) (hne : run ≠ [])
    (hnone : ∀ i < run.length, catalog.NoneStarts (run.drop i ++ cs))
    (hapart : ∀ part ∈ parts.head?, part.isSkipped = false) :
    Greedy catalog (run ++ cs) (skipped run :: parts) := by
  obtain rfl := h.text_eq
  refine ⟨rfl, ?_, ?_, h.apart.cons fun part hpart => by simp [hapart part hpart]⟩
  · intro before name cls behind hparts
    cases before with
    | nil => cases (List.cons.inj hparts).1
    | cons first before => exact h.isLongest before name cls behind (List.cons.inj hparts).2
  · intro before run' behind hparts
    cases before with
    | nil =>
      obtain ⟨heq, rfl⟩ := List.cons.inj hparts
      obtain rfl := WordPart.skipped.inj heq
      exact ⟨hne, hnone⟩
    | cons first before => exact h.noneStarts before run' behind (List.cons.inj hparts).2

/-- A character at which no name starts joins the first skipped run, or is a run of its own. -/
theorem skip (h : Greedy catalog cs parts) (hnone : catalog.NoneStarts (c :: cs)) :
    Greedy catalog (c :: cs) (skip c parts) := by
  have hsingle : ∀ i < [c].length, catalog.NoneStarts ([c].drop i ++ cs) := by
    intro i hi
    obtain rfl : i = 0 := Nat.lt_one_iff.mp hi
    exact hnone
  cases parts with
  | nil => exact h.cons_skipped (List.cons_ne_nil _ _) hsingle (by simp)
  | cons part parts =>
    cases part with
    | tile name cls => exact h.cons_skipped (List.cons_ne_nil _ _) hsingle (by simp [isSkipped])
    | skipped run =>
      obtain ⟨-, hrun⟩ := h.noneStarts [] run parts rfl
      have hcs : cs = run ++ parts.flatMap text := h.text_eq.symm
      have hapart : ∀ part ∈ parts.head?, part.isSkipped = false := by
        intro part hpart
        have hchain := (List.isChain_cons.mp h.apart).1 part hpart
        simpa [isSkipped] using hchain
      rw [hcs, ← List.cons_append] at hnone ⊢
      refine h.tail.cons_skipped (List.cons_ne_nil _ _) (fun i hi => ?_) hapart
      cases i with
      | zero => exact hnone
      | succ i => exact hrun i (Nat.lt_of_succ_lt_succ hi)

/-- A skipped run reaches as far as no name starts. -/
theorem le_length_run (hcatalog : catalog.Ordered)
    (h : Greedy catalog word (skipped run :: parts)) {n : Nat} (hn : n ≤ word.length)
    (hnone : ∀ i < n, catalog.NoneStarts (word.drop i)) : n ≤ run.length := by
  have hword : word = run ++ parts.flatMap text := h.text_eq.symm
  by_contra hlt
  have hbehind := hnone run.length (by omega)
  rw [hword, List.drop_left] at hbehind
  -- Behind the run the word ends, or a name starts, or another run would be adjacent.
  match parts, h with
  | [], h =>
    rw [hword, List.flatMap_nil, List.append_nil] at hn
    exact hlt hn
  | tile name cls :: parts, h =>
    exact hcatalog.not_noneStarts h.tail.head_tile hbehind
  | skipped run' :: parts, h =>
    exact (List.isChain_cons_cons.mp h.apart).1 ⟨rfl, rfl⟩

theorem eq_nil (hcatalog : catalog.Ordered) (h : Greedy catalog [] parts) : parts = [] := by
  match parts, h with
  | [], _ => rfl
  | tile name cls :: _, h =>
    have hnil : name.toList = [] := List.prefix_nil.mp h.head_tile.2.1
    exact absurd hnil (hcatalog.toList_ne_nil (hcatalog.classOf?_eq_some.mp h.head_tile.1))
  | skipped run :: _, h =>
    exact absurd (List.append_eq_nil_iff.mp h.text_eq).1 h.head_skipped.1

/-- A word has one greedy cut. -/
theorem unique (hcatalog : catalog.Ordered) (h : Greedy catalog word parts)
    (h' : Greedy catalog word parts') : parts = parts' := by
  induction parts generalizing word parts' with
  | nil =>
    obtain rfl := h.text_eq
    exact (h'.eq_nil hcatalog).symm
  | cons part parts ih =>
    match part, parts', h, h' with
    | part, [], h, h' =>
      obtain rfl := h'.text_eq
      exact h.eq_nil hcatalog
    | tile name cls, tile name' cls' :: parts', h, h' =>
      have hsame := h.head_tile
      rw [hcatalog.isLongest_iff] at hsame
      have hsame' := h'.head_tile
      rw [hcatalog.isLongest_iff, hsame] at hsame'
      obtain ⟨rfl, rfl⟩ := Prod.mk.inj (Option.some.inj hsame')
      have hrest : parts'.flatMap text = parts.flatMap text :=
        List.append_cancel_left (h'.text_eq.trans h.text_eq.symm)
      rw [ih h.tail (hrest ▸ h'.tail)]
    | tile name cls, skipped run :: parts', h, h' =>
      have hlength := List.length_pos_iff.mpr h'.head_skipped.1
      exact absurd (h'.head_skipped.2 0 hlength)
        (hcatalog.not_noneStarts h.head_tile)
    | skipped run, tile name cls :: parts', h, h' =>
      have hlength := List.length_pos_iff.mpr h.head_skipped.1
      exact absurd (h.head_skipped.2 0 hlength)
        (hcatalog.not_noneStarts h'.head_tile)
    | skipped run, skipped run' :: parts', h, h' =>
      have hword : word = run ++ parts.flatMap text := h.text_eq.symm
      have hword' : word = run' ++ parts'.flatMap text := h'.text_eq.symm
      have hle : run.length ≤ run'.length :=
        h'.le_length_run hcatalog (by simp [hword]) h.head_skipped.2
      have hle' : run'.length ≤ run.length :=
        h.le_length_run hcatalog (by simp [hword']) h'.head_skipped.2
      obtain ⟨rfl, hrest⟩ := List.append_inj (hword.symm.trans hword') (Nat.le_antisymm hle hle')
      rw [ih h.tail (hrest ▸ h'.tail)]

end Greedy

theorem greedy_split (h : catalog.Ordered) (covered : Nat) (cs : List Char) :
    Greedy catalog (cs.drop covered) (split catalog covered cs) := by
  induction cs generalizing covered with
  | nil => cases covered <;> exact .nil
  | cons c cs ih =>
    cases covered with
    | succ covered => exact ih covered
    | zero =>
      rw [split, List.drop_zero]
      split
      · next name cls hfound =>
        have hlongest := h.isLongest_iff.mpr hfound
        have hne := h.toList_ne_nil (h.classOf?_eq_some.mp hlongest.1)
        have hword := append_drop_of_prefix hne hlongest.2.1
        rw [← hword] at hlongest ⊢
        exact (ih _).cons_tile hlongest
      · next hfound => exact (ih 0).skip (h.noneStarts_iff.mpr hfound)

end WordPart

def Span.shift (offset : Nat) (span : Span) : Span := ⟨offset + span.start, offset + span.stop⟩

namespace TokenStream

def shift (offset : Nat) (stream : TokenStream) : TokenStream where
  lexemes := stream.lexemes.map fun lexeme => { lexeme with span := lexeme.span.shift offset }
  skipped := stream.skipped.map (Span.shift offset)

theorem place_shift (offset start : Nat) (cells : List Cell) :
    Cell.place (offset + start) cells =
      (Cell.place start cells).map fun placed => (placed.1, placed.2.shift offset) := by
  induction cells generalizing start with
  | nil => rfl
  | cons cell cells ih =>
    rw [Cell.place, Cell.place, List.map_cons, Nat.add_assoc, ih]
    rfl

theorem ofCells_shift (offset : Nat) (cells : List Cell) :
    ofCells offset cells = (ofCells 0 cells).shift offset := by
  have hplace := place_shift offset 0 cells
  rw [Nat.add_zero] at hplace
  rw [ofCells, ofCells, shift, hplace, List.filterMap_map, List.filterMap_map, List.map_filterMap,
    List.map_filterMap]
  congr 1
  · refine List.filterMap_congr fun placed _ => ?_
    obtain ⟨_ | _ | _, _⟩ := placed <;> rfl
  · refine List.filterMap_congr fun placed _ => ?_
    obtain ⟨_ | _ | _, _⟩ := placed <;> rfl

/-- A word is read as the parts of its one greedy cut, which stand one behind another from the place
of the word. -/
theorem ofPiece_word {catalog : Catalog} (h : catalog.Ordered) (word : List Char) :
    ∃ parts, (∀ cut, WordPart.Greedy catalog word cut ↔ cut = parts) ∧
      ∀ start, ofPiece catalog start (.word word) =
        (ofCells 0 (parts.map WordPart.cell)).shift start := by
  have hgreedy : WordPart.Greedy catalog word (WordPart.ofWord catalog word) :=
    WordPart.greedy_split h 0 word
  refine ⟨WordPart.ofWord catalog word, fun cut => ⟨fun hcut => hcut.unique h hgreedy, ?_⟩, ?_⟩
  · rintro rfl
    exact hgreedy
  · intro start
    rw [← ofCells_shift]
    exact ofWordParts_eq start _

/-- The longer name is taken where both start, and nothing of it is left for the other one. -/
def smallParts : List WordPart :=
  [.skipped ['x'], .tile "1a2" .ternary, .skipped ['y', '-'], .tile "1a" .accepting,
    .tile "1a" .accepting, .skipped ['1']]

theorem ofPiece_word_small :
    smallCatalog.Ordered ∧ WordPart.Greedy smallCatalog "x1a2y-1a1a1".toList smallParts ∧
      ofPiece smallCatalog 3 (.word "x1a2y-1a1a1".toList) =
        { lexemes := [⟨.tile "1a2" .ternary 0, ⟨4, 7⟩⟩, ⟨.tile "1a" .accepting 0, ⟨9, 11⟩⟩,
            ⟨.tile "1a" .accepting 0, ⟨11, 13⟩⟩]
          skipped := [⟨3, 4⟩, ⟨7, 9⟩, ⟨13, 14⟩] } := by
  have hsplit : WordPart.split smallCatalog 0 "x1a2y-1a1a1".toList = smallParts := by decide +kernel
  have hgreedy : WordPart.Greedy smallCatalog "x1a2y-1a1a1".toList smallParts :=
    hsplit ▸ WordPart.greedy_split ordered_smallCatalog 0 "x1a2y-1a1a1".toList
  obtain ⟨parts, hcut, hplaces⟩ := ofPiece_word ordered_smallCatalog "x1a2y-1a1a1".toList
  rw [← (hcut smallParts).mp hgreedy] at hplaces
  exact ⟨ordered_smallCatalog, hgreedy, (hplaces 3).trans (by decide)⟩

end TokenStream

end Tilework
