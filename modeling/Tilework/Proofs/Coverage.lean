import Mathlib.Data.List.Pairwise
import Tilework.Proofs.Cells
import Tilework.Proofs.Printing

/-!
# Every byte is accounted for

The tokens of a text are in order and apart from each other, and so is what was skipped. Together
they take every byte but those of blanks, and what was skipped has no blanks in it. A token stands
where it is written. A reference with a parameter reaches from its name to the closing bracket, and
between these and the parts of the parameter there are only blanks and skipped bytes; nowhere else
does a token meet what was skipped.
-/

namespace Tilework

/-- A span of at least one byte that begins and ends between characters of the text. -/
def Span.Within (span : Span) (text : String) : Prop :=
  span.start < span.stop ∧ ∃ cs, span.Holds text cs

/-- From one byte to another there are only blanks and skipped bytes. -/
def Span.Passed (skipped : List Span) (text : String) (start stop : Nat) : Prop :=
  start ≤ stop ∧ ∀ i b, start ≤ i → i < stop → (utf8Bytes text)[i]? = some b →
    b ∉ Raw.spaceBytes → ∃ span ∈ skipped, span.Has i

namespace Lexeme

/-- The token is written where it stands, without a parameter. -/
def Stands (catalog : Catalog) (text : String) (lexeme : Lexeme) : Prop :=
  ∃ cs, cs ≠ [] ∧ lexeme.token.WrittenAs catalog cs ∧ lexeme.span.Holds text cs

/-- The token is a reference from its name to the bracket behind its parameter. -/
def Folded (catalog : Catalog) (text : String) (skipped : List Span) (lexeme : Lexeme) : Prop :=
  ∃ name cls n, ∃ named opened number closed : Span,
    lexeme = ⟨.tile name cls n, ⟨named.start, closed.stop⟩⟩ ∧
      Stands catalog text ⟨.tile name cls 0, named⟩ ∧
      Span.Passed skipped text named.stop opened.start ∧
      Stands catalog text ⟨.openBracket, opened⟩ ∧
      Span.Passed skipped text opened.stop number.start ∧
      Stands catalog text ⟨.integer n, number⟩ ∧
      Span.Passed skipped text number.stop closed.start ∧
      Stands catalog text ⟨.closeBracket, closed⟩

/-- The span begins behind the name and ends in front of the last byte. -/
def InParameter (lexeme : Lexeme) (span : Span) : Prop :=
  ∃ name cls n, lexeme.token = .tile name cls n ∧
    lexeme.span.start + name.utf8ByteSize ≤ span.start ∧ span.stop < lexeme.span.stop

variable {catalog : Catalog} {text : String} {skipped : List Span} {lexeme : Lexeme} {span : Span}

theorem Stands.within (h : lexeme.Stands catalog text) : lexeme.span.Within text := by
  obtain ⟨cs, hne, -, hholds⟩ := h
  exact ⟨hholds.start_lt hne, cs, hholds⟩

theorem Stands.tile {name : String} {cls : TileClass} {param : Nat}
    (h : Stands catalog text ⟨.tile name cls param, span⟩) :
    param = 0 ∧ span.start + name.utf8ByteSize = span.stop := by
  obtain ⟨_, -, ⟨-, hparam, rfl⟩, -, -, -, -, hstop⟩ := h
  rw [utf8Length_toList] at hstop
  exact ⟨hparam, hstop⟩

theorem Folded.within (h : lexeme.Folded catalog text skipped) : lexeme.span.Within text := by
  obtain ⟨name, cls, n, named, opened, number, closed, rfl, hnamed, ⟨hle, -⟩, hopened, ⟨hle', -⟩,
    hnumber, ⟨hle'', -⟩, hclosed⟩ := h
  have hopen := hopened.within.1
  have hdigits := hnumber.within.1
  obtain ⟨hstart, cs, hholds⟩ := hnamed.within
  obtain ⟨hclose, ds, hholds'⟩ := hclosed.within
  dsimp only at *
  obtain ⟨between, hjoin⟩ := hholds.join hholds' (by omega)
  exact ⟨by dsimp only; omega, _, hjoin⟩

end Lexeme

namespace TokenStream

/-- Tokens and skipped spans are each in order, and leave out nothing but blanks. -/
structure Laid (text : String) (stream : TokenStream) : Prop where
  lexemes_within : ∀ lexeme ∈ stream.lexemes, lexeme.span.Within text
  lexemes_ordered : stream.lexemes.Pairwise fun a b => a.span.stop ≤ b.span.start
  skipped_within : ∀ span ∈ stream.skipped, span.Within text
  skipped_ordered : stream.skipped.Pairwise fun a b => a.stop ≤ b.start
  covered : ∀ i b, (utf8Bytes text)[i]? = some b → b ∉ Raw.spaceBytes →
    (∃ lexeme ∈ stream.lexemes, lexeme.span.Has i) ∨ ∃ span ∈ stream.skipped, span.Has i
  skipped_plain : ∀ span ∈ stream.skipped, ∀ i b, span.Has i → (utf8Bytes text)[i]? = some b →
    b ∉ Raw.spaceBytes

/-- The tokens and skipped spans of a stream account for every byte of the text. -/
structure Accounts (catalog : Catalog) (text : String) (stream : TokenStream) : Prop
    extends Laid text stream where
  written : ∀ lexeme ∈ stream.lexemes,
    lexeme.Stands catalog text ∨ lexeme.Folded catalog text stream.skipped
  meets : ∀ lexeme ∈ stream.lexemes, ∀ span ∈ stream.skipped, ∀ i, lexeme.span.Has i →
    span.Has i → lexeme.Folded catalog text stream.skipped ∧ lexeme.InParameter span

variable {catalog : Catalog} {text : String} {stream : TokenStream} {start : Nat}
  {cells : List Cell} {lexeme a b : Lexeme} {lexemes : List Lexeme} {span : Span}

theorem mem_lexemes_ofCells : lexeme ∈ (ofCells start cells).lexemes ↔
    ∃ cs, (.token lexeme.token cs, lexeme.span) ∈ Cell.place start cells := by
  simp only [ofCells, List.mem_filterMap, Cell.lexeme?_eq_some]
  grind

theorem mem_skipped_ofCells : span ∈ (ofCells start cells).skipped ↔
    ∃ cs, (.skipped cs, span) ∈ Cell.place start cells := by
  simp only [ofCells, List.mem_filterMap, Cell.skipped?_eq_some]
  grind

theorem stands_of_mem_ofCells (htext : cells.flatMap Cell.text = text.toList)
    (hproper : ∀ cell ∈ cells, cell.Proper catalog) (h : lexeme ∈ (ofCells 0 cells).lexemes) :
    lexeme.Stands catalog text := by
  obtain ⟨cs, hmem⟩ := mem_lexemes_ofCells.mp h
  obtain ⟨hcell, hholds⟩ := Cell.holds_of_mem_place htext hmem
  obtain ⟨hne, hwritten⟩ := hproper _ hcell
  exact ⟨cs, hne, hwritten, hholds⟩

theorem apart_of_mem_ofCells (hlexeme : lexeme ∈ (ofCells start cells).lexemes)
    (hspan : span ∈ (ofCells start cells).skipped) :
    lexeme.span.stop ≤ span.start ∨ span.stop ≤ lexeme.span.start := by
  obtain ⟨cs, hmem⟩ := mem_lexemes_ofCells.mp hlexeme
  obtain ⟨run, hmem'⟩ := mem_skipped_ofCells.mp hspan
  let apart : Cell × Span → Cell × Span → Prop := fun a b =>
    a.2.stop ≤ b.2.start ∨ b.2.stop ≤ a.2.start
  have hsymm : Std.Symm apart := ⟨fun _ _ => Or.symm⟩
  have hapart : (Cell.place start cells).Pairwise apart :=
    (Cell.pairwise_place start cells).imp Or.inl
  exact hapart.forall hmem hmem' (by simp)

theorem laid_ofCells (htext : cells.flatMap Cell.text = text.toList)
    (hproper : ∀ cell ∈ cells, cell.Proper catalog) : (ofCells 0 cells).Laid text where
  lexemes_within lexeme h := (stands_of_mem_ofCells htext hproper h).within
  lexemes_ordered := by
    rw [ofCells, List.pairwise_filterMap]
    refine (Cell.pairwise_place 0 cells).imp fun hle a ha b hb => ?_
    obtain ⟨_, rfl⟩ := Cell.lexeme?_eq_some.mp ha
    obtain ⟨_, rfl⟩ := Cell.lexeme?_eq_some.mp hb
    exact hle
  skipped_within span h := by
    obtain ⟨cs, hmem⟩ := mem_skipped_ofCells.mp h
    obtain ⟨hcell, hholds⟩ := Cell.holds_of_mem_place htext hmem
    exact ⟨hholds.start_lt (hproper _ hcell).1, cs, hholds⟩
  skipped_ordered := by
    rw [ofCells, List.pairwise_filterMap]
    refine (Cell.pairwise_place 0 cells).imp fun hle a ha b hb => ?_
    obtain ⟨_, rfl⟩ := Cell.skipped?_eq_some.mp ha
    obtain ⟨_, rfl⟩ := Cell.skipped?_eq_some.mp hb
    exact hle
  covered i b hb hspace := by
    have hi : i < utf8Length (cells.flatMap Cell.text) := by
      rw [htext, ← length_flatMap_utf8EncodeChar, ← utf8Bytes_eq]
      exact (List.getElem?_eq_some_iff.mp hb).1
    obtain ⟨⟨cell, span⟩, hmem, hhas⟩ := Cell.exists_mem_place (Nat.zero_le i) (by simpa using hi)
    cases cell with
    | token token cs => exact Or.inl ⟨⟨token, span⟩, mem_lexemes_ofCells.mpr ⟨cs, hmem⟩, hhas⟩
    | skipped cs => exact Or.inr ⟨span, mem_skipped_ofCells.mpr ⟨cs, hmem⟩, hhas⟩
    | blank c =>
      obtain ⟨hcell, hholds⟩ := Cell.holds_of_mem_place htext hmem
      obtain ⟨d, hd, hbyte⟩ := hholds.exists_char hhas hb
      obtain rfl : d = c := List.mem_singleton.mp hd
      exact absurd ((Raw.mem_spaceBytes_iff hbyte).mpr (hproper _ hcell)) hspace
  skipped_plain span h i b hhas hb hspace := by
    obtain ⟨cs, hmem⟩ := mem_skipped_ofCells.mp h
    obtain ⟨hcell, hholds⟩ := Cell.holds_of_mem_place htext hmem
    obtain ⟨c, hc, hbyte⟩ := hholds.exists_char hhas hb
    have hplain : Raw.isSpace c = false := (hproper _ hcell).2 c hc
    rw [(Raw.mem_spaceBytes_iff hbyte).mp hspace] at hplain
    cases hplain

theorem exists_start_eq_attachParameters (h : lexeme ∈ attachParameters lexemes) :
    ∃ first ∈ lexemes, first.span.start = lexeme.span.start := by
  rcases mem_attachParameters h with h | ⟨name, cls, param, n, named, _, _, _, rfl, hin⟩
  · exact ⟨lexeme, h, rfl⟩
  · exact ⟨⟨.tile name cls param, named⟩, hin.subset (by simp), rfl⟩

theorem pairwise_attachParameters
    (h : lexemes.Pairwise fun a b => a.span.stop ≤ b.span.start) :
    (attachParameters lexemes).Pairwise fun a b => a.span.stop ≤ b.span.start := by
  induction lexemes using attachParameters.induct with
  | case1 name cls param named opened n number closed rest ih =>
    simp only [List.pairwise_cons] at h
    obtain ⟨-, -, -, hclosed, hrest⟩ := h
    rw [attachParameters, List.pairwise_cons]
    refine ⟨fun lexeme hlexeme => ?_, ih hrest⟩
    obtain ⟨first, hfirst, heq⟩ := exists_start_eq_attachParameters hlexeme
    rw [← heq]
    exact hclosed first hfirst
  | case2 first rest hother ih =>
    obtain ⟨hfirst, hrest⟩ := List.pairwise_cons.mp h
    rw [attachParameters, List.pairwise_cons]
    · refine ⟨fun lexeme hlexeme => ?_, ih hrest⟩
      obtain ⟨next, hnext, heq⟩ := exists_start_eq_attachParameters hlexeme
      rw [← heq]
      exact hfirst next hnext
    · exact hother
  | case3 => exact List.Pairwise.nil

theorem exists_has_attachParameters {i : Nat}
    (h : lexemes.Pairwise fun a b => a.span.stop ≤ b.span.start)
    (hwithin : ∀ lexeme ∈ lexemes, lexeme.span.Within text)
    (hlexeme : lexeme ∈ lexemes) (hi : lexeme.span.Has i) :
    ∃ attached ∈ attachParameters lexemes, attached.span.Has i := by
  obtain ⟨hle, hlt⟩ := hi
  induction lexemes using attachParameters.induct with
  | case1 name cls param named opened n number closed rest ih =>
    simp only [List.pairwise_cons, List.forall_mem_cons] at h hwithin
    obtain ⟨⟨hopened, -⟩, ⟨hnumber, -⟩, ⟨hclosed, -⟩, -, hrest⟩ := h
    obtain ⟨⟨hnamed, -⟩, ⟨hopen, -⟩, ⟨hdigits, -⟩, ⟨hclose, -⟩, hwithin⟩ := hwithin
    rw [attachParameters]
    by_cases hmem : lexeme ∈ rest
    · obtain ⟨attached, hattached, hhas⟩ := ih hrest hwithin hmem
      exact ⟨attached, List.mem_cons_of_mem _ hattached, hhas⟩
    · -- The token is one of the four that became one.
      simp only [List.mem_cons, hmem, or_false] at hlexeme
      refine ⟨_, List.mem_cons_self, ?_⟩
      rcases hlexeme with rfl | rfl | rfl | rfl
      all_goals
        dsimp only [Span.Has] at hle hlt ⊢
        omega
  | case2 first rest hother ih =>
    rw [attachParameters]
    · rcases List.mem_cons.mp hlexeme with rfl | hmem
      · exact ⟨lexeme, List.mem_cons_self, hle, hlt⟩
      · obtain ⟨attached, hattached, hhas⟩ :=
          ih (List.pairwise_cons.mp h).2 (List.forall_mem_cons.mp hwithin).2 hmem
        exact ⟨attached, List.mem_cons_of_mem _ hattached, hhas⟩
    · exact hother
  | case3 => cases hlexeme

theorem Laid.passed (h : stream.Laid text) (hin : [a, b] <:+: stream.lexemes) :
    Span.Passed stream.skipped text a.span.stop b.span.start := by
  obtain ⟨before, behind, hlexemes⟩ := hin
  have hordered := h.lexemes_ordered
  rw [← hlexemes, List.append_assoc, List.pairwise_append] at hordered
  obtain ⟨-, hordered, hbefore⟩ := hordered
  simp only [List.cons_append, List.nil_append, List.pairwise_cons] at hordered
  obtain ⟨ha, hb, -⟩ := hordered
  have hab : a.span.stop ≤ b.span.start := ha b List.mem_cons_self
  refine ⟨hab, fun i byte hle hlt hbyte hspace => ?_⟩
  rcases h.covered i byte hbyte hspace with ⟨lexeme, hlexeme, hstart, hstop⟩ | hskipped
  · exfalso
    have hawithin : a.span.start < a.span.stop := (h.lexemes_within a (by simp [← hlexemes])).1
    have hbwithin : b.span.start < b.span.stop := (h.lexemes_within b (by simp [← hlexemes])).1
    rw [← hlexemes] at hlexeme
    simp only [List.mem_append, List.mem_cons, List.not_mem_nil, or_false] at hlexeme
    rcases hlexeme with (hmem | rfl | rfl) | hmem
    · have hle := hbefore lexeme hmem a (by simp)
      omega
    · omega
    · omega
    · have hle := hb lexeme hmem
      omega
  · exact hskipped

theorem Laid.folded (h : stream.Laid text)
    (hstands : ∀ lexeme ∈ stream.lexemes, lexeme.Stands catalog text) {name : String}
    {cls : TileClass} {param n : Nat} {named opened number closed : Span}
    (hin : [⟨.tile name cls param, named⟩, ⟨.openBracket, opened⟩, ⟨.integer n, number⟩,
      ⟨.closeBracket, closed⟩] <:+: stream.lexemes) :
    Lexeme.Folded catalog text stream.skipped ⟨.tile name cls n, ⟨named.start, closed.stop⟩⟩ := by
  have hnamed := hstands ⟨.tile name cls param, named⟩ (hin.subset (by simp))
  have hopened := hstands ⟨.openBracket, opened⟩ (hin.subset (by simp))
  have hnumber := hstands ⟨.integer n, number⟩ (hin.subset (by simp))
  have hclosed := hstands ⟨.closeBracket, closed⟩ (hin.subset (by simp))
  obtain ⟨rfl, -⟩ := hnamed.tile
  exact ⟨name, cls, n, named, opened, number, closed, rfl,
    hnamed, h.passed (List.IsInfix.trans ⟨[], [_, _], rfl⟩ hin),
    hopened, h.passed (List.IsInfix.trans ⟨[_], [_], rfl⟩ hin),
    hnumber, h.passed (List.IsInfix.trans ⟨[_, _], [], rfl⟩ hin), hclosed⟩

/-- Attaching parameters to tokens that are written where they stand, apart from what was skipped.
What was skipped meets a token only between the parts of its parameter. -/
theorem Laid.attach (h : stream.Laid text)
    (hstands : ∀ lexeme ∈ stream.lexemes, lexeme.Stands catalog text)
    (hapart : ∀ lexeme ∈ stream.lexemes, ∀ span ∈ stream.skipped,
      lexeme.span.stop ≤ span.start ∨ span.stop ≤ lexeme.span.start) :
    Accounts catalog text { stream with lexemes := attachParameters stream.lexemes } where
  lexemes_within lexeme hlexeme := by
    rcases mem_attachParameters hlexeme with hmem | ⟨_, _, _, _, _, _, _, _, rfl, hin⟩
    · exact h.lexemes_within lexeme hmem
    · exact (h.folded hstands hin).within
  lexemes_ordered := pairwise_attachParameters h.lexemes_ordered
  skipped_within := h.skipped_within
  skipped_ordered := h.skipped_ordered
  covered i b hb hspace := by
    rcases h.covered i b hb hspace with ⟨lexeme, hlexeme, hhas⟩ | hskipped
    · exact Or.inl (exists_has_attachParameters h.lexemes_ordered h.lexemes_within hlexeme hhas)
    · exact Or.inr hskipped
  skipped_plain := h.skipped_plain
  written lexeme hlexeme := by
    rcases mem_attachParameters hlexeme with hmem | ⟨_, _, _, _, _, _, _, _, rfl, hin⟩
    · exact Or.inl (hstands lexeme hmem)
    · exact Or.inr (h.folded hstands hin)
  meets lexeme hlexeme span hspan i hhas hhas' := by
    obtain ⟨hle, hlt⟩ := hhas
    obtain ⟨hle', hlt'⟩ := hhas'
    rcases mem_attachParameters hlexeme with hmem |
      ⟨name, cls, param, n, named, opened, number, closed, rfl, hin⟩
    · rcases hapart lexeme hmem span hspan with hbefore | hbehind
      · omega
      · omega
    · refine ⟨h.folded hstands hin, name, cls, n, rfl, ?_⟩
      -- It is apart from the name and from the closing bracket, and so it lies between them.
      have hnamed : ⟨.tile name cls param, named⟩ ∈ stream.lexemes := hin.subset (by simp)
      have hclosed : ⟨.closeBracket, closed⟩ ∈ stream.lexemes := hin.subset (by simp)
      have hstop := (hstands _ hnamed).tile.2
      have hclose := (h.lexemes_within _ hclosed).1
      have hname := hapart _ hnamed span hspan
      have hbracket := hapart _ hclosed span hspan
      dsimp only at *
      omega

/-- Reading a text accounts for every byte of it. -/
theorem accounts_ofText (h : catalog.Ordered) (text : String) :
    (ofText catalog text).Accounts catalog text := by
  obtain ⟨cells, htext, hproper, hcells⟩ := exists_cells h text
  have hattach : ofText catalog text =
      { ofCells 0 cells with lexemes := attachParameters (ofCells 0 cells).lexemes } := by
    rw [ofText, hcells]
  rw [hattach]
  exact (laid_ofCells htext hproper).attach
    (fun _ hlexeme => stands_of_mem_ofCells htext hproper hlexeme)
    (fun _ hlexeme _ hspan => apart_of_mem_ofCells hlexeme hspan)

/-- The first reference takes the seven over two skipped characters, one of them of two bytes. Of
the word behind it a character is skipped, and the last number is too great. -/
theorem accounts_ofText_small :
    smallCatalog.Ordered ∧
      ofText smallCatalog "1a é[~\t7 ]x1a2+ 18446744073709551616" =
        { lexemes := [⟨.tile "1a" .accepting 7, ⟨0, 11⟩⟩, ⟨.tile "1a2" .ternary 0, ⟨12, 15⟩⟩,
            ⟨.operator .sizeMatched, ⟨15, 16⟩⟩]
          skipped := [⟨3, 5⟩, ⟨6, 7⟩, ⟨11, 12⟩, ⟨17, 37⟩] } ∧
      (ofText smallCatalog "1a é[~\t7 ]x1a2+ 18446744073709551616").Accounts smallCatalog
        "1a é[~\t7 ]x1a2+ 18446744073709551616" :=
  ⟨ordered_smallCatalog, by decide +kernel, accounts_ofText ordered_smallCatalog _⟩

end TokenStream

end Tilework
