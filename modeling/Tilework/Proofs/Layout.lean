import Tilework.Proofs.Isolation
import Tilework.Proofs.Parameters
import Tilework.Proofs.Pieces
import Tilework.Proofs.Unplaced

/-!
# Layout does not matter

What is read from a piece of text does not depend on where the piece stands, and blanks are read as
nothing. So blanks between two pieces change neither the tokens of a text nor how much of it is
skipped, and since a run reads no places they do not change what it gives.
-/

namespace Tilework

namespace TokenStream

/-- The same tokens at whatever places, and as many skipped spans. -/
structure SameReading (s t : TokenStream) : Prop where
  tokens : s.tokens = t.tokens
  skipped : s.skipped.length = t.skipped.length

theorem SameReading.append {s s' t t' : TokenStream} (h : SameReading s t)
    (h' : SameReading s' t') : SameReading (s.append s') (t.append t') := by
  constructor
  · rw [tokens_append, tokens_append, h.tokens, h'.tokens]
  · simp only [TokenStream.append, List.length_append, h.skipped, h'.skipped]

theorem sameReading_ofWordParts (parts : List WordPart) (start start' : Nat) :
    SameReading (ofWordParts start parts) (ofWordParts start' parts) := by
  induction parts generalizing start start' with
  | nil => exact ⟨rfl, rfl⟩
  | cons part parts ih =>
    obtain ⟨htokens, hskipped⟩ :=
      ih (start + utf8Length part.text) (start' + utf8Length part.text)
    cases part with
    | tile name cls => exact ⟨congrArg (Token.tile name cls 0 :: ·) htokens, hskipped⟩
    | skipped cs => exact ⟨htokens, congrArg (· + 1) hskipped⟩

variable {catalog : Catalog}

theorem sameReading_ofPiece (piece : Raw) (start start' : Nat) :
    SameReading (ofPiece catalog start piece) (ofPiece catalog start' piece) := by
  cases piece with
  | symbol s => exact ⟨rfl, rfl⟩
  | digits cs =>
    simp only [ofPiece]
    split <;> exact ⟨rfl, rfl⟩
  | word cs => exact sameReading_ofWordParts _ _ _
  | blank c => exact ⟨rfl, rfl⟩
  | unknown c => exact ⟨rfl, rfl⟩

theorem sameReading_ofPieces (pieces : List Raw) (start start' : Nat) :
    SameReading (ofPieces catalog start pieces) (ofPieces catalog start' pieces) := by
  induction pieces generalizing start start' with
  | nil => exact ⟨rfl, rfl⟩
  | cons piece pieces ih => exact (sameReading_ofPiece piece start start').append (ih _ _)

theorem sameReading_insert (before behind : List Raw) (blanks : List Char) (start start' : Nat) :
    SameReading (ofPieces catalog start (before ++ blanks.map .blank ++ behind))
      (ofPieces catalog start' (before ++ behind)) := by
  induction before generalizing start start' with
  | nil =>
    induction blanks generalizing start with
    | nil => exact sameReading_ofPieces behind start start'
    | cons c blanks ih => exact ih (start + utf8Length [c])
  | cons piece before ih => exact (sameReading_ofPiece piece start start').append (ih _ _)

/-- A text with blanks between two of its pieces. -/
def spaced (text : String) (n : Nat) (blanks : List Char) : String :=
  let pieces := Raw.split text.toList
  String.ofList ((pieces.take n).flatMap Raw.text ++ blanks ++ (pieces.drop n).flatMap Raw.text)

theorem sameReading_spaced (text : String) (n : Nat) {blanks : List Char}
    (hblanks : ∀ c ∈ blanks, Raw.isSpace c = true) :
    SameReading (ofText catalog (spaced text n blanks)) (ofText catalog text) := by
  have hsplit : Raw.split (spaced text n blanks).toList = (Raw.split text.toList).take n ++
      blanks.map .blank ++ (Raw.split text.toList).drop n := by
    rw [spaced, String.toList_ofList, Raw.split_insert text.toList n hblanks]
  have hsame : SameReading (ofPieces catalog 0 (Raw.split (spaced text n blanks).toList))
      (ofPieces catalog 0 (Raw.split text.toList)) := by
    have hpieces := List.take_append_drop n (Raw.split text.toList)
    rw [hsplit]
    conv in (ofPieces catalog 0 (Raw.split text.toList)) => rw [← hpieces]
    exact sameReading_insert _ _ blanks 0 0
  constructor
  · rw [tokens_ofText, tokens_ofText, hsame.tokens]
  · exact hsame.skipped

end TokenStream

namespace Session

variable {σ : Type} [TileSource σ]

/-- The same fault, or compositions that differ in spans and in the text of the expression only; and
in either case the same session behind it. -/
def SameOutcome : Attempt (Session σ) Composition → Attempt (Session σ) Composition → Prop
  | (.ok c, after), (.ok c', after') =>
    c.name = c'.name ∧ c.tile = c'.tile ∧
      c.provenance.tileFingerprint = c'.provenance.tileFingerprint ∧ c.bounds = c'.bounds ∧
      c.skipped.length = c'.skipped.length ∧
      c.diagnostics.map (·.warning) = c'.diagnostics.map (·.warning) ∧ after = after'
  | (.error fault, after), (.error fault', after') => fault = fault' ∧ after = after'
  | _, _ => False

theorem sameOutcome_of_sameReading (session : Session σ) (name : String)
    {expression expression' : String}
    (h : (TokenStream.ofText session.catalog expression').SameReading
      (TokenStream.ofText session.catalog expression)) :
    SameOutcome (session.compose name expression') (session.compose name expression) := by
  have hrun := session.machine.run_congr h.tokens expression.utf8ByteSize expression'.utf8ByteSize
  rw [compose, compose]
  generalize session.machine.run (TokenStream.ofText session.catalog expression').lexemes
    expression'.utf8ByteSize = attempt' at hrun ⊢
  generalize session.machine.run (TokenStream.ofText session.catalog expression).lexemes
    expression.utf8ByteSize = attempt at hrun ⊢
  obtain ⟨result', m'⟩ := attempt'
  obtain ⟨result, m⟩ := attempt
  obtain ⟨hresult, hmachine⟩ := Prod.mk.inj hrun
  obtain rfl : result' = result := hresult
  obtain ⟨hsource, hnamespaces, hbounds, hwarnings⟩ := Machine.eq_of_unplaced_eq hmachine
  cases result' with
  | error fault => simp only [SameOutcome, hsource, hnamespaces, hbounds, and_self]
  | ok tile =>
    simp only [SameOutcome, hsource, hnamespaces, hbounds, hwarnings, h.skipped, and_true, true_and]
    rfl

/-- Blanks between two pieces of an expression do not change what composing it gives: the fault or
the tile, its fingerprint, the bounds, the number of skipped spans, the warnings with their codes,
messages and hints, and the session that is left. -/
theorem compose_spaced (session : Session σ) (name expression : String) (n : Nat)
    {blanks : List Char} (hblanks : ∀ c ∈ blanks, Raw.isSpace c = true) :
    (Raw.split expression.toList).flatMap Raw.text = expression.toList ∧
      SameOutcome (session.compose name (TokenStream.spaced expression n blanks))
        (session.compose name expression) :=
  ⟨Raw.text_split expression.toList,
    sameOutcome_of_sameReading session name (TokenStream.sameReading_spaced expression n hblanks)⟩

/-- The blanks stand between a name and what is skipped in front of its parameter. -/
theorem compose_spaced_range :
    (∀ c ∈ ['\r', '\n', '\t', ' '], Raw.isSpace c = true) ∧
      (rangeSession.compose "s" "(lo+mid~[3])]").1.toOption.isSome = true ∧
      SameOutcome (rangeSession.compose "s" "(lo+mid\r\n\t ~[3])]")
        (rangeSession.compose "s" "(lo+mid~[3])]") := by
  have hblanks : ∀ c ∈ ['\r', '\n', '\t', ' '], Raw.isSpace c = true := by
    simp [Raw.isSpace]
  have hspaced : TokenStream.spaced "(lo+mid~[3])]" 4 ['\r', '\n', '\t', ' '] =
      "(lo+mid\r\n\t ~[3])]" := by decide +kernel
  have hsame := (compose_spaced rangeSession "s" "(lo+mid~[3])]" 4 hblanks).2
  rw [hspaced] at hsame
  exact ⟨hblanks, by decide +kernel, hsame⟩

end Session

end Tilework
