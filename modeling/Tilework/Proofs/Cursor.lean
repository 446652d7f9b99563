import Tilework.Proofs.Greedy

/-!
# Reading a word with a cursor

A word can be read by a cursor that goes from place to place. Where a name starts it takes the
longest one, and closes the skipped run that is open; elsewhere it goes on by one character, and
opens a run if there is none. Every step keeps what the whole word will give, and so the cursor
stops at the end of the word with the parts of the word.
-/

namespace Tilework

theorem utf8Length_of_isNameChar {cs : List Char} (h : ∀ c ∈ cs, isNameChar c = true) :
    utf8Length cs = cs.length := by
  induction cs with
  | nil => rfl
  | cons c cs ih =>
    rw [List.forall_mem_cons] at h
    have hsize : c.utf8Size = 1 := by
      rw [← String.length_utf8EncodeChar, utf8EncodeChar_of_isNameChar h.1, List.length_singleton]
    rw [utf8Length_cons, hsize, ih h.2, List.length_cons, Nat.add_comm]

namespace WordPart

variable {catalog : Catalog} {parts : List WordPart}

theorem split_eq_ofWord (catalog : Catalog) (covered : Nat) (cs : List Char) :
    split catalog covered cs = ofWord catalog (cs.drop covered) := by
  induction cs generalizing covered with
  | nil => cases covered <;> rfl
  | cons c cs ih =>
    cases covered with
    | zero => rfl
    | succ covered => exact ih covered

theorem ofWord_eq_tile (h : catalog.Ordered) {cs : List Char} {name : String} {cls : TileClass}
    (hfound : catalog.longestPrefix? cs = some (name, cls)) :
    0 < name.length ∧
      ofWord catalog cs = tile name cls :: ofWord catalog (cs.drop name.length) := by
  obtain ⟨hmem, hbegins, -⟩ := h.longestPrefix?_eq_some.mp hfound
  have hne := h.toList_ne_nil hmem
  have hlength : 0 < name.length := by
    rw [← String.length_toList]
    exact List.length_pos_of_ne_nil hne
  obtain ⟨n, hn⟩ := Nat.exists_eq_add_one_of_ne_zero hlength.ne'
  cases cs with
  | nil => exact absurd (List.prefix_nil.mp hbegins) hne
  | cons c cs =>
    refine ⟨hlength, ?_⟩
    rw [ofWord, split, hfound]
    simp only [split_eq_ofWord, hn]
    rfl

theorem ofWord_eq_skip {c : Char} {cs : List Char}
    (hfound : catalog.longestPrefix? (c :: cs) = none) :
    ofWord catalog (c :: cs) = skip c (ofWord catalog cs) := by
  rw [ofWord, split, hfound]
  rfl

theorem foldr_skip (hparts : ∀ part ∈ parts.head?, part.isSkipped = false) (c : Char)
    (cs : List Char) : (c :: cs).foldr skip parts = skipped (c :: cs) :: parts := by
  induction cs generalizing c with
  | nil =>
    match parts, hparts with
    | [], _ => rfl
    | tile name cls :: parts, _ => rfl
    | skipped cs :: parts, hparts => cases hparts _ rfl
  | cons d cs ih => rw [List.foldr_cons, ih d, skip]

end WordPart

/-- A place in a word, the place where a skipped run starts if one is open, and what has been found
so far. -/
structure Cursor where
  place : Nat := 0
  opened : Option Nat := none
  found : TokenStream := {}

namespace Cursor

open WordPart TokenStream

/-- What has been found, with a run that is open closed at the place of the cursor. -/
def close (offset : Nat) (cursor : Cursor) : TokenStream :=
  match cursor.opened with
  | none => cursor.found
  | some start => cursor.found.append { skipped := [⟨offset + start, offset + cursor.place⟩] }

/-- One step through a word that starts at `offset`. At the end there is none. -/
def step? (catalog : Catalog) (offset : Nat) (word : List Char) (cursor : Cursor) :
    Option Cursor :=
  if cursor.place < word.length then
    match catalog.longestPrefix? (word.drop cursor.place) with
    | some (name, cls) =>
      let stop := cursor.place + name.length
      let lexeme : Lexeme := ⟨.tile name cls 0, ⟨offset + cursor.place, offset + stop⟩⟩
      some { place := stop, found := (cursor.close offset).append { lexemes := [lexeme] } }
    | none =>
      some { cursor with
        place := cursor.place + 1
        opened := some (cursor.opened.getD cursor.place) }
  else none

def start (cursor : Cursor) : Nat := cursor.opened.getD cursor.place

def run (word : List Char) (cursor : Cursor) : List Char :=
  (word.drop cursor.start).take (cursor.place - cursor.start)

def outcome (catalog : Catalog) (offset : Nat) (word : List Char) (cursor : Cursor) :
    TokenStream :=
  cursor.found.append (ofWordParts (offset + cursor.start)
    ((cursor.run word).foldr skip (ofWord catalog (word.drop cursor.place))))

/-- The cursor is in the word, and an open run has a character. -/
structure Valid (word : List Char) (cursor : Cursor) : Prop where
  place_le : cursor.place ≤ word.length
  opened_lt : ∀ start, cursor.opened = some start → start < cursor.place

variable {catalog : Catalog} {offset : Nat} {word : List Char} {cursor next : Cursor}

theorem append_assoc (s t u : TokenStream) : (s.append t).append u = s.append (t.append u) := by
  simp [append, List.append_assoc]

theorem append_empty (s : TokenStream) : s.append {} = s := by
  simp [append]

theorem Valid.start_le (h : cursor.Valid word) : cursor.start ≤ cursor.place := by
  cases hopened : cursor.opened with
  | none => simp [start, hopened]
  | some place => simpa [start, hopened] using (h.opened_lt place hopened).le

theorem close_append (hword : ∀ c ∈ word, isNameChar c = true) (hvalid : cursor.Valid word)
    {parts : List WordPart} (hparts : ∀ part ∈ parts.head?, part.isSkipped = false) :
    cursor.found.append (ofWordParts (offset + cursor.start)
        ((cursor.run word).foldr skip parts)) =
      (cursor.close offset).append (ofWordParts (offset + cursor.place) parts) := by
  cases hopened : cursor.opened with
  | none => simp [close, run, start, hopened]
  | some place =>
    have hlt := hvalid.opened_lt place hopened
    have hstart : cursor.start = place := by rw [start, hopened, Option.getD_some]
    have hlength : (cursor.run word).length = cursor.place - place := by
      have hle := hvalid.place_le
      rw [run, hstart, List.length_take, List.length_drop]
      omega
    have hname : ∀ c ∈ cursor.run word, isNameChar c = true := fun c hc =>
      hword c (List.mem_of_mem_drop (List.mem_of_mem_take hc))
    have hstop : offset + place + utf8Length (cursor.run word) = offset + cursor.place := by
      rw [utf8Length_of_isNameChar hname, hlength]
      omega
    obtain ⟨c, cs, hrun⟩ : ∃ c cs, cursor.run word = c :: cs :=
      List.exists_cons_of_length_pos (by omega)
    rw [close, hopened, append_assoc, hstart, hrun, foldr_skip hparts, ← hrun, ofWordParts]
    simp [append, text, hstop]

theorem step_tile (hcatalog : catalog.Ordered) (hword : ∀ c ∈ word, isNameChar c = true)
    (hvalid : cursor.Valid word) {name : String} {cls : TileClass}
    (hfound : catalog.longestPrefix? (word.drop cursor.place) = some (name, cls))
    (hnext : next = {
      place := cursor.place + name.length
      found := (cursor.close offset).append { lexemes := [⟨.tile name cls 0,
        ⟨offset + cursor.place, offset + (cursor.place + name.length)⟩⟩] } }) :
    next.Valid word ∧ next.outcome catalog offset word = cursor.outcome catalog offset word ∧
      cursor.place < next.place := by
  subst hnext
  obtain ⟨hlength, hparts⟩ := ofWord_eq_tile hcatalog hfound
  have hbegins := (hcatalog.longestPrefix?_eq_some.mp hfound).2.1
  have hle : name.length ≤ word.length - cursor.place := by
    rw [← String.length_toList, ← List.length_drop]
    exact hbegins.length_le
  have hname : utf8Length name.toList = name.length := by
    rw [← String.length_toList]
    exact utf8Length_of_isNameChar fun c hc =>
      hword c (List.mem_of_mem_drop (hbegins.subset hc))
  refine ⟨⟨by dsimp only; omega, fun _ h => by cases h⟩, ?_, by dsimp only; omega⟩
  rw [outcome, outcome, hparts, close_append hword hvalid (by simp [isSkipped]), List.drop_drop]
  simp [run, start, append, ofWordParts, text, hname, Nat.add_assoc]

theorem step_skip (hvalid : cursor.Valid word) (hplace : cursor.place < word.length)
    (hfound : catalog.longestPrefix? (word.drop cursor.place) = none)
    (hnext : next = { cursor with place := cursor.place + 1, opened := some cursor.start }) :
    next.Valid word ∧ next.outcome catalog offset word = cursor.outcome catalog offset word ∧
      cursor.place < next.place := by
  subst hnext
  refine ⟨⟨hplace, ?_⟩, ?_, Nat.lt_succ_self _⟩
  · rintro place ⟨⟩
    exact Nat.lt_succ_of_le hvalid.start_le
  · have hdrop : word.drop cursor.place = word[cursor.place] :: word.drop (cursor.place + 1) :=
      List.drop_eq_getElem_cons hplace
    have hrun : (word.drop cursor.start).take (cursor.place + 1 - cursor.start) =
        cursor.run word ++ [word[cursor.place]] := by
      rw [Nat.succ_sub hvalid.start_le, List.take_add_one, List.getElem?_drop,
        Nat.add_sub_cancel' hvalid.start_le, List.getElem?_eq_getElem hplace, Option.toList_some,
        run]
    rw [hdrop] at hfound
    rw [outcome, outcome, hdrop, ofWord_eq_skip hfound]
    -- The character joins the run at its end.
    change cursor.found.append (ofWordParts (offset + cursor.start)
      (((word.drop cursor.start).take (cursor.place + 1 - cursor.start)).foldr skip
        (ofWord catalog (word.drop (cursor.place + 1))))) = _
    rw [hrun, List.foldr_append, List.foldr_cons, List.foldr_nil]

/-- One step keeps what will have been found, and the cursor goes on. -/
theorem step (hcatalog : catalog.Ordered) (hword : ∀ c ∈ word, isNameChar c = true)
    (hvalid : cursor.Valid word) (hstep : cursor.step? catalog offset word = some next) :
    next.Valid word ∧ next.outcome catalog offset word = cursor.outcome catalog offset word ∧
      cursor.place < next.place := by
  rw [step?] at hstep
  split at hstep
  · next hplace =>
    split at hstep
    · next name cls hfound =>
      exact step_tile hcatalog hword hvalid hfound (Option.some.inj hstep).symm
    · next hfound => exact step_skip hvalid hplace hfound (Option.some.inj hstep).symm
  · cases hstep

theorem close_eq_outcome (hword : ∀ c ∈ word, isNameChar c = true) (hvalid : cursor.Valid word)
    (hstep : cursor.step? catalog offset word = none) :
    cursor.close offset = cursor.outcome catalog offset word := by
  have hend : word.length ≤ cursor.place := by
    by_contra hplace
    rw [step?, if_pos (by omega)] at hstep
    split at hstep <;> cases hstep
  have hnone : ∀ part ∈ ([] : List WordPart).head?, part.isSkipped = false := by simp
  rw [outcome, List.drop_eq_nil_of_le hend]
  exact ((close_append hword hvalid hnone).trans (append_empty _)).symm

theorem run_eq_outcome (hcatalog : catalog.Ordered) (hword : ∀ c ∈ word, isNameChar c = true)
    (hvalid : cursor.Valid word) (offset : Nat) :
    ∃ last, Relation.ReflTransGen (fun a b => step? catalog offset word a = some b) cursor last ∧
      last.step? catalog offset word = none ∧
        last.close offset = cursor.outcome catalog offset word := by
  induction hleft : word.length - cursor.place using Nat.strongRecOn generalizing cursor with
  | ind left ih =>
    cases hstep : cursor.step? catalog offset word with
    | none => exact ⟨cursor, .refl, hstep, close_eq_outcome hword hvalid hstep⟩
    | some next =>
      obtain ⟨hnext, houtcome, hlt⟩ := step hcatalog hword hvalid hstep
      have hle := hnext.place_le
      obtain ⟨last, hreach, hstop, hclose⟩ := ih _ (by omega) hnext rfl
      exact ⟨last, .head hstep hreach, hstop, hclose.trans houtcome⟩

/-- A cursor that starts in front of a word stops with what the word gives. -/
theorem run_eq_ofPiece (hcatalog : catalog.Ordered) (hword : ∀ c ∈ word, isNameChar c = true)
    (offset : Nat) :
    ∃ last, Relation.ReflTransGen (fun a b => step? catalog offset word a = some b) {} last ∧
      last.step? catalog offset word = none ∧
        last.close offset = ofPiece catalog offset (.word word) := by
  have hvalid : ({} : Cursor).Valid word := ⟨Nat.zero_le _, fun _ h => by cases h⟩
  obtain ⟨last, hreach, hstop, hclose⟩ := run_eq_outcome hcatalog hword hvalid offset
  exact ⟨last, hreach, hstop, hclose.trans (by simp [outcome, run, start, append, ofPiece])⟩

end Cursor

end Tilework
