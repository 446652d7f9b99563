import Tilework.Proofs.Pieces
import Tilework.Tile.Fingerprint

/-!
# Spans of bytes and the characters in them

A text is the bytes of its characters one after another. A span that holds characters begins and
ends between characters of the text, and each of its bytes is a byte of one of these. A byte is a
blank's exactly when it belongs to a blank, since the bytes of longer characters are all different
from those of short ones.
-/

namespace Tilework

variable {text : String} {cs ds : List Char} {c : Char} {b : UInt8} {i : Nat}

@[simp] theorem utf8Length_nil : utf8Length [] = 0 := rfl

@[simp] theorem utf8Length_cons : utf8Length (c :: cs) = c.utf8Size + utf8Length cs := rfl

@[simp] theorem utf8Length_append (cs ds : List Char) :
    utf8Length (cs ++ ds) = utf8Length cs + utf8Length ds := by
  induction cs with
  | nil => simp
  | cons c cs ih => simp [ih, Nat.add_assoc]

theorem length_le_utf8Length (cs : List Char) : cs.length ≤ utf8Length cs := by
  induction cs with
  | nil => simp
  | cons c cs ih =>
    have hpos : 0 < c.utf8Size := c.utf8Size_pos
    simp only [List.length_cons, utf8Length_cons]
    omega

theorem length_flatMap_utf8EncodeChar (cs : List Char) :
    (cs.flatMap String.utf8EncodeChar).length = utf8Length cs := by
  induction cs with
  | nil => rfl
  | cons c cs ih =>
    rw [List.flatMap_cons, List.length_append, ih, String.length_utf8EncodeChar, utf8Length_cons]

theorem toList_loop_eq (bytes : ByteArray) (n : Nat) (acc : List UInt8) :
    ByteArray.toList.loop bytes n acc = acc.reverse ++ bytes.data.toList.drop n := by
  fun_induction ByteArray.toList.loop bytes n acc with
  | case1 n acc h ih =>
    have hn : n < bytes.data.toList.length := by simpa using h
    have hget : bytes.get! n = bytes.data.toList[n] := by simp [ByteArray.get!, h]
    rw [ih, hget, List.drop_eq_getElem_cons hn, List.reverse_cons, List.append_assoc,
      List.singleton_append]
  | case2 n acc h =>
    rw [List.drop_eq_nil_of_le (by simpa using h), List.append_nil]

theorem utf8Bytes_eq_data (text : String) : utf8Bytes text = text.toByteArray.data.toList :=
  toList_loop_eq text.toByteArray 0 []

theorem utf8Bytes_eq (text : String) :
    utf8Bytes text = text.toList.flatMap String.utf8EncodeChar := by
  rw [utf8Bytes_eq_data, ← String.utf8Encode_toList, List.utf8Encode, List.toList_data_toByteArray]

theorem utf8Length_toList (text : String) : utf8Length text.toList = text.utf8ByteSize := by
  rw [← length_flatMap_utf8EncodeChar, String.utf8ByteSize, ← String.utf8Encode_toList,
    List.utf8Encode, List.size_toByteArray]

theorem toNat_of_mem_utf8EncodeChar (h : b ∈ String.utf8EncodeChar c) :
    c.toNat ≤ 127 ∧ b.toNat = c.toNat ∨ 127 < c.toNat ∧ 127 < b.toNat := by
  have hval : c.val.toNat = c.toNat := rfl
  rw [String.utf8EncodeChar.eq_1] at h
  simp only [hval] at h
  split at h
  · next hshort =>
    obtain rfl := List.mem_singleton.mp h
    left
    rw [UInt8.toNat_ofNat']
    omega
  · next hlong =>
    right
    repeat' split at h
    all_goals
      simp only [List.mem_cons, List.not_mem_nil, or_false] at h
      refine ⟨by omega, ?_⟩
    · rcases h with rfl | rfl <;> rw [UInt8.toNat_ofNat'] <;> omega
    · rcases h with rfl | rfl | rfl <;> rw [UInt8.toNat_ofNat'] <;> omega
    · rcases h with rfl | rfl | rfl | rfl <;> rw [UInt8.toNat_ofNat'] <;> omega

namespace Raw

def spaceBytes : List UInt8 := [0x20, 0x09, 0x0d, 0x0a]

theorem mem_spaceBytes : b ∈ spaceBytes ↔ b.toNat ∈ [0x20, 0x09, 0x0d, 0x0a] := by
  simp [spaceBytes, ← UInt8.toNat_inj]

theorem isSpace_iff_toNat : isSpace c = true ↔ c.toNat ∈ [0x20, 0x09, 0x0d, 0x0a] := by
  simp [isSpace_iff, ← Char.toNat_inj]

theorem mem_spaceBytes_iff (h : b ∈ String.utf8EncodeChar c) :
    b ∈ spaceBytes ↔ isSpace c = true := by
  rw [mem_spaceBytes, isSpace_iff_toNat]
  rcases toNat_of_mem_utf8EncodeChar h with ⟨-, heq⟩ | ⟨hc, hb⟩
  · rw [heq]
  · simp only [List.mem_cons, List.not_mem_nil, or_false]
    omega

end Raw

namespace Span

variable {span first last : Span}

/-- Whether a byte is in the span. -/
def Has (span : Span) (i : Nat) : Prop := span.start ≤ i ∧ i < span.stop

/-- The span begins and ends between characters of the text, and has these characters in it. -/
def Holds (span : Span) (text : String) (cs : List Char) : Prop :=
  ∃ before behind, text.toList = before ++ cs ++ behind ∧ utf8Length before = span.start ∧
    span.start + utf8Length cs = span.stop

theorem Holds.start_lt (h : span.Holds text cs) (hne : cs ≠ []) : span.start < span.stop := by
  obtain ⟨before, behind, -, -, hstop⟩ := h
  have hpos : 0 < cs.length := List.length_pos_iff.mpr hne
  have hlength := length_le_utf8Length cs
  omega

theorem Holds.exists_char (h : span.Holds text cs) (hi : span.Has i)
    (hb : (utf8Bytes text)[i]? = some b) : ∃ c ∈ cs, b ∈ String.utf8EncodeChar c := by
  obtain ⟨before, behind, htext, hstart, hstop⟩ := h
  obtain ⟨hle, hlt⟩ := hi
  have hbefore := length_flatMap_utf8EncodeChar before
  have hinside := length_flatMap_utf8EncodeChar cs
  rw [utf8Bytes_eq, htext, List.flatMap_append, List.flatMap_append, List.append_assoc,
    List.getElem?_append_right (by omega), List.getElem?_append_left (by omega)] at hb
  exact List.mem_flatMap.mp (List.mem_of_getElem? hb)

theorem Holds.join (hfirst : first.Holds text cs) (hlast : last.Holds text ds)
    (h : first.stop ≤ last.start) :
    ∃ between, Span.Holds ⟨first.start, last.stop⟩ text (cs ++ between ++ ds) := by
  obtain ⟨before, behind, htext, hstart, hstop⟩ := hfirst
  obtain ⟨before', behind', htext', hstart', hstop'⟩ := hlast
  have hprefix : before ++ cs <+: text.toList := ⟨behind, htext.symm⟩
  have hprefix' : before' <+: text.toList := ⟨ds ++ behind', by rw [htext', List.append_assoc]⟩
  have hlength := utf8Length_append before cs
  obtain ⟨between, hbetween⟩ : before ++ cs <+: before' := by
    rcases List.prefix_or_prefix_of_prefix hprefix hprefix' with hle | ⟨more, hmore⟩
    · exact hle
    · -- The later span begins no earlier, so nothing is left between the two prefixes.
      have hmoreLength := utf8Length_append before' more
      rw [hmore] at hmoreLength
      have hshort := length_le_utf8Length more
      have hnil : more = [] := List.eq_nil_of_length_eq_zero (by omega)
      have heq : before ++ cs = before' := by rw [← hmore, hnil, List.append_nil]
      exact ⟨[], by rw [List.append_nil, heq]⟩
  have htotal : utf8Length before' = utf8Length (before ++ cs) + utf8Length between := by
    rw [← hbetween, utf8Length_append]
  refine ⟨between, before, behind', ?_, hstart, ?_⟩
  · rw [htext', ← hbetween]
    simp only [List.append_assoc]
  · simp only [utf8Length_append]
    omega

end Span

end Tilework
