import CallHarvest.Text.Offset
import Mathlib.Data.String.Basic

/-!
# Byte offsets and positions in strings

The offsets that a text is cut at are the positions of a string, as the library of strings has
them.

* `utf8ByteSize_eq` — the length of a string is that of its characters.
* `isValid_iff_atByte?` — a valid position is one from which the text goes on.
* `extract_of_slice?` — a slice is what is extracted between two positions.
-/

namespace CallHarvest.Text

theorem utf8Len_eq (cs : List Char) : String.utf8Len cs = byteLength cs := by
  induction cs with
  | nil => rfl
  | cons c cs ih => rw [String.utf8Len_cons, byteLength_cons, ih, Nat.add_comm]

/-- The length of a string in bytes. -/
theorem utf8ByteSize_eq (s : String) : s.utf8ByteSize = byteLength s.toList := by
  rw [← utf8Len_eq, ← String.utf8ByteSize_ofList, String.ofList_toList]

/-- **The valid positions of a string** are the offsets between its characters. -/
theorem isValid_iff_atByte? {s : String} {pos : Nat} :
    String.Pos.Raw.IsValid s ⟨pos⟩ ↔ ∃ rest, atByte? pos s.toList = some rest := by
  rw [String.Pos.Raw.isValid_iff_exists_append]
  constructor
  · intro h
    obtain ⟨front, back, rfl, hpos⟩ := h
    have hfront : byteLength front.toList = pos := by
      rw [← utf8ByteSize_eq]
      exact (congrArg String.Pos.Raw.byteIdx hpos).symm
    exact ⟨back.toList, atByte?_eq_some_iff.2 ⟨front.toList, String.toList_append, hfront⟩⟩
  · intro h
    obtain ⟨rest, hrest⟩ := h
    obtain ⟨pre, hcut, rfl⟩ := atByte?_eq_some_iff.1 hrest
    refine ⟨String.ofList pre, String.ofList rest, ?_, ?_⟩
    · rw [← String.ofList_append, ← hcut, String.ofList_toList]
    · rw [← utf8Len_eq, ← String.utf8ByteSize_ofList]
      rfl

/-- **A slice is cut between two valid positions**, and is what a string has between them. -/
theorem extract_of_slice? {s : String} {start stop : Nat} {part : List Char}
    (h : slice? start stop s.toList = some part) :
    String.Pos.Raw.IsValid s ⟨start⟩ ∧ String.Pos.Raw.IsValid s ⟨stop⟩ ∧ stop ≤ s.utf8ByteSize ∧
      String.Pos.Raw.extract s ⟨start⟩ ⟨stop⟩ = String.ofList part := by
  obtain ⟨pre, rest, hcut, rfl, rfl⟩ := slice?_eq_some_iff.1 h
  have hcut' : s.toList = pre ++ part ++ rest := by rw [hcut, List.append_assoc]
  have hstop : byteLength (pre ++ part) = byteLength pre + byteLength part :=
    byteLength_append pre part
  refine ⟨isValid_iff_atByte?.2 ⟨part ++ rest, ?_⟩, isValid_iff_atByte?.2 ⟨rest, ?_⟩, ?_, ?_⟩
  · exact atByte?_eq_some_iff.2 ⟨pre, hcut, rfl⟩
  · exact atByte?_eq_some_iff.2 ⟨pre ++ part, hcut', hstop⟩
  · rw [utf8ByteSize_eq, hcut', byteLength_append, hstop]
    exact Nat.le_add_right _ _
  · have hextract := String.extract_of_valid pre part rest
    rwa [← hcut', String.ofList_toList, utf8Len_eq, utf8Len_eq] at hextract

end CallHarvest.Text
