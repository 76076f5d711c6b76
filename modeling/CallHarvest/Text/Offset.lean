import CallHarvest.Text.Parts
import CallHarvest.Text.Utf8

/-!
# Byte offsets

An offset into the bytes of a text is of use where it lies between two characters, and nowhere
else.

* `atByte?` — the text from an offset on (`atByte?_eq_some_iff`).
* `slice?` — the text between two offsets (`slice?_eq_some_iff`).
-/

namespace CallHarvest.Text

/-- The text from a byte offset on, if a character begins there or the text ends there. -/
def atByte? : Nat → List Char → Option (List Char)
  | 0, cs => some cs
  | _ + 1, [] => none
  | n + 1, c :: cs => if c.utf8Size ≤ n + 1 then atByte? (n + 1 - c.utf8Size) cs else none

/-- The text from one byte offset to another. -/
def slice? (start stop : Nat) (cs : List Char) : Option (List Char) :=
  if start ≤ stop then
    (atByte? start cs).bind fun rest => (atByte? (stop - start) rest).map (before rest)
  else none

theorem atByte?_append (pre rest : List Char) :
    atByte? (byteLength pre) (pre ++ rest) = some rest := by
  induction pre with
  | nil => simp [atByte?]
  | cons c pre ih =>
    obtain ⟨n, hn⟩ := Nat.exists_eq_add_one.2 (Char.utf8Size_pos c)
    have hle : c.utf8Size ≤ n + byteLength pre + 1 := by omega
    have hsub : n + byteLength pre + 1 - c.utf8Size = byteLength pre := by omega
    have hsum : byteLength (c :: pre) = n + byteLength pre + 1 := by
      rw [byteLength_cons]
      omega
    rw [hsum, List.cons_append, atByte?, if_pos hle, hsub, ih]

/-- **A text goes on at the offsets between its characters**, and at no others. -/
theorem atByte?_eq_some_iff {pos : Nat} {cs rest : List Char} :
    atByte? pos cs = some rest ↔ ∃ pre, cs = pre ++ rest ∧ byteLength pre = pos := by
  constructor
  · intro h
    fun_induction atByte? pos cs with
    | case1 cs => exact ⟨[], Option.some.inj h, rfl⟩
    | case2 => simp at h
    | case3 n c cs hle ih =>
      obtain ⟨pre, hcs, hpre⟩ := ih h
      refine ⟨c :: pre, by rw [hcs, List.cons_append], ?_⟩
      rw [byteLength_cons]
      omega
    | case4 => simp at h
  · intro h
    obtain ⟨pre, rfl, rfl⟩ := h
    exact atByte?_append pre rest

/-- **A slice is a part of a text** at its place. -/
theorem slice?_eq_some_iff {start stop : Nat} {cs part : List Char} :
    slice? start stop cs = some part ↔
      ∃ pre rest, cs = pre ++ (part ++ rest) ∧ byteLength pre = start ∧
        start + byteLength part = stop := by
  constructor
  · intro h
    unfold slice? at h
    split at h
    · rename_i hle
      obtain ⟨more, hmore, hpart⟩ := Option.bind_eq_some_iff.1 h
      obtain ⟨rest, hrest, rfl⟩ := Option.map_eq_some_iff.1 hpart
      obtain ⟨pre, rfl, hpre⟩ := atByte?_eq_some_iff.1 hmore
      obtain ⟨part, rfl, hlen⟩ := atByte?_eq_some_iff.1 hrest
      rw [before_append_right]
      exact ⟨pre, rest, rfl, hpre, by omega⟩
    · simp at h
  · intro h
    obtain ⟨pre, rest, rfl, rfl, rfl⟩ := h
    rw [slice?, if_pos (Nat.le_add_right _ _), atByte?_append, Option.bind_some,
      Nat.add_sub_cancel_left, atByte?_append, Option.map_some, before_append_right]

end CallHarvest.Text
