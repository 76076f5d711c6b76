import CallHarvest.Text.Utf8
import Mathlib.Data.List.Basic

/-!
# Cuts of a text

What a part of a text that was put together from others may be, where the parts are cut at other
places than they were joined.

* `append_eq_append_cases` — two cuts of one text.
* `mem_of_concat_eq_append` — the last character is in the last part.
* `suffix_append_cases`, `concat_prefix_append_cases` — the end and the beginning of two parts.
* `suffix_of_suffix_append`, `prefix_of_prefix_append` — a part with a character that the other has
  not.
* `append_inj_of_byteLength_eq` — a cut is told by the bytes in front of it.
-/

namespace CallHarvest.Text

variable {α : Type}

/-- Two ways to cut a text: the first cut is not before the second, or it is. -/
theorem append_eq_append_cases {a b c d : List α} (h : a ++ b = c ++ d) :
    (∃ e, a = c ++ e ∧ d = e ++ b) ∨ ∃ e, e ≠ [] ∧ c = a ++ e ∧ b = e ++ d := by
  rcases List.append_eq_append_iff.1 h with ⟨e, hc, hb⟩ | ⟨e, ha, hd⟩
  · by_cases he : e = []
    · subst he
      rw [List.append_nil] at hc
      exact Or.inl ⟨[], by rw [hc, List.append_nil], hb.symm⟩
    · exact Or.inr ⟨e, he, hc, hb⟩
  · exact Or.inl ⟨e, ha, hd⟩

theorem mem_of_concat_eq_append {x y z : List α} {a : α} (h : z ++ [a] = x ++ y) (hy : y ≠ []) :
    a ∈ y := by
  have hlast := congrArg List.getLast? h
  rw [List.getLast?_concat, List.getLast?_append, List.getLast?_eq_some_getLast hy,
    Option.some_or] at hlast
  rw [Option.some.inj hlast]
  exact List.getLast_mem hy

/-- A suffix of two parts lies in the second, or reaches into the first. -/
theorem suffix_append_cases {s a b : List α} (h : s <:+ a ++ b) :
    s <:+ b ∨ ∃ x, x ≠ [] ∧ x <:+ a ∧ s = x ++ b := by
  obtain ⟨t, ht⟩ := h
  rcases append_eq_append_cases ht.symm with ⟨x, ha, hs⟩ | ⟨x, _, _, hb⟩
  · by_cases hx : x = []
    · subst hx
      exact Or.inl (hs ▸ List.suffix_rfl)
    · exact Or.inr ⟨x, hx, ha ▸ List.suffix_append t x, hs⟩
  · exact Or.inl (hb ▸ List.suffix_append x s)

/-- An end of a text that begins with a character which the first part has not is an end of the
second part. -/
theorem suffix_of_suffix_append {a : α} {u v xs : List α} (ha : a ∉ xs)
    (h : a :: u <:+ xs ++ v) : a :: u <:+ v := by
  rcases suffix_append_cases h with hv | ⟨x, hne, hx, he⟩
  · exact hv
  · obtain ⟨b, x, rfl⟩ := List.exists_cons_of_ne_nil hne
    rw [← (List.cons.inj he).1] at hx
    exact absurd (hx.subset List.mem_cons_self) ha

/-- A beginning of two parts lies in the first, or takes all of it and ends in the second. -/
theorem concat_prefix_append_cases {c : α} {y a b : List α} (h : y ++ [c] <+: a ++ b) :
    y ++ [c] <+: a ∨ ∃ f, y = a ++ f ∧ f ++ [c] <+: b := by
  obtain ⟨t, ht⟩ := h
  rcases append_eq_append_cases ht with ⟨e, he, hb⟩ | ⟨e, _, ha, _⟩
  · rcases List.eq_nil_or_concat' e with rfl | ⟨f, d, rfl⟩
    · rw [List.append_nil] at he
      exact Or.inl (he ▸ List.prefix_rfl)
    · rw [← List.append_assoc] at he
      obtain ⟨hy, hd⟩ := List.append_inj' he rfl
      exact Or.inr ⟨f, hy, t, by rw [hd, hb]⟩
  · exact Or.inl (ha ▸ List.prefix_append (y ++ [c]) e)

/-- A beginning of a text that ends with a character which the second part has not is a beginning
of the first part. -/
theorem prefix_of_prefix_append {a : α} {x cs junk : List α} (hj : a ∉ junk)
    (h : x ++ [a] <+: cs ++ junk) : x ++ [a] <+: cs := by
  rcases concat_prefix_append_cases h with h | ⟨f, -, hf⟩
  · exact h
  · exact absurd (hf.subset (List.mem_append_right f (List.mem_singleton_self a))) hj

theorem byteLength_pos {cs : List Char} (h : cs ≠ []) : 0 < byteLength cs := by
  obtain ⟨c, cs, rfl⟩ := List.exists_cons_of_ne_nil h
  have hpos := Char.utf8Size_pos c
  rw [byteLength_cons]
  omega

/-- Two cuts of a text with as many bytes in front of them are the same cut. -/
theorem append_inj_of_byteLength_eq {a b c d : List Char} (h : a ++ b = c ++ d)
    (hlen : byteLength a = byteLength c) : a = c ∧ b = d := by
  rcases append_eq_append_cases h with ⟨e, rfl, rfl⟩ | ⟨e, he, rfl, rfl⟩
  · by_cases he : e = []
    · simp [he]
    · have hpos := byteLength_pos he
      rw [byteLength_append] at hlen
      omega
  · have hpos := byteLength_pos he
    rw [byteLength_append] at hlen
    omega

end CallHarvest.Text
