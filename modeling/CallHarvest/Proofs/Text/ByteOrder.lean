import CallHarvest.Text.Utf8
import Mathlib.Data.List.Sort

/-!
# The order of texts by their bytes

Texts are sorted by their bytes.  Two different texts have different bytes, so that the order is a
total one and a set of texts can be put in it in one way only, whatever order it was in before.

* `ByteLt` — the strict order; `Ascending` — lists of texts in it.
* `byteLe_trans`, `byteLe_total`, `byteLt_of_byteLe` — the laws of the order.
* `ascending_mergeSort` — sorting texts without repetition gives an ascending list.
* `Ascending.eq_of_mem_iff` — an ascending list is determined by its texts.
* `Ascending.sublist_of_subset` — some of its texts, ascending, are a part of it.
* `Ascending.pair_sublist` — two texts stand in it in their order.
-/

namespace CallHarvest.Text

/-- Whether the bytes of the first text come before those of the second. -/
def ByteLt (a b : String) : Prop :=
  bytes a.toList < bytes b.toList

instance (a b : String) : Decidable (ByteLt a b) :=
  inferInstanceAs (Decidable (bytes a.toList < bytes b.toList))

/-- Texts in the strict order of their bytes. -/
def Ascending (texts : List String) : Prop :=
  texts.Pairwise ByteLt

instance (texts : List String) : Decidable (Ascending texts) :=
  inferInstanceAs (Decidable (texts.Pairwise ByteLt))

/-- A text is determined by its bytes. -/
theorem bytes_injective {a b : String} (h : bytes a.toList = bytes b.toList) : a = b := by
  have hbytes : a.toByteArray = b.toByteArray := by
    rw [← String.utf8Encode_toList, ← String.utf8Encode_toList]
    exact congrArg List.toByteArray h
  exact String.toByteArray_inj.1 hbytes

theorem byteLe_trans (a b c : String) (hab : byteLe a b) (hbc : byteLe b c) : byteLe a c := by
  rw [byteLe, decide_eq_true_eq] at hab hbc ⊢
  exact List.le_trans hab hbc

theorem byteLe_total (a b : String) : byteLe a b || byteLe b a := by
  rw [byteLe, byteLe, Bool.or_eq_true, decide_eq_true_eq, decide_eq_true_eq]
  exact List.le_total _ _

/-- Of two different texts one comes before the other. -/
theorem byteLt_of_byteLe {a b : String} (h : byteLe a b) (hne : a ≠ b) : ByteLt a b := by
  rw [byteLe, decide_eq_true_eq] at h
  rcases List.le_iff_lt_or_eq.1 h with hlt | heq
  · exact hlt
  · exact absurd (bytes_injective heq) hne

instance : Std.Irrefl ByteLt where
  irrefl a := List.lt_irrefl (bytes a.toList)

instance : Std.Antisymm ByteLt where
  antisymm _ _ hab hba := absurd hba (List.lt_asymm hab)

/-- **Sorting gives an ascending list.** -/
theorem ascending_mergeSort {texts : List String} (h : texts.Nodup) :
    Ascending (texts.mergeSort byteLe) := by
  have hsorted : (texts.mergeSort byteLe).Pairwise fun a b => byteLe a b :=
    List.pairwise_mergeSort byteLe_trans byteLe_total texts
  have hnodup : (texts.mergeSort byteLe).Nodup :=
    (List.mergeSort_perm texts byteLe).nodup_iff.2 h
  exact hsorted.imp₂ (fun _ _ => byteLt_of_byteLe) hnodup

/-- **An ascending list is determined by its texts.** -/
theorem Ascending.eq_of_mem_iff {xs ys : List String} (hx : Ascending xs) (hy : Ascending ys)
    (h : ∀ t, t ∈ xs ↔ t ∈ ys) : xs = ys :=
  List.Pairwise.eq_of_mem_iff hx hy h

/-- **Fewer texts, in the same order.** -/
theorem Ascending.sublist_of_subset {xs ys : List String} (hx : Ascending xs) (hy : Ascending ys)
    (h : xs ⊆ ys) : xs.Sublist ys :=
  List.sublist_of_subperm_of_pairwise (List.subperm_of_subset hx.nodup h) hx hy

/-- Two texts of an ascending list stand in it in their order. -/
theorem Ascending.pair_sublist {texts : List String} (h : Ascending texts) {a b : String}
    (ha : a ∈ texts) (hb : b ∈ texts) (hab : ByteLt a b) : [a, b].Sublist texts := by
  have hne : b ≠ a := by
    intro he
    rw [he] at hab
    exact List.lt_irrefl (bytes a.toList) hab
  induction texts with
  | nil => exact absurd ha List.not_mem_nil
  | cons c texts ih =>
    obtain ⟨hc, htexts⟩ := List.pairwise_cons.1 h
    rcases List.mem_cons.1 ha with rfl | ha
    · have hb' := (List.mem_cons.1 hb).resolve_left hne
      exact (List.singleton_sublist.2 hb').cons_cons a
    · rcases List.mem_cons.1 hb with hbc | hb
      · rw [hbc] at hab
        exact absurd (hc a ha) (List.lt_asymm hab)
      · exact (ih htexts ha hb).cons c

end CallHarvest.Text
