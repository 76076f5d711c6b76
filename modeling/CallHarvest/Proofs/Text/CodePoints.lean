import Mathlib.Tactic.SplitIfs
import CallHarvest.Proofs.Text.ByteOrder

/-!
# The order of texts by their characters

The UTF-8 form of a character grows with its number: of two characters the forms differ at a byte
that both have, and there the smaller character has the smaller byte.  So no form is the beginning
of another one, and texts compare by their bytes as they do by the numbers of their characters.

* `codePoints` — the numbers of the characters of a text.
* `DiffersBelow` — the first difference of two lists of bytes, where the first one is smaller.
* `differsBelow_of_lt` — the forms of two characters.
* `compare_bytes` — texts compare by their bytes as by their characters.
* `Ascending.iff_codePoints` — the same of lists of texts.
-/

namespace CallHarvest.Text

/-- The numbers of the characters of a text. -/
def codePoints (text : String) : List Nat :=
  text.toList.map Char.toNat

/-! ### Comparing lists -/

theorem compare_append_left {α : Type} [Ord α] [Std.ReflOrd α] (xs ys zs : List α) :
    compare (xs ++ ys) (xs ++ zs) = compare ys zs := by
  induction xs with
  | nil => rfl
  | cons x xs ih =>
    rw [List.cons_append, List.cons_append, List.compare_cons_cons, Std.compare_self, ih]
    rfl

/-- To compare lists of bytes is to ask for their order. -/
theorem compare_eq_lt_iff_lt (xs ys : List UInt8) : compare xs ys = .lt ↔ xs < ys := by
  induction xs generalizing ys with
  | nil =>
    cases ys with
    | nil => simp
    | cons y ys => simp [List.compare_nil_cons]
  | cons x xs ih =>
    cases ys with
    | nil => simp [List.compare_cons_nil]
    | cons y ys =>
      rw [List.compare_cons_cons, List.cons_lt_cons_iff, Ordering.then_eq_lt, Std.compare_eq_lt,
        Std.compare_eq_iff_eq, ih]

/-! ### The forms of two characters -/

/-- Whether two lists of bytes differ at a place that both have, and the first one has the smaller
byte at the first such place. -/
def DiffersBelow (xs ys : List UInt8) : Prop :=
  ∃ common x y u v, xs = common ++ x :: u ∧ ys = common ++ y :: v ∧ x < y

namespace DiffersBelow

variable {m n : Nat} {u v xs ys : List UInt8}

theorem of_lt (hm : m < 256) (hn : n < 256) (h : m < n) :
    DiffersBelow (UInt8.ofNat m :: u) (UInt8.ofNat n :: v) :=
  ⟨[], _, _, u, v, rfl, rfl, (UInt8.ofNat_lt_iff_lt hm hn).2 h⟩

theorem cons (b : UInt8) (h : DiffersBelow u v) : DiffersBelow (b :: u) (b :: v) := by
  obtain ⟨common, x, y, u', v', rfl, rfl, hlt⟩ := h
  exact ⟨b :: common, x, y, u', v', rfl, rfl, hlt⟩

/-- A byte decides, unless it is the same in both. -/
theorem of_le (hm : m < 256) (hn : n < 256) (h : m ≤ n) (hrest : m = n → DiffersBelow u v) :
    DiffersBelow (UInt8.ofNat m :: u) (UInt8.ofNat n :: v) := by
  rcases Nat.lt_or_eq_of_le h with hlt | rfl
  · exact of_lt hm hn hlt
  · exact (hrest rfl).cons _

/-- Nothing that comes after a difference alters the order. -/
theorem compare_append (h : DiffersBelow xs ys) (u v : List UInt8) :
    compare (xs ++ u) (ys ++ v) = .lt := by
  obtain ⟨common, x, y, u', v', rfl, rfl, hlt⟩ := h
  have hxy : compare x y = .lt := Std.compare_eq_lt.2 hlt
  rw [List.append_assoc, List.append_assoc, compare_append_left, List.cons_append,
    List.cons_append, List.compare_cons_cons, hxy]
  rfl

end DiffersBelow

theorem toNat_lt (c : Char) : c.toNat < 0x110000 := by
  rcases c.valid with h | h
  · exact Nat.lt_trans h (by decide)
  · exact h.2

open DiffersBelow in
/-- **The form of a character grows with its number.** -/
theorem differsBelow_of_lt {c d : Char} (h : c.toNat < d.toNat) :
    DiffersBelow (String.utf8EncodeChar c) (String.utf8EncodeChar d) := by
  have hlt : c.val.toNat < d.val.toNat := h
  have hmax : d.val.toNat < 0x110000 := toNat_lt d
  unfold String.utf8EncodeChar
  generalize c.val.toNat = m at hlt ⊢
  generalize d.val.toNat = n at hlt hmax ⊢
  dsimp only
  -- the first byte of a longer form is greater; of forms of one length the digits are compared
  split_ifs with hm₁ hn₁ hn₂ hn₃ hm₂ hn₁ hn₂ hn₃ hm₃ hn₁ hn₂ hn₃ hn₁ hn₂ hn₃
  · exact of_lt (by omega) (by omega) (by omega)
  · exact of_lt (by omega) (by omega) (by omega)
  · exact of_lt (by omega) (by omega) (by omega)
  · exact of_lt (by omega) (by omega) (by omega)
  · omega
  · refine of_le (by omega) (by omega) (by omega) fun hlead => ?_
    exact of_lt (by omega) (by omega) (by omega)
  · exact of_lt (by omega) (by omega) (by omega)
  · exact of_lt (by omega) (by omega) (by omega)
  · omega
  · omega
  · refine of_le (by omega) (by omega) (by omega) fun hlead => ?_
    refine of_le (by omega) (by omega) (by omega) fun hsecond => ?_
    exact of_lt (by omega) (by omega) (by omega)
  · exact of_lt (by omega) (by omega) (by omega)
  · omega
  · omega
  · omega
  · refine of_le (by omega) (by omega) (by omega) fun hlead => ?_
    refine of_le (by omega) (by omega) (by omega) fun hsecond => ?_
    refine of_le (by omega) (by omega) (by omega) fun hthird => ?_
    exact of_lt (by omega) (by omega) (by omega)

/-! ### Texts -/

theorem bytes_cons (c : Char) (cs : List Char) :
    bytes (c :: cs) = String.utf8EncodeChar c ++ bytes cs := rfl

theorem exists_bytes_cons (c : Char) (cs : List Char) :
    ∃ b bs, bytes (c :: cs) = b :: bs := by
  obtain ⟨b, bs, hc⟩ := List.exists_cons_of_ne_nil (String.utf8EncodeChar_ne_nil (c := c))
  exact ⟨b, bs ++ bytes cs, by rw [bytes_cons, hc, List.cons_append]⟩

/-- **Texts compare by their bytes as by the numbers of their characters.** -/
theorem compare_bytes (xs ys : List Char) :
    compare (bytes xs) (bytes ys) = compare (xs.map Char.toNat) (ys.map Char.toNat) := by
  induction xs generalizing ys with
  | nil =>
    cases ys with
    | nil => rfl
    | cons d ys =>
      obtain ⟨b, bs, hbytes⟩ := exists_bytes_cons d ys
      rw [hbytes]
      rfl
  | cons c xs ih =>
    cases ys with
    | nil =>
      obtain ⟨b, bs, hbytes⟩ := exists_bytes_cons c xs
      rw [hbytes]
      rfl
    | cons d ys =>
      rw [bytes_cons, bytes_cons, List.map_cons, List.map_cons, List.compare_cons_cons]
      rcases Nat.lt_trichotomy c.toNat d.toNat with hlt | heq | hgt
      · rw [(differsBelow_of_lt hlt).compare_append, Nat.compare_eq_lt.2 hlt]
        rfl
      · obtain rfl := Char.toNat_inj.1 heq
        rw [compare_append_left, Std.compare_self, ih]
        rfl
      · have hbytes : compare (String.utf8EncodeChar c ++ bytes xs)
            (String.utf8EncodeChar d ++ bytes ys) = .gt :=
          Std.OrientedCmp.gt_of_lt ((differsBelow_of_lt hgt).compare_append _ _)
        rw [hbytes, Nat.compare_eq_gt.2 hgt]
        rfl

theorem byteLt_iff_codePoints {a b : String} :
    ByteLt a b ↔ compare (codePoints a) (codePoints b) = .lt := by
  rw [ByteLt, ← compare_eq_lt_iff_lt, compare_bytes]
  rfl

/-- Texts ascend by their bytes just if they ascend by their characters. -/
theorem Ascending.iff_codePoints {texts : List String} :
    Ascending texts ↔ texts.Pairwise fun a b => compare (codePoints a) (codePoints b) = .lt :=
  List.Pairwise.iff fun _ _ => byteLt_iff_codePoints

end CallHarvest.Text
