import CallHarvest.Path
import Mathlib.Tactic.SplitIfs

/-!
# Spellings of a path

A path may be written in many ways: separators may be repeated or stand at the end, and a dot that
is not the first part may stand for a part.  None of this changes how the path begins or its names.

* `named` — the parts that are names.
* `components` — how a path begins, and its names (`components_append_separator`).
* `Respelled` — other ways to write a path (`Respelled.components_eq`).
* `Trailing` — what may be written after a path (`Trailing.exists_voids`).
-/

namespace CallHarvest.Path

/-! ### Parts -/

theorem splitOn_append_separator (xs ys : List Char) :
    (xs ++ '/' :: ys).splitOn '/' = xs.splitOn '/' ++ ys.splitOn '/' :=
  List.splitOnP_append_cons xs ys (beq_self_eq_true '/')

theorem splitOn_eq_singleton {w : List Char} (h : '/' ∉ w) : w.splitOn '/' = [w] :=
  List.splitOnP_eq_singleton fun _ hc => beq_eq_false_iff_ne.2 fun he => h (he ▸ hc)

/-- A text begins with its first part. -/
theorem exists_splitOn_eq_cons (cs : List Char) :
    ∃ w parts, cs.splitOn '/' = w :: parts ∧
      (cs = w ∨ ∃ more, cs = w ++ '/' :: more) := by
  by_cases hsep : '/' ∈ cs
  · obtain ⟨w, more, rfl, hw⟩ := List.eq_append_cons_of_mem hsep
    refine ⟨w, more.splitOn '/', ?_, .inr ⟨more, rfl⟩⟩
    rw [splitOn_append_separator, splitOn_eq_singleton hw, List.singleton_append]
  · exact ⟨cs, [], splitOn_eq_singleton hsep, .inl rfl⟩

/-- The parts that are names. -/
def named (parts : List (List Char)) : List (List Char) :=
  parts.filter fun part => !isVoid part

@[simp] theorem named_append (xs ys : List (List Char)) : named (xs ++ ys) = named xs ++ named ys :=
  List.filter_append xs ys

theorem named_eq_nil_iff {parts : List (List Char)} :
    named parts = [] ↔ ∀ part ∈ parts, isVoid part := by
  simp [named, List.filter_eq_nil_iff]

/-! ### How a path begins -/

theorem lead_cons (c : Char) (cs : List Char) :
    lead (c :: cs) =
      if c = '/' then (.root, cs)
      else if c = '.' ∧ (cs = [] ∨ cs.head? = some '/') then (.here, cs)
      else (.bare, c :: cs) := by
  unfold lead
  split
  · simp_all
  · simp_all
  · simp_all
  · rename_i hroot hdot hhere
    have hc : c ≠ '/' := fun hc => hroot cs (by rw [hc])
    have hbare : ¬ (c = '.' ∧ (cs = [] ∨ cs.head? = some '/')) := by
      rintro ⟨rfl, rfl | hcs⟩
      · exact hdot rfl
      · obtain ⟨more, rfl⟩ := List.head?_eq_some_iff.1 hcs
        exact hhere more rfl
    rw [if_neg hc, if_neg hbare]

/-- What follows a separator has no part in how a path begins. -/
theorem lead_append_separator {u : List Char} (hu : u ≠ []) (v : List Char) :
    lead (u ++ '/' :: v) = ((lead u).1, (lead u).2 ++ '/' :: v) := by
  obtain ⟨c, cs, rfl⟩ := List.exists_cons_of_ne_nil hu
  have hnext : (cs ++ '/' :: v = [] ∨ (cs ++ '/' :: v).head? = some '/') ↔
      (cs = [] ∨ cs.head? = some '/') := by
    cases cs <;> simp
  rw [List.cons_append, lead_cons, lead_cons]
  simp only [hnext]
  split_ifs <;> rfl

/-! ### Components -/

/-- How a path begins, and its names. -/
def components (cs : List Char) : Lead × List (List Char) :=
  ((lead cs).1, named ((lead cs).2.splitOn '/'))

/-- How a path begins that goes on with a separator. -/
def leadBefore (cs : List Char) : Lead :=
  if cs = [] then .root else (lead cs).1

theorem components_append_separator (u v : List Char) :
    components (u ++ '/' :: v) =
      (leadBefore u, named ((lead u).2.splitOn '/') ++ named (v.splitOn '/')) := by
  by_cases hu : u = []
  · subst hu
    rfl
  · rw [components, lead_append_separator hu, splitOn_append_separator, named_append, leadBefore,
      if_neg hu]

/-- Only the empty path has neither a beginning nor names. -/
theorem eq_nil_of_components_eq {cs : List Char} (h : components cs = (.bare, [])) : cs = [] := by
  cases cs with
  | nil => rfl
  | cons c cs =>
    obtain ⟨hlead, hnames⟩ := Prod.mk.inj h
    rw [lead_cons] at hlead hnames
    split_ifs at hlead hnames with hroot hhere
    -- the first part is not empty, and it is not a dot
    exfalso
    obtain ⟨w, parts, hsplit, hw⟩ := exists_splitOn_eq_cons (c :: cs)
    have hvoid : isVoid w := by
      rw [hsplit, named_eq_nil_iff] at hnames
      exact hnames w List.mem_cons_self
    rw [isVoid, Bool.or_eq_true, beq_iff_eq, beq_iff_eq] at hvoid
    rcases hvoid with rfl | rfl
    · rcases hw with hw | ⟨more, hw⟩
      · exact absurd hw (List.cons_ne_nil c cs)
      · exact hroot (List.cons.inj hw).1
    · rcases hw with hw | ⟨more, hw⟩
      · exact hhere ⟨(List.cons.inj hw).1, .inl (List.cons.inj hw).2⟩
      · refine hhere ⟨(List.cons.inj hw).1, .inr ?_⟩
        rw [(List.cons.inj hw).2]
        rfl

/-! ### Other spellings -/

/-- Other ways to write a path: with more separators in a row, with a dot between separators, with a
separator at the end, or without them. -/
inductive Respelled : List Char → List Char → Prop
  | separator (u v : List Char) : Respelled (u ++ '/' :: v) (u ++ '/' :: '/' :: v)
  | dot (u v : List Char) : Respelled (u ++ '/' :: v) (u ++ '/' :: '.' :: '/' :: v)
  | trailing {u : List Char} : u ≠ [] → Respelled u (u ++ ['/'])
  | refl (u : List Char) : Respelled u u
  | symm {u v : List Char} : Respelled u v → Respelled v u
  | trans {u v w : List Char} : Respelled u v → Respelled v w → Respelled u w

/-- **Spellings of a path have the same components.** -/
theorem Respelled.components_eq {x y : List Char} (h : Respelled x y) :
    components x = components y := by
  induction h with
  | separator u v =>
    have hvoid : named (('/' :: v).splitOn '/') = named (v.splitOn '/') := by
      rw [← List.nil_append ('/' :: v), splitOn_append_separator]
      rfl
    rw [components_append_separator, components_append_separator, hvoid]
  | dot u v =>
    have hvoid : named (('.' :: '/' :: v).splitOn '/') = named (v.splitOn '/') := by
      rw [← List.singleton_append, splitOn_append_separator]
      rfl
    rw [components_append_separator, components_append_separator, hvoid]
  | @trailing u hu =>
    rw [components_append_separator, leadBefore, if_neg hu]
    simp [components, named, isVoid]
  | refl u => rfl
  | symm _ ih => exact ih.symm
  | trans _ _ ih ih' => exact ih.trans ih'

/-- Spellings of a path have the same characters, apart from separators and dots. -/
theorem Respelled.mem_iff {x y : List Char} (h : Respelled x y) {c : Char} (hslash : c ≠ '/')
    (hdot : c ≠ '.') : c ∈ x ↔ c ∈ y := by
  induction h with
  | separator u v => simp [hslash]
  | dot u v => simp [hslash, hdot]
  | trailing _ => simp [hslash]
  | refl u => rfl
  | symm _ ih => exact ih.symm
  | trans _ _ ih ih' => exact ih.trans ih'

/-! ### After a path -/

/-- What may be written after a path: separators, and dots after separators. -/
inductive Trailing : List Char → Prop
  | nil : Trailing []
  | separator {e : List Char} : Trailing e → Trailing (e ++ ['/'])
  | dot {e : List Char} : Trailing e → Trailing (e ++ ['/', '.'])

theorem Trailing.exists_voids {e : List Char} (h : Trailing e) :
    ∃ voids, (∀ part ∈ voids, isVoid part) ∧
      ∀ x : List Char, (x ++ e).splitOn '/' = x.splitOn '/' ++ voids := by
  induction h with
  | nil => exact ⟨[], by simp, by simp⟩
  | separator _ ih =>
    obtain ⟨voids, hvoids, hsplit⟩ := ih
    refine ⟨voids ++ [[]], by simpa [or_imp, forall_and] using ⟨hvoids, rfl⟩, ?_⟩
    intro x
    rw [← List.append_assoc, splitOn_append_separator, hsplit, List.append_assoc]
    rfl
  | dot _ ih =>
    obtain ⟨voids, hvoids, hsplit⟩ := ih
    refine ⟨voids ++ [['.']], by simpa [or_imp, forall_and] using ⟨hvoids, rfl⟩, ?_⟩
    intro x
    rw [← List.append_assoc, splitOn_append_separator, hsplit, List.append_assoc]
    rfl

theorem Trailing.lead_append {e : List Char} (h : Trailing e) {x : List Char} (hx : x ≠ []) :
    lead (x ++ e) = ((lead x).1, (lead x).2 ++ e) := by
  induction h with
  | nil => simp
  | @separator e _ ih =>
    rw [← List.append_assoc, lead_append_separator (List.append_ne_nil_of_left_ne_nil hx e), ih,
      List.append_assoc]
  | @dot e _ ih =>
    rw [← List.append_assoc, lead_append_separator (List.append_ne_nil_of_left_ne_nil hx e), ih,
      List.append_assoc]

theorem Trailing.mem {e : List Char} (h : Trailing e) {c : Char} (hc : c ∈ e) :
    c = '/' ∨ c = '.' := by
  induction h with
  | nil => exact absurd hc List.not_mem_nil
  | separator _ ih =>
    rcases List.mem_append.1 hc with hc | hc
    · exact ih hc
    · exact .inl (List.mem_singleton.1 hc)
  | dot _ ih =>
    rcases List.mem_append.1 hc with hc | hc
    · exact ih hc
    · simpa using hc

end CallHarvest.Path
