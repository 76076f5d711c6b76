/-!
# Places in a list

A matcher keeps all places in a list that it may have come to.  They are moved on together, so that
a step costs no more than the length of the list, however many places there are.

* `Places` — a set of places.
* `Places.rests` — what follows the places; the other operations are described by it.
* `Places.union`, `Places.step`, `Places.spread` — places of two sets, places one element further
  on, and places that are any number of elements further on.
-/

namespace CallHarvest

/-- A set of places in a list: whether the place before each element belongs to it, and the place
at the end.  Places that are not told of do not belong to it. -/
abbrev Places : Type := List Bool

namespace Places

variable {α : Type}

/-- What follows the places in a list. -/
def rests : Places → List α → List (List α)
  | [], _ => []
  | m :: _, [] => if m then [[]] else []
  | m :: ms, a :: as => (if m then [a :: as] else []) ++ rests ms as

/-- The place at the beginning. -/
def start : Places := [true]

/-- Whether the end of a list is among the places. -/
def hasEnd (as : List α) (ps : Places) : Bool :=
  ps[as.length]?.getD false

/-- The places of two sets. -/
def union : Places → Places → Places
  | [], qs => qs
  | ps, [] => ps
  | p :: ps, q :: qs => (p || q) :: union ps qs

/-- The places after one element that suits. -/
def step (suits : α → Bool) (as : List α) (ps : Places) : Places :=
  false :: List.zipWith (fun a m => m && suits a) as ps

/-- The places after any number of elements that suit, also from the beginning if `carried` says
so. -/
def spreadFrom (suits : α → Bool) (carried : Bool) : List α → Places → Places
  | [], ps => [carried || ps.headD false]
  | a :: as, ps =>
    (carried || ps.headD false) ::
      spreadFrom suits ((carried || ps.headD false) && suits a) as ps.tail

/-- The places after any number of elements that suit. -/
def spread (suits : α → Bool) (as : List α) (ps : Places) : Places :=
  spreadFrom suits false as ps

/-! ### What follows -/

theorem rests_start (as : List α) : rests start as = [as] := by
  cases as <;> rfl

theorem mem_rests_nil {rest : List α} {ps : Places} :
    rest ∈ ps.rests [] ↔ ps.headD false = true ∧ rest = [] := by
  cases ps with
  | nil => simp [rests]
  | cons m ms => cases m <;> simp [rests]

theorem mem_rests_cons {a : α} {as rest : List α} {ps : Places} :
    rest ∈ ps.rests (a :: as) ↔
      (ps.headD false = true ∧ rest = a :: as) ∨ rest ∈ rests ps.tail as := by
  cases ps with
  | nil => simp [rests]
  | cons m ms => cases m <;> simp [rests]

theorem nil_mem_rests_iff {as : List α} {ps : Places} :
    [] ∈ ps.rests as ↔ ps.hasEnd as = true := by
  induction as generalizing ps with
  | nil => cases ps with
    | nil => simp [rests, hasEnd]
    | cons m ms => cases m <;> simp [rests, hasEnd]
  | cons a as ih =>
    cases ps with
    | nil => simp [rests, hasEnd]
    | cons m ms => cases m <;> simp [rests, hasEnd, ih]

theorem mem_rests_union {as rest : List α} {ps qs : Places} :
    rest ∈ (ps.union qs).rests as ↔ rest ∈ ps.rests as ∨ rest ∈ qs.rests as := by
  induction ps generalizing qs as with
  | nil => simp [union, rests]
  | cons p ps ih =>
    cases qs with
    | nil => simp [union, rests]
    | cons q qs =>
      cases as with
      | nil => cases p <;> cases q <;> simp [union, rests]
      | cons a as =>
        rw [union, rests, rests, rests, List.mem_append, List.mem_append, List.mem_append, ih]
        cases p <;> cases q <;> grind

theorem mem_rests_zipWith {suits : α → Bool} {a : α} {as rest : List α} {ps : Places} :
    rest ∈ rests (List.zipWith (fun a m => m && suits a) (a :: as) ps) as ↔
      ∃ b, suits b = true ∧ b :: rest ∈ ps.rests (a :: as) := by
  induction as generalizing a ps with
  | nil =>
    cases ps with
    | nil => simp [rests]
    | cons m ms =>
      simp only [List.zipWith_cons_cons, mem_rests_nil, mem_rests_cons, List.headD_cons]
      grind
  | cons c cs ih =>
    cases ps with
    | nil => simp [rests]
    | cons m ms =>
      rw [List.zipWith_cons_cons, rests, List.mem_append, ih, rests]
      cases m <;> grind

theorem mem_rests_step {suits : α → Bool} {as rest : List α} {ps : Places} :
    rest ∈ (ps.step suits as).rests as ↔ ∃ a, suits a = true ∧ a :: rest ∈ ps.rests as := by
  cases as with
  | nil => cases ps with
    | nil => simp [step, rests]
    | cons m ms => cases m <;> simp [step, rests]
  | cons a as =>
    rw [step, rests]
    exact mem_rests_zipWith

/-- The rests of a list after elements that suit. -/
theorem exists_append_eq_cons {suits : α → Bool} {a : α} {as rest : List α} :
    (∃ w, w ++ rest = a :: as ∧ ∀ x ∈ w, suits x = true) ↔
      rest = a :: as ∨ (suits a = true ∧ ∃ w, w ++ rest = as ∧ ∀ x ∈ w, suits x = true) := by
  constructor
  · intro h
    obtain ⟨w, hw, hs⟩ := h
    cases w with
    | nil => exact .inl hw
    | cons b w =>
      obtain ⟨rfl, htail⟩ := List.cons.inj (List.cons_append.symm.trans hw)
      exact .inr ⟨hs b List.mem_cons_self, w, htail, fun x hx => hs x (List.mem_cons_of_mem b hx)⟩
  · intro h
    rcases h with h | ⟨ha, w, hw, hs⟩
    · exact ⟨[], h, by simp⟩
    · exact ⟨a :: w, by rw [List.cons_append, hw], by simpa [ha] using hs⟩

theorem mem_rests_spreadFrom {suits : α → Bool} {carried : Bool} {as rest : List α}
    {ps : Places} :
    rest ∈ (spreadFrom suits carried as ps).rests as ↔
      (carried = true ∧ ∃ w, w ++ rest = as ∧ ∀ a ∈ w, suits a = true) ∨
        ∃ w, w ++ rest ∈ ps.rests as ∧ ∀ a ∈ w, suits a = true := by
  induction as generalizing carried ps with
  | nil =>
    have hnil : (∃ w : List α, w ++ rest = [] ∧ ∀ a ∈ w, suits a = true) ↔ rest = [] :=
      ⟨fun ⟨w, hw, _⟩ => (List.append_eq_nil_iff.1 hw).2, fun h => ⟨[], h, by simp⟩⟩
    simp only [mem_rests_nil, and_assoc, exists_and_left, hnil]
    cases carried <;> simp [spreadFrom]
  | cons a as ih =>
    simp only [mem_rests_cons, or_and_right, exists_or, and_assoc, exists_and_left,
      exists_append_eq_cons]
    rw [spreadFrom, List.headD_cons, List.tail_cons, ih]
    cases carried <;> cases ps.headD false <;> grind

theorem mem_rests_spread {suits : α → Bool} {as rest : List α} {ps : Places} :
    rest ∈ (ps.spread suits as).rests as ↔
      ∃ w, w ++ rest ∈ ps.rests as ∧ ∀ a ∈ w, suits a = true := by
  simp [spread, mem_rests_spreadFrom]

end Places

end CallHarvest
