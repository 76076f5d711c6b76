import CallHarvest.Proofs.Call.Shortest
import CallHarvest.Call.Find

/-!
# Calls as words

A call is a head, in one of its two spellings, and the arguments after it.  This file says so of
texts, and ties the steps of the search to it.

* `IsHead` — the two spellings of a head (`afterHead?_append`, `exists_of_afterHead?`).
* `CallWord` — a head and arguments from a given language.
* `call?` — reads a call (`readsShortest_call?`).
* `findFrom_of_call?` — where a call is read, the search reports it and goes on after it.
* `findFrom_of_no_head`, `findFrom_of_rejected` — where none is read, it goes on after a character
  or, in the balanced reading, after a head.
* `prefix_throughLastParen` — the part of a source that is searched holds all its calls.
-/

namespace CallHarvest.Call

open CallHarvest.Text (after? after?_eq_some_iff before before_append_right byteLength
  prefix_of_prefix_append)

/-- The two spellings of the part of a call up to its opening parenthesis. -/
def IsHead (shape : Shape) (h : List Char) : Prop :=
  h = head bareName shape ∨ h = head wrappedName shape

theorem IsHead.ne_nil {shape : Shape} {h : List Char} (hh : IsHead shape h) : h ≠ [] := by
  rcases hh with rfl | rfl <;> simp [head]

theorem afterHead?_append {shape : Shape} {h : List Char} (hh : IsHead shape h) (cs : List Char) :
    afterHead? shape (h ++ cs) = some cs := by
  rcases hh with rfl | rfl
  · have hnone : after? (head wrappedName shape) (head bareName shape ++ cs) = none := by
      simp [head, wrappedName, bareName, after?]
    rw [afterHead?, hnone, Option.none_or]
    exact after?_eq_some_iff.2 rfl
  · rw [afterHead?, after?_eq_some_iff.2 rfl, Option.some_or]

theorem exists_of_afterHead? {shape : Shape} {cs body : List Char}
    (hb : afterHead? shape cs = some body) : ∃ h, IsHead shape h ∧ cs = h ++ body := by
  rcases Option.or_eq_some_iff.1 hb with hw | ⟨_, hw⟩
  · exact ⟨_, Or.inr rfl, after?_eq_some_iff.1 hw⟩
  · exact ⟨_, Or.inl rfl, after?_eq_some_iff.1 hw⟩

/-! ### Reading a call -/

/-- A head and arguments that are a word of `L`. -/
def CallWord (shape : Shape) (L : List Char → Prop) (w : List Char) : Prop :=
  ∃ h args, IsHead shape h ∧ L args ∧ w = h ++ args

/-- Reads a call at a place. -/
def call? (mode : Mode) (shape : Shape) (cs : List Char) : Option (List Char) :=
  (afterHead? shape cs).bind (arguments? mode shape)

theorem readsShortest_call? {mode : Mode} {shape : Shape} {L : List Char → Prop}
    (hr : ReadsShortest (arguments? mode shape) L) :
    ReadsShortest (call? mode shape) (CallWord shape L) where
  sound cs rest h := by
    obtain ⟨body, hb, ha⟩ := Option.bind_eq_some_iff.1 h
    obtain ⟨hd, hh, rfl⟩ := exists_of_afterHead? hb
    obtain ⟨args, hargs, rfl⟩ := hr.sound body rest ha
    exact ⟨hd ++ args, ⟨hd, args, hh, hargs, rfl⟩, by rw [List.append_assoc]⟩
  reads w more := by
    intro h
    obtain ⟨hd, args, hh, hargs, rfl⟩ := h
    rw [List.append_assoc, call?, afterHead?_append hh]
    exact hr.reads args more hargs

/-! ### Steps of the search -/

theorem attempt_of_call? {mode : Mode} {shape : Shape} {c : Char} {cs rest : List Char}
    (h : call? mode shape (c :: cs) = some rest) :
    attempt mode shape c cs = .complete (before (c :: cs) rest) rest := by
  obtain ⟨body, hb, ha⟩ := Option.bind_eq_some_iff.1 h
  simp only [attempt, hb, ha]

theorem attempt_lazy_of_no_call? {shape : Shape} {c : Char} {cs : List Char}
    (h : call? .lazy shape (c :: cs) = none) : attempt .lazy shape c cs = .passed [c] cs := by
  cases hb : afterHead? shape (c :: cs) with
  | none => simp only [attempt, hb]
  | some body =>
    have ha : arguments? .lazy shape body = none := by
      rw [call?, hb] at h
      exact h
    simp only [attempt, hb, ha]

theorem findFrom_of_passed {mode : Mode} {shape : Shape} {start : Nat} {c : Char}
    {cs skipped rest : List Char} (h : attempt mode shape c cs = .passed skipped rest) :
    findFrom mode shape start (c :: cs) =
      findFrom mode shape (start + byteLength skipped) rest := by
  rw [findFrom]
  split
  · rename_i he
    rw [h] at he
    exact absurd he (by simp)
  · rename_i he
    rw [h] at he
    obtain ⟨rfl, rfl⟩ := Attempt.passed.inj he
    rfl

theorem findFrom_of_no_head {mode : Mode} {shape : Shape} {start : Nat} {c : Char} {cs : List Char}
    (h : afterHead? shape (c :: cs) = none) :
    findFrom mode shape start (c :: cs) = findFrom mode shape (start + c.utf8Size) cs := by
  have hattempt : attempt mode shape c cs = .passed [c] cs := by simp only [attempt, h]
  exact findFrom_of_passed hattempt

/-- In the balanced reading a head without complete arguments is passed. -/
theorem findFrom_of_rejected {shape : Shape} {start : Nat} {h body : List Char}
    (hh : IsHead shape h) (hbody : arguments? .balanced shape body = none) :
    findFrom .balanced shape start (h ++ body) =
      findFrom .balanced shape (start + byteLength h) body := by
  obtain ⟨c, cs, rfl⟩ := List.exists_cons_of_ne_nil hh.ne_nil
  have hafter := afterHead?_append hh body
  have hattempt : attempt .balanced shape c (cs ++ body) = .passed (c :: cs) body := by
    rw [List.cons_append] at hafter
    simp only [attempt, hafter, hbody]
    rw [← List.cons_append, before_append_right]
  exact findFrom_of_passed hattempt

/-- **A call that is read is reported.**  The search goes on after it. -/
theorem findFrom_of_call? {mode : Mode} {shape : Shape} {start : Nat} {w rest : List Char}
    (hne : w ≠ []) (h : call? mode shape (w ++ rest) = some rest) :
    findFrom mode shape start (w ++ rest) =
      ⟨shape, String.ofList w, start, start + byteLength w⟩ ::
        findFrom mode shape (start + byteLength w) rest := by
  obtain ⟨c, cs, rfl⟩ := List.exists_cons_of_ne_nil hne
  rw [List.cons_append] at h ⊢
  have ha : attempt mode shape c (cs ++ rest) = .complete (c :: cs) rest := by
    rw [attempt_of_call? h, ← List.cons_append, before_append_right]
  rw [findFrom]
  split
  · rename_i he
    rw [ha] at he
    obtain ⟨rfl, rfl⟩ := Attempt.complete.inj he
    rfl
  · rename_i he
    rw [ha] at he
    exact absurd he (by simp)

/-- What is reported of a text begins in it. -/
theorem le_start_of_mem_findFrom {mode : Mode} {shape : Shape} {start : Nat} {cs : List Char}
    {m : Match} (h : m ∈ findFrom mode shape start cs) : start ≤ m.start := by
  fun_induction findFrom mode shape start cs with
  | case1 => simp at h
  | case2 start c cs call rest _ stop ih =>
    rcases List.mem_cons.1 h with rfl | h
    · exact Nat.le_refl start
    · exact Nat.le_trans (Nat.le_add_right start _) (ih h)
  | case3 start c cs skipped rest _ ih => exact Nat.le_trans (Nat.le_add_right start _) (ih h)

/-! ### The part that is searched -/

/-- What is searched of a source holds every beginning of it that ends with a parenthesis. -/
theorem prefix_throughLastParen {x cs : List Char} (h : x ++ [')'] <+: cs) :
    x ++ [')'] <+: throughLastParen cs := by
  obtain ⟨junk, hjunk, hparen⟩ := throughLastParen_append cs
  exact prefix_of_prefix_append hparen (hjunk.symm ▸ h)

end CallHarvest.Call
