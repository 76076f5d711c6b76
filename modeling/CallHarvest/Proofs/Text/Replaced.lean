import CallHarvest.Proofs.Text.Cuts
import CallHarvest.Text.Parts

/-!
# Replacing a part of a text

One occurrence of a part of a text is replaced by another text, wherever it is.  When the text is
put together from others, the occurrence lies in one of them, unless it has a character in common
with what stands between them.

* `Replaced part new cs ds` — `ds` is `cs` with one occurrence of `part` replaced by `new`.
* `Replaced.append_cons_cases` — an occurrence before a character, after it, or across it.
* `Replaced.append_cons`, `Replaced.of_append` — what stands between is not in the part.
* `replaceFirst?_eq_some_iff`, `replaceFirst?_eq_none_iff` — the first occurrence.
-/

namespace CallHarvest.Text

variable {α : Type} {part new cs ds : List α}

/-- A text and the same text with one occurrence of a part replaced. -/
def Replaced (part new cs ds : List α) : Prop :=
  ∃ u v, cs = u ++ (part ++ v) ∧ ds = u ++ (new ++ v)

namespace Replaced

theorem mk (u v : List α) : Replaced part new (u ++ (part ++ v)) (u ++ (new ++ v)) :=
  ⟨u, v, rfl, rfl⟩

theorem append_right (h : Replaced part new cs ds) (x : List α) :
    Replaced part new (cs ++ x) (ds ++ x) := by
  obtain ⟨u, v, rfl, rfl⟩ := h
  exact ⟨u, v ++ x, by simp, by simp⟩

theorem mem_of_mem_part (h : Replaced part new cs ds) {c : α} (hc : c ∈ part) : c ∈ cs := by
  obtain ⟨u, v, rfl, -⟩ := h
  exact List.mem_append_right u (List.mem_append_left v hc)

theorem mem_of_mem_new (h : Replaced part new cs ds) {c : α} (hc : c ∈ new) : c ∈ ds := by
  obtain ⟨u, v, -, rfl⟩ := h
  exact List.mem_append_right u (List.mem_append_left v hc)

theorem not_nil (hne : part ≠ []) : ¬ Replaced part new [] ds := by
  intro h
  obtain ⟨c, part, rfl⟩ := List.exists_cons_of_ne_nil hne
  exact List.not_mem_nil (h.mem_of_mem_part List.mem_cons_self)

/-! ### Where an occurrence is -/

/-- **An occurrence lies before a character, after it, or across it.** -/
theorem append_cons_cases {a b w : List α} {s : α} (h : Replaced part new (a ++ s :: b) w) :
    (∃ a', Replaced part new a a' ∧ w = a' ++ s :: b) ∨
      (∃ b', Replaced part new b b' ∧ w = a ++ s :: b') ∨
        ∃ p q, part = p ++ s :: q ∧ p <:+ a := by
  obtain ⟨u, v, hcs, rfl⟩ := h
  rcases append_eq_append_cases hcs with ⟨e, rfl, hpart⟩ | ⟨e, he, rfl, hb⟩
  · rcases append_eq_append_cases hpart with ⟨f, rfl, hb⟩ | ⟨f, hf, rfl, rfl⟩
    · cases f with
      | nil => exact Or.inl ⟨u ++ new, ⟨u, [], by simp, by simp⟩, by simp [hb]⟩
      | cons d f =>
        obtain ⟨rfl, -⟩ := List.cons.inj hb
        exact Or.inr (Or.inr ⟨e, f, rfl, List.suffix_append u e⟩)
    · exact Or.inl ⟨u ++ (new ++ f), mk u f, by simp⟩
  · obtain ⟨d, e, rfl⟩ := List.exists_cons_of_ne_nil he
    obtain ⟨rfl, rfl⟩ := List.cons.inj hb
    exact Or.inr (Or.inl ⟨e ++ (new ++ v), mk e v, by simp⟩)

/-- An occurrence is on one side of a character that is not in the part. -/
theorem append_cons {a b w : List α} {s : α} (hs : s ∉ part)
    (h : Replaced part new (a ++ s :: b) w) :
    (∃ a', Replaced part new a a' ∧ w = a' ++ s :: b) ∨
      ∃ b', Replaced part new b b' ∧ w = a ++ s :: b' := by
  rcases h.append_cons_cases with h | h | ⟨p, q, rfl, -⟩
  · exact Or.inl h
  · exact Or.inr h
  · exact absurd (List.mem_append_right p List.mem_cons_self) hs

/-- An occurrence is after a text that has no character in common with the part. -/
theorem of_append (hne : part ≠ []) {x w : List α} (hx : ∀ c ∈ x, c ∉ part)
    (h : Replaced part new (x ++ cs) w) : ∃ ds, Replaced part new cs ds ∧ w = x ++ ds := by
  induction x generalizing w with
  | nil => exact ⟨w, h, rfl⟩
  | cons c x ih =>
    rcases append_cons (a := []) (hx c List.mem_cons_self) h with ⟨_, hnil, -⟩ | ⟨w', hw, rfl⟩
    · exact absurd hnil (not_nil hne)
    · obtain ⟨ds, hds, rfl⟩ := ih (fun d hd => hx d (List.mem_cons_of_mem c hd)) hw
      exact ⟨ds, hds, rfl⟩

end Replaced

/-! ### The first occurrence -/

/-- **Which occurrence is replaced**: the one that has the least text in front of it. -/
theorem replaceFirst?_eq_some_iff {part new cs ds : List Char} :
    replaceFirst? part new cs = some ds ↔
      ∃ u v, cs = u ++ (part ++ v) ∧ ds = u ++ (new ++ v) ∧
        ∀ x y, cs = x ++ (part ++ y) → u.length ≤ x.length := by
  induction cs generalizing ds with
  | nil =>
    rw [replaceFirst?]
    constructor
    · intro h
      split at h
      · rename_i hpart
        obtain rfl := Option.some.inj h
        exact ⟨[], [], by simp [hpart], by simp, fun x _ _ => Nat.zero_le x.length⟩
      · simp at h
    · intro h
      obtain ⟨u, v, hu, rfl, -⟩ := h
      obtain ⟨rfl, rfl, rfl⟩ : u = [] ∧ part = [] ∧ v = [] := by simpa using hu.symm
      simp
  | cons c cs ih =>
    rw [replaceFirst?]
    cases hafter : after? part (c :: cs) with
    | some rest =>
      have hcs := after?_eq_some_iff.1 hafter
      constructor
      · intro h
        obtain rfl := Option.some.inj h
        exact ⟨[], rest, hcs, rfl, fun x y _ => Nat.zero_le x.length⟩
      · intro h
        obtain ⟨u, v, hu, rfl, hfirst⟩ := h
        obtain rfl := List.eq_nil_of_length_eq_zero (Nat.le_zero.1 (hfirst [] rest hcs))
        rw [List.append_cancel_left (hcs.symm.trans hu)]
        rfl
    | none =>
      have hno : ∀ v, c :: cs ≠ part ++ v := by
        intro v hv
        rw [after?_eq_some_iff.2 hv] at hafter
        exact absurd hafter (by simp)
      constructor
      · intro h
        obtain ⟨ds, hds, rfl⟩ := Option.map_eq_some_iff.1 h
        obtain ⟨u, v, rfl, rfl, hfirst⟩ := ih.1 hds
        refine ⟨c :: u, v, rfl, rfl, ?_⟩
        intro x y hxy
        cases x with
        | nil => exact absurd hxy (hno y)
        | cons d x => exact Nat.succ_le_succ (hfirst x y (List.cons.inj hxy).2)
      · intro h
        obtain ⟨u, v, hu, rfl, hfirst⟩ := h
        cases u with
        | nil => exact absurd hu (hno v)
        | cons d u =>
          obtain ⟨rfl, rfl⟩ := List.cons.inj hu
          have hds := ih.2 ⟨u, v, rfl, rfl, fun x y hxy =>
            Nat.le_of_succ_le_succ (hfirst (c :: x) y (congrArg (c :: ·) hxy))⟩
          exact Option.map_eq_some_iff.2 ⟨_, hds, rfl⟩

theorem replaceFirst?_eq_none_iff {part new cs : List Char} :
    replaceFirst? part new cs = none ↔ ¬ part <:+: cs := by
  induction cs with
  | nil => simp [replaceFirst?]
  | cons c cs ih =>
    rw [replaceFirst?, List.infix_cons_iff, not_or, ← ih]
    cases hafter : after? part (c :: cs) with
    | some rest =>
      have hbegins : part <+: c :: cs := ⟨rest, (after?_eq_some_iff.1 hafter).symm⟩
      simp [hbegins]
    | none =>
      have hbegins : ¬ part <+: c :: cs := by
        intro h
        obtain ⟨rest, hrest⟩ := h
        rw [after?_eq_some_iff.2 hrest.symm] at hafter
        exact absurd hafter (by simp)
      simp [hbegins]

end CallHarvest.Text
