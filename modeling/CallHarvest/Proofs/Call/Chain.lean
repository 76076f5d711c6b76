import CallHarvest.Proofs.Call.Head
import Mathlib.Algebra.Group.Nat.Even

/-!
# Chains of heads

The parenthesis that ends a head may be the one that begins a wrapped head.  Heads that share their
parentheses in this way form a chain, as the three in `Drupal.t(Drupal).t(Drupal).t(` do.  A search
that passes a whole head at a time sees every other head of a chain.

* `stem` — a head without its parenthesis.
* `chained` — how many heads of a chain end with a text, if its last head ends right after it.
* `eq_of_overlap` — heads overlap in no other way.
* `chained_append`, `even_chained_head_append` — what a text in front does to a chain.
-/

namespace CallHarvest.Call

open CallHarvest.Text (before before_append_right suffix_append_cases)

/-- A head without its parenthesis. -/
def stem (name : String) (shape : Shape) : List Char :=
  name.toList ++ '.' :: shape.method.toList

theorem head_eq_stem_append (name : String) (shape : Shape) :
    head name shape = stem name shape ++ ['('] := rfl

theorem length_lt_append_stem (name : String) (shape : Shape) (u : List Char) :
    u.length < (u ++ stem name shape).length := by
  rw [List.length_append, stem, List.length_append, List.length_cons]
  omega

/-- The number of heads in the chain at the end of a text.  The last of them ends with the
parenthesis after the text, and each begins with the one that ends the head before it. -/
def chained (shape : Shape) (cs : List Char) : Nat :=
  if stem bareName shape <:+ cs then 1
  else if _linked : stem wrappedName shape <:+ cs then
    chained shape (before cs (stem wrappedName shape)) + 1
  else 0
termination_by cs.length
decreasing_by
  obtain ⟨u, rfl⟩ := _linked
  rw [before_append_right]
  exact length_lt_append_stem wrappedName shape u

theorem not_stem_bare_suffix (shape : Shape) (u : List Char) :
    ¬ stem bareName shape <:+ u ++ stem wrappedName shape := by
  intro h
  have hlast : stem bareName shape <:+ stem wrappedName shape := by
    rcases List.suffix_or_suffix_of_suffix h (List.suffix_append u _) with h | h
    · exact h
    · exact absurd h.length_le (by cases shape <;> decide)
  revert hlast
  cases shape <;> decide

theorem chained_nil (shape : Shape) : chained shape [] = 0 := by
  rw [chained, if_neg (by cases shape <;> decide), dif_neg (by cases shape <;> decide)]

theorem chained_bare (shape : Shape) (u : List Char) :
    chained shape (u ++ stem bareName shape) = 1 := by
  rw [chained, if_pos (List.suffix_append u _)]

theorem chained_wrapped (shape : Shape) (u : List Char) :
    chained shape (u ++ stem wrappedName shape) = chained shape u + 1 := by
  rw [chained, if_neg (not_stem_bare_suffix shape u), dif_pos (List.suffix_append u _),
    before_append_right]

theorem chained_eq_zero {shape : Shape} {cs : List Char} (hbare : ¬ stem bareName shape <:+ cs)
    (hwrapped : ¬ stem wrappedName shape <:+ cs) : chained shape cs = 0 := by
  rw [chained, if_neg hbare, dif_neg hwrapped]

/-- The three ways in which a text may end. -/
theorem chained_cases (shape : Shape) (cs : List Char) :
    (∃ u, cs = u ++ stem bareName shape) ∨ (∃ u, cs = u ++ stem wrappedName shape) ∨
      (¬ stem bareName shape <:+ cs ∧ ¬ stem wrappedName shape <:+ cs) := by
  by_cases hbare : stem bareName shape <:+ cs
  · obtain ⟨u, rfl⟩ := hbare
    exact Or.inl ⟨u, rfl⟩
  · by_cases hwrapped : stem wrappedName shape <:+ cs
    · obtain ⟨u, rfl⟩ := hwrapped
      exact Or.inr (Or.inl ⟨u, rfl⟩)
    · exact Or.inr (Or.inr ⟨hbare, hwrapped⟩)

theorem chained_stem {shape : Shape} {s : List Char} (hs : IsHead shape (s ++ ['('])) :
    chained shape s = 1 := by
  rcases hs with h | h
  · rw [List.append_cancel_right (h.trans (head_eq_stem_append bareName shape)),
      ← List.nil_append (stem bareName shape), chained_bare]
  · rw [List.append_cancel_right (h.trans (head_eq_stem_append wrappedName shape)),
      ← List.nil_append (stem wrappedName shape), chained_wrapped, chained_nil]

/-! ### How heads overlap -/

/-- **Two heads share no more than a parenthesis.**  If a head begins inside another, at one of its
characters after the first, then at its parenthesis, and it is a wrapped one. -/
theorem eq_of_overlap {shape : Shape} {h h' s t x y : List Char} (hh : IsHead shape h)
    (hh' : IsHead shape h') (hst : h = s ++ t) (hs : s ≠ []) (ht : t ≠ [])
    (hxy : h' ++ x = t ++ y) : t = ['('] ∧ h' = head wrappedName shape := by
  have key : ∀ a ∈ [head bareName shape, head wrappedName shape],
      ∀ b ∈ [head bareName shape, head wrappedName shape], ∀ k < a.length, 0 < k →
        (b <+: a.drop k ∨ a.drop k <+: b) → a.drop k = ['('] ∧ b = head wrappedName shape := by
    cases shape <;> decide
  have hmem : ∀ {a}, IsHead shape a → a ∈ [head bareName shape, head wrappedName shape] := by
    intro a ha
    rcases ha with rfl | rfl <;> simp
  have hdrop : h.drop s.length = t := by rw [hst, List.drop_left]
  have hlen : s.length < h.length := by
    have hpos := List.length_pos_iff.2 ht
    rw [hst, List.length_append]
    omega
  have hcomp : h' <+: h.drop s.length ∨ h.drop s.length <+: h' := by
    rw [hdrop]
    exact List.prefix_or_prefix_of_prefix (List.prefix_append h' x) (hxy ▸ List.prefix_append t y)
  have hend := key h (hmem hh) h' (hmem hh') s.length hlen (List.length_pos_iff.2 hs) hcomp
  rwa [hdrop] at hend

/-! ### Text in front of a chain -/

/-- **Text in front does not lengthen a chain**, if no head reaches from it into what follows. -/
theorem chained_append {shape : Shape} {a cs : List Char}
    (h : ∀ name u, (name = bareName ∨ name = wrappedName) → u ++ ['('] <+: cs ++ ['('] →
      stem name shape <:+ a ++ u → stem name shape <:+ u) :
    chained shape (a ++ cs) = chained shape cs := by
  induction hn : cs.length using Nat.strongRecOn generalizing cs with
  | ind n ih =>
    subst hn
    rcases chained_cases shape cs with ⟨u, rfl⟩ | ⟨u, rfl⟩ | ⟨hbare, hwrapped⟩
    · rw [← List.append_assoc, chained_bare, chained_bare]
    · have hu : chained shape (a ++ u) = chained shape u := by
        refine ih u.length (length_lt_append_stem _ _ u) ?_ rfl
        intro name v hname hv
        refine h name v hname (hv.trans ?_)
        rw [List.append_assoc, List.prefix_append_right_inj]
        cases shape <;> exact List.prefix_append _ _
      rw [← List.append_assoc, chained_wrapped, chained_wrapped, hu]
    · have hbare' : ¬ stem bareName shape <:+ a ++ cs := fun hs =>
        hbare (h bareName cs (Or.inl rfl) List.prefix_rfl hs)
      have hwrapped' : ¬ stem wrappedName shape <:+ a ++ cs := fun hs =>
        hwrapped (h wrappedName cs (Or.inr rfl) List.prefix_rfl hs)
      rw [chained_eq_zero hbare hwrapped, chained_eq_zero hbare' hwrapped']

theorem paren_not_mem_stem_bare (shape : Shape) : '(' ∉ stem bareName shape := by
  cases shape <;> decide

/-- Only the first character of a wrapped head is an opening parenthesis, its last one apart. -/
theorem eq_nil_of_stem_wrapped {shape : Shape} {t cs : List Char}
    (h : stem wrappedName shape = t ++ '(' :: cs) : t = [] := by
  have htail : '(' ∉ (stem wrappedName shape).tail := by cases shape <;> decide
  cases t with
  | nil => rfl
  | cons b t =>
    rw [h] at htail
    exact absurd (by simp) htail

/-- **A head in front of a chain** adds no head to it, or two: itself and one that it shares its
parenthesis with. -/
theorem even_chained_head_append {shape : Shape} {h : List Char} (hh : IsHead shape h)
    (cs : List Char) : Even (chained shape (h ++ cs)) ↔ Even (chained shape cs) := by
  obtain ⟨s, rfl⟩ : ∃ s, h = s ++ ['('] := by
    rcases hh with rfl | rfl
    · exact ⟨_, head_eq_stem_append bareName shape⟩
    · exact ⟨_, head_eq_stem_append wrappedName shape⟩
  induction hn : cs.length using Nat.strongRecOn generalizing cs with
  | ind n ih =>
    subst hn
    rcases chained_cases shape cs with ⟨u, rfl⟩ | ⟨u, rfl⟩ | ⟨hbare, hwrapped⟩
    · rw [← List.append_assoc, chained_bare, chained_bare]
    · have hu := ih u.length (length_lt_append_stem _ _ u) u rfl
      rw [← List.append_assoc, chained_wrapped, chained_wrapped, Nat.even_add_one,
        Nat.even_add_one, hu]
    · rw [chained_eq_zero hbare hwrapped]
      -- the part of the head that a stem may reach into ends with a parenthesis
      have hreach : ∀ name, ¬ stem name shape <:+ cs → stem name shape <:+ s ++ ['('] ++ cs →
          ∃ t, stem name shape = t ++ '(' :: cs := by
        intro name hno hs
        rcases suffix_append_cases hs with hcs | ⟨x, hne, hx, he⟩
        · exact absurd hcs hno
        · rcases List.suffix_concat_iff.1 hx with hnil | ⟨t, rfl, _⟩
          · exact absurd hnil hne
          · exact ⟨t, by rw [he, List.append_assoc, List.singleton_append]⟩
      by_cases hsb : stem bareName shape <:+ s ++ ['('] ++ cs
      · obtain ⟨t, ht⟩ := hreach bareName hbare hsb
        exact absurd (by rw [ht]; simp) (paren_not_mem_stem_bare shape)
      by_cases hsw : stem wrappedName shape <:+ s ++ ['('] ++ cs
      · obtain ⟨t, ht⟩ := hreach wrappedName hwrapped hsw
        rw [eq_nil_of_stem_wrapped ht, List.nil_append] at ht
        rw [List.append_assoc, List.singleton_append, ← ht, chained_wrapped, chained_stem hh]
        decide
      · rw [chained_eq_zero hsb hsw]

end CallHarvest.Call
