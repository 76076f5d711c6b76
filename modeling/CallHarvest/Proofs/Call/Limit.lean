import CallHarvest.Proofs.Call.Grammar

/-!
# Arguments within the limit

The balanced reading of a call looks at the characters that begin within a number of bytes after
the head.  A call ends with a parenthesis, which is a single byte, so that this comes to the same
as a bound on the length of the arguments, also where a wide character straddles the bound.

* `BalancedArguments.unique` — at most one beginning of a text is the arguments of a call.
* `limitedArguments?_eq_some_iff` — what is accepted is the arguments of at most `callLimit` bytes.
* `limitedArguments?_translate_iff` — both for the calls for one text.
-/

namespace CallHarvest.Call

open CallHarvest.Text (before before_append_right byteLength byteLength_append byteLength_cons)

/-! ### Arguments end in one way -/

theorem BalancedArguments.exists_paren {shape : Shape} {w : List Char}
    (h : BalancedArguments shape w) : ∃ x, w = x ++ [')'] := by
  cases h with
  | @literal l _ => exact ⟨l, rfl⟩
  | @further l b _ _ => exact ⟨l ++ ',' :: b, by simp⟩
  | @formatPlural n v w one many p ps _ _ _ _ _ _ _ _ _ _ =>
    exact ⟨n ++ ',' :: (v ++ (one ++ ',' :: (w ++ (many ++ ',' :: joined p ps)))), by simp⟩

/-- Arguments are no proper beginning of other arguments. -/
theorem BalancedArguments.eq_nil_of_append {shape : Shape} {w v : List Char}
    (hw : BalancedArguments shape w) (hwv : BalancedArguments shape (w ++ v)) : v = [] := by
  have hread : balancedArguments? shape (w ++ v) = some v :=
    balancedArguments?_eq_some_iff.2 ⟨w, hw, rfl⟩
  have hread' : balancedArguments? shape (w ++ v) = some [] :=
    balancedArguments?_eq_some_iff.2 ⟨w ++ v, hwv, (List.append_nil _).symm⟩
  rw [hread] at hread'
  exact Option.some.inj hread'

/-- **At most one beginning of a text is the arguments of a call.** -/
theorem BalancedArguments.unique {shape : Shape} {cs v w : List Char}
    (hv : BalancedArguments shape v) (hw : BalancedArguments shape w) (hvcs : v <+: cs)
    (hwcs : w <+: cs) : v = w := by
  rcases List.prefix_or_prefix_of_prefix hvcs hwcs with h | h
  · obtain ⟨x, rfl⟩ := h
    rw [hv.eq_nil_of_append hw, List.append_nil]
  · obtain ⟨x, rfl⟩ := h
    rw [hw.eq_nil_of_append hv, List.append_nil]

/-! ### The characters within reach -/

theorem reach_prefix (limit : Nat) (cs : List Char) : reach limit cs <+: cs := by
  fun_induction reach limit cs with
  | case1 => exact List.nil_prefix
  | case2 => exact List.prefix_rfl
  | case3 limit c cs _ ih => exact List.cons_prefix_cons.2 ⟨rfl, ih⟩

/-- Each character within reach begins before the limit. -/
theorem byteLength_lt_of_reach {limit : Nat} {cs x y : List Char} {c : Char}
    (h : reach limit cs = x ++ c :: y) : byteLength x < limit := by
  induction x generalizing limit cs with
  | nil =>
    cases limit with
    | zero => simp [reach] at h
    | succ limit => exact Nat.succ_pos limit
  | cons a x ih =>
    cases limit with
    | zero => simp [reach] at h
    | succ limit =>
      cases cs with
      | nil => simp [reach] at h
      | cons b cs =>
        rw [reach, List.cons_append] at h
        · obtain ⟨rfl, htail⟩ := List.cons.inj h
          have hx := ih htail
          rw [byteLength_cons]
          omega
        · exact Nat.succ_ne_zero limit

/-- Where not all of a text is within reach, what is comes up to the limit. -/
theorem le_byteLength_of_reach {limit : Nat} {x y : List Char} {c : Char}
    (h : reach limit (x ++ c :: y) = x) : limit ≤ byteLength x := by
  induction x generalizing limit with
  | nil =>
    cases limit with
    | zero => exact Nat.le_refl 0
    | succ limit => simp [reach] at h
  | cons a x ih =>
    cases limit with
    | zero => exact Nat.zero_le _
    | succ limit =>
      rw [List.cons_append, reach] at h
      · have hx := ih (List.cons.inj h).2
        rw [byteLength_cons]
        omega
      · exact Nat.succ_ne_zero limit

/-- A beginning of a text that is no longer than the limit is within reach. -/
theorem prefix_reach {limit : Nat} {w cs : List Char} (h : w <+: cs)
    (hlen : byteLength w ≤ limit) : w <+: reach limit cs := by
  induction w generalizing limit cs with
  | nil => exact List.nil_prefix
  | cons a w ih =>
    obtain ⟨more, rfl⟩ := h
    have hpos := Char.utf8Size_pos a
    rw [byteLength_cons] at hlen
    have hne : limit ≠ 0 := by omega
    rw [List.cons_append, reach]
    · exact List.cons_prefix_cons.2 ⟨rfl, ih (List.prefix_append w more) (by omega)⟩
    · exact hne

/-! ### What is accepted -/

/-- **The balanced reading accepts the arguments that are no longer than the limit.** -/
theorem limitedArguments?_eq_some_iff {shape : Shape} {cs rest : List Char} :
    limitedArguments? shape cs = some rest ↔
      ∃ w, cs = w ++ rest ∧ byteLength w ≤ callLimit ∧ BalancedArguments shape w := by
  obtain ⟨far, hfar⟩ := reach_prefix callLimit cs
  constructor
  · intro h
    obtain ⟨near, hnear, hdrop⟩ := Option.map_eq_some_iff.1 h
    obtain ⟨w, hw, hreach⟩ := balancedArguments?_eq_some_iff.1 hnear
    rw [hreach, before_append_right] at hdrop
    rw [hreach, List.append_assoc] at hfar
    refine ⟨w, ?_, ?_, hw⟩
    · rw [← hdrop, ← hfar, List.drop_left]
    · -- the last character of the arguments is one byte, and begins before the limit
      obtain ⟨x, rfl⟩ := hw.exists_paren
      rw [List.append_assoc, List.singleton_append] at hreach
      have hlt := byteLength_lt_of_reach hreach
      have hparen : byteLength [')'] = 1 := rfl
      rw [byteLength_append, hparen]
      omega
  · intro h
    obtain ⟨w, hcs, hlen, hw⟩ := h
    obtain ⟨near, hnear⟩ := prefix_reach ⟨rest, hcs.symm⟩ hlen
    have hread : balancedArguments? shape (reach callLimit cs) = some near :=
      balancedArguments?_eq_some_iff.2 ⟨w, hw, hnear.symm⟩
    show (balancedArguments? shape (reach callLimit cs)).map
      (fun rest => cs.drop (before (reach callLimit cs) rest).length) = some rest
    rw [hread, Option.map_some, ← hnear, before_append_right, hcs, List.drop_left]

/-- **The balanced reading of a call for one text.**  It accepts the arguments of at most 4096
bytes that consist of a literal, or of a literal, a comma and balanced text, and a closing
parenthesis; and at most one beginning of a text is of this form. -/
theorem limitedArguments?_translate_iff :
    (∀ cs rest, limitedArguments? .translate cs = some rest ↔
      ∃ w, cs = w ++ rest ∧ byteLength w ≤ 4096 ∧
        ((∃ l, Literal l ∧ w = l ++ [')']) ∨
          ∃ l b, Literal l ∧ BalancedText b ∧ w = l ++ ',' :: (b ++ [')']))) ∧
    ∀ cs v w, BalancedArguments .translate v → BalancedArguments .translate w →
      v <+: cs → w <+: cs → v = w := by
  have hform : ∀ w, BalancedArguments .translate w ↔ (∃ l, Literal l ∧ w = l ++ [')']) ∨
      ∃ l b, Literal l ∧ BalancedText b ∧ w = l ++ ',' :: (b ++ [')']) := by
    intro w
    constructor
    · intro h
      cases h with
      | literal hl => exact Or.inl ⟨_, hl, rfl⟩
      | further hl hb => exact Or.inr ⟨_, _, hl, hb, rfl⟩
    · intro h
      rcases h with ⟨l, hl, rfl⟩ | ⟨l, b, hl, hb, rfl⟩
      · exact .literal hl
      · exact .further hl hb
  constructor
  · intro cs rest
    rw [limitedArguments?_eq_some_iff]
    simp only [hform, callLimit]
  · intro cs v w hv hw hvcs hwcs
    exact hv.unique hw hvcs hwcs

end CallHarvest.Call
