import CallHarvest.Proofs.Call.Pattern

/-!
# The leftmost and shortest calls

The lazy search of a source is a scan for the leftmost and shortest words of a language: the first
place at which a word begins, the shortest word there, and then again from its end.

* `LazyCall` — the language of the calls in the lazy reading.
* `ShortestScan` — the scan, as a relation between a text and what is reported of it; it relates a
  text to one answer only (`ShortestScan.unique`).
* `find_lazy_leftmost_shortest` — the search is this scan, and at each place the end that a
  backtracking search for the pattern of a call prefers is the end of the shortest call.
-/

namespace CallHarvest.Call

open CallHarvest.Text (byteLength byteLength_cons byteLength_nil prefix_of_prefix_append)

/-- A call in the lazy reading. -/
def LazyCall (shape : Shape) : List Char → Prop :=
  CallWord shape (LazyArguments shape)

/-- The scan of a text, which begins at the byte `start` of a source, for the words of `L`.  Each
word that is reported begins at the first place after the one before where any begins, and is the
shortest one there. -/
inductive ShortestScan (shape : Shape) (L : List Char → Prop) :
    Nat → List Char → List Match → Prop
  | stop {start : Nat} {cs : List Char} :
      (∀ u w, u ++ w <+: cs → ¬ L w) → ShortestScan shape L start cs []
  | word {start : Nat} {u w rest : List Char} {ms : List Match} :
      Shortest L (w ++ rest) w →
      (∀ x v, x ++ v <+: u ++ (w ++ rest) → L v → u.length ≤ x.length) →
      ShortestScan shape L (start + byteLength u + byteLength w) rest ms →
      ShortestScan shape L start (u ++ (w ++ rest))
        (⟨shape, String.ofList w, start + byteLength u, start + byteLength u + byteLength w⟩ :: ms)

namespace ShortestScan

variable {shape : Shape} {L : List Char → Prop}

/-- A place at which no word begins is passed. -/
theorem pass {start : Nat} {c : Char} {cs : List Char} {ms : List Match}
    (hc : ∀ w, w <+: c :: cs → ¬ L w) (h : ShortestScan shape L (start + c.utf8Size) cs ms) :
    ShortestScan shape L start (c :: cs) ms := by
  cases h with
  | stop hnone =>
    apply ShortestScan.stop
    intro u w hw hL
    cases u with
    | nil => exact hc w hw hL
    | cons d u => exact hnone u w (List.cons_prefix_cons.1 hw).2 hL
  | @word _ u w rest ms hw hleft hrest =>
    rw [Nat.add_assoc start, ← byteLength_cons] at hrest ⊢
    refine .word hw ?_ hrest
    intro x v hv hL
    cases x with
    | nil => exact absurd hL (hc v hv)
    | cons d x => exact Nat.succ_le_succ (hleft x v (List.cons_prefix_cons.1 hv).2 hL)

/-- **A scan has one answer.** -/
theorem unique {start : Nat} {cs : List Char} {ms ms' : List Match}
    (h : ShortestScan shape L start cs ms) (h' : ShortestScan shape L start cs ms') :
    ms = ms' := by
  induction h generalizing ms' with
  | stop hnone =>
    cases h' with
    | stop => rfl
    | @word _ u w rest _ hw _ _ =>
      exact absurd hw.word (hnone u w (by rw [← List.append_assoc]; exact List.prefix_append _ _))
  | @word start u w rest ms hw hleft _ ih =>
    generalize hcs : u ++ (w ++ rest) = cs at h'
    cases h' with
    | stop hnone =>
      refine absurd hw.word (hnone u w ?_)
      rw [← hcs, ← List.append_assoc]
      exact List.prefix_append _ _
    | @word _ u' w' rest' ms' hw' hleft' hrest' =>
      have hle : u.length ≤ u'.length := by
        refine hleft u' w' ?_ hw'.word
        rw [hcs, ← List.append_assoc]
        exact List.prefix_append _ _
      have hge : u'.length ≤ u.length := by
        refine hleft' u w ?_ hw.word
        rw [← hcs, ← List.append_assoc]
        exact List.prefix_append _ _
      obtain ⟨rfl, hfrom⟩ := List.append_inj hcs (Nat.le_antisymm hle hge)
      have hshort : w.length ≤ w'.length :=
        hw.least w' (by rw [hfrom]; exact List.prefix_append _ _) hw'.word
      have hshort' : w'.length ≤ w.length :=
        hw'.least w (by rw [← hfrom]; exact List.prefix_append _ _) hw.word
      obtain ⟨rfl, rfl⟩ := List.append_inj hfrom (Nat.le_antisymm hshort hshort')
      rw [ih hrest']

/-- Text without a closing parenthesis adds nothing at the end, if words end with one. -/
theorem append_right {start : Nat} {cs junk : List Char} {ms : List Match}
    (hL : ∀ w, L w → ∃ x, w = x ++ [')']) (hj : ')' ∉ junk)
    (h : ShortestScan shape L start cs ms) : ShortestScan shape L start (cs ++ junk) ms := by
  have hcut : ∀ cs u w, L w → u ++ w <+: cs ++ junk → u ++ w <+: cs := by
    intro cs u w hw hp
    obtain ⟨x, rfl⟩ := hL w hw
    rw [← List.append_assoc] at hp ⊢
    exact prefix_of_prefix_append hj hp
  induction h with
  | stop hnone => exact .stop fun u w hw hLw => hnone u w (hcut _ u w hLw hw) hLw
  | @word start u w rest ms hw hleft _ ih =>
    rw [List.append_assoc, List.append_assoc]
    refine .word ⟨List.prefix_append _ _, hw.word, ?_⟩ ?_ ih
    · intro v hv hLv
      rw [← List.append_assoc] at hv
      exact hw.least v (hcut _ [] v hLv hv) hLv
    · intro x v hv hLv
      rw [← List.append_assoc w, ← List.append_assoc u] at hv
      exact hleft x v (hcut _ x v hLv hv) hLv

end ShortestScan

/-! ### The lazy search is the scan -/

theorem LazyArguments.exists_paren {shape : Shape} {w : List Char} (h : LazyArguments shape w) :
    ∃ x, w = x ++ [')'] := by
  cases h <;> exact ⟨_, rfl⟩

theorem LazyCall.exists_paren {shape : Shape} {w : List Char} (h : LazyCall shape w) :
    ∃ x, w = x ++ [')'] := by
  obtain ⟨hd, args, _, hargs, rfl⟩ := h
  obtain ⟨x, rfl⟩ := hargs.exists_paren
  exact ⟨hd ++ x, by rw [List.append_assoc]⟩

theorem readsShortest_lazyCall (shape : Shape) :
    ReadsShortest (call? .lazy shape) (LazyCall shape) :=
  readsShortest_call? (readsShortest_lazyArguments? shape)

theorem shortestScan_findFrom (shape : Shape) (start : Nat) (cs : List Char) :
    ShortestScan shape (LazyCall shape) start cs (findFrom .lazy shape start cs) := by
  induction hn : cs.length using Nat.strongRecOn generalizing cs start with
  | ind n ih =>
    subst hn
    cases cs with
    | nil =>
      rw [findFrom]
      apply ShortestScan.stop
      intro u w hw hL
      obtain ⟨x, rfl⟩ := hL.exists_paren
      simp at hw
    | cons c cs =>
      cases hread : call? .lazy shape (c :: cs) with
      | none =>
        rw [findFrom_of_passed (attempt_lazy_of_no_call? hread)]
        exact .pass ((readsShortest_lazyCall shape).eq_none_iff.1 hread)
          (ih cs.length (Nat.lt_succ_self _) _ cs rfl)
      | some rest =>
        obtain ⟨w, hw, hcs⟩ := (readsShortest_lazyCall shape).eq_some_iff.1 hread
        obtain ⟨x, hx⟩ := hw.word.exists_paren
        have hne : w ≠ [] := by simp [hx]
        rw [hcs] at hw hread ih ⊢
        rw [findFrom_of_call? hne hread]
        have hlt : rest.length < (w ++ rest).length := by
          simp only [hx, List.length_append, List.length_singleton]
          omega
        exact .word (u := []) hw (fun x v _ _ => Nat.zero_le _) (ih rest.length hlt _ rest rfl)

/-- **The lazy search reports the leftmost and shortest calls.**  What it reports of a source is
the one answer of the scan for the language of the calls; and at every place the end that a
backtracking search for the pattern of a call prefers to all others is that of the shortest call
there. -/
theorem find_lazy_leftmost_shortest (shape : Shape) (source : String) :
    (∀ ms, ShortestScan shape (LazyCall shape) 0 source.toList ms ↔ ms = find .lazy shape source) ∧
      ∀ cs rest, ((callPattern shape).ends cs).head? = some rest ↔
        ∃ w, Shortest (LazyCall shape) cs w ∧ cs = w ++ rest := by
  have hscan : ShortestScan shape (LazyCall shape) 0 source.toList (find .lazy shape source) := by
    obtain ⟨junk, hjunk, hparen⟩ := throughLastParen_append source.toList
    have h := (shortestScan_findFrom shape 0 (throughLastParen source.toList)).append_right
      (fun w hw => hw.exists_paren) hparen
    rwa [hjunk] at h
  constructor
  · intro ms
    constructor
    · intro h
      exact h.unique hscan
    · intro h
      rw [h]
      exact hscan
  · intro cs rest
    rw [head?_ends_callPattern]
    exact (readsShortest_lazyCall shape).eq_some_iff

end CallHarvest.Call
