import CallHarvest.Proofs.Call.Chain
import CallHarvest.Proofs.Call.Limit

/-!
# Which balanced calls are reported

The balanced search passes the whole head of a call that is not complete, its parenthesis included.
A wrapped head may begin with that very parenthesis.  This file tells exactly which complete calls
of a source are reported: of those that no earlier match takes in, the ones with a bare head and the
ones in front of which an even number of heads is chained.

* `Seen` — whether a search that passes whole heads comes to a head.
* `seen_cons`, `seen_head_append`, `seen_call_append` — what is passed in front of a text changes
  nothing, and `not_seen_of_overlap` where the head is missed.
* `ReportsSeen` — a call that no earlier match takes in is reported if it is seen; one lemma for
  each way in which the search goes on in front of the call, and `reportsSeen` for all of them.
* `mem_find_balanced_or_covered_iff` — the same for a whole source.
-/

namespace CallHarvest.Call

open CallHarvest.Text (append_eq_append_cases byteLength byteLength_append byteLength_cons
  byteLength_pos mem_of_concat_eq_append suffix_append_cases)

/-! ### The end of the arguments -/

/-- **Arguments do not end with the namespace in parentheses.** -/
theorem BalancedArguments.not_wrapped_suffix {shape : Shape} {args : List Char}
    (h : BalancedArguments shape args) (front : List Char) :
    ¬ wrappedName.toList <:+ front ++ args := by
  intro hsuffix
  obtain ⟨s, hs⟩ := hsuffix
  have hname : wrappedName.toList = '(' :: bareName.toList ++ [')'] := rfl
  rcases h.exists_end with ⟨l, ⟨mark, text, hq, -, rfl⟩, rfl⟩ | ⟨z, b, hb, rfl⟩
  · -- the mark of the literal would be the last letter of the namespace
    have hparen : s ++ '(' :: bareName.toList ++ [')'] =
        front ++ mark :: text ++ [mark] ++ [')'] := by simpa [hname] using hs
    have hcut := List.append_cancel_right hparen
    have hlast : mark ∈ ['l'] :=
      mem_of_concat_eq_append (x := s ++ "(Drupa".toList) (hcut.symm.trans (by simp [bareName]))
        (by simp)
    have hmark : mark = 'l' := List.mem_singleton.1 hlast
    rw [hmark] at hq
    exact absurd hq (by decide)
  · have hparen : s ++ '(' :: bareName.toList ++ [')'] =
        front ++ z ++ [','] ++ b ++ [')'] := by simpa [hname] using hs
    rcases append_eq_append_cases (List.append_cancel_right hparen) with
      ⟨e, -, hb'⟩ | ⟨e, hne, he, hname'⟩
    · -- its parenthesis would be open in the balanced text
      obtain ⟨c, hc, hclose⟩ := hb.exists_of_open hb'
      have hno : (bareName.toList.all fun c => !(isQuote c || isCloser c)) = true := rfl
      have hopen := List.all_eq_true.1 hno c hc
      rw [← Bool.or_eq_true] at hclose
      rw [hclose] at hopen
      exact absurd hopen (by decide)
    · -- it would hold the comma
      have hcomma : ',' ∈ '(' :: bareName.toList := by
        rw [hname']
        exact List.mem_append_left b (mem_of_concat_eq_append he hne)
      exact absurd hcomma (by decide)

/-! ### Heads that the search comes to -/

/-- Whether a search that passes whole heads comes to the head `hd` after the text `pre`.  A bare
head shares no character with the one before it; a wrapped one is missed if it begins with the
parenthesis of a head that is seen. -/
def Seen (shape : Shape) (pre hd : List Char) : Prop :=
  hd = head bareName shape ∨ Even (chained shape pre)

variable {shape : Shape}

theorem seen_nil (hd : List Char) : Seen shape [] hd := by
  rw [Seen, chained_nil]
  exact Or.inr (by decide)

theorem seen_head_append {h : List Char} (hh : IsHead shape h) (pre hd : List Char) :
    Seen shape (h ++ pre) hd ↔ Seen shape pre hd := by
  rw [Seen, Seen, even_chained_head_append hh]

/-- A wrapped head that begins with the parenthesis of the first head is not seen. -/
theorem not_seen_of_overlap {h pre t hd x y : List Char} (hh : IsHead shape h)
    (hhd : IsHead shape hd) (hcut : h = pre ++ t) (hpre : pre ≠ []) (ht : t ≠ [])
    (hxy : hd ++ x = t ++ y) : ¬ Seen shape pre hd := by
  obtain ⟨rfl, rfl⟩ := eq_of_overlap hh hhd hcut hpre ht hxy
  rw [hcut] at hh
  intro hseen
  rcases hseen with hbare | heven
  · revert hbare
    cases shape <;> decide
  · rw [chained_stem hh] at heven
    revert heven
    decide

/-- A character at which no head begins changes nothing. -/
theorem seen_cons {c : Char} {pre hd more : List Char} (hhd : IsHead shape hd)
    (hnone : afterHead? shape (c :: (pre ++ (hd ++ more))) = none) :
    Seen shape (c :: pre) hd ↔ Seen shape pre hd := by
  rcases hhd with rfl | rfl
  · exact ⟨fun _ => Or.inl rfl, fun _ => Or.inl rfl⟩
  · have hchain : chained shape ([c] ++ pre) = chained shape pre := by
      apply chained_append
      intro name u hname hu hs
      rcases suffix_append_cases hs with hs | ⟨x, hne, hx, he⟩
      · exact hs
      · -- a head would begin at the character in front
        obtain rfl : x = [c] :=
          (List.suffix_cons_iff.1 hx).resolve_right fun h => hne (List.suffix_nil.1 h)
        obtain ⟨more', hmore⟩ : u ++ ['('] <+: pre ++ (head wrappedName shape ++ more) := by
          refine hu.trans ?_
          rw [List.prefix_append_right_inj]
          exact List.prefix_append ['('] _
        have hhead : IsHead shape (head name shape) := by
          rcases hname with rfl | rfl
          · exact Or.inl rfl
          · exact Or.inr rfl
        have hcs : c :: (pre ++ (head wrappedName shape ++ more)) = head name shape ++ more' := by
          rw [← hmore, head_eq_stem_append, he]
          simp
        rw [hcs, afterHead?_append hhead] at hnone
        exact absurd hnone (by simp)
    rw [List.singleton_append] at hchain
    rw [Seen, Seen, hchain]

/-- The only closing parenthesis of a head is that of the namespace. -/
theorem eq_wrappedName_of_stem {name : String} {x u : List Char}
    (hname : name = bareName ∨ name = wrappedName) (h : stem name shape = x ++ ')' :: u) :
    x ++ [')'] = wrappedName.toList := by
  have hmem : ')' ∈ stem name shape := by
    rw [h]
    exact List.mem_append_right x List.mem_cons_self
  rcases hname with rfl | rfl
  · have hno : ')' ∉ stem bareName shape := by cases shape <;> decide
    exact absurd hmem hno
  · have key : ∀ k < (stem wrappedName shape).length, (stem wrappedName shape)[k]? = some ')' →
        (stem wrappedName shape).take (k + 1) = wrappedName.toList := by
      cases shape <;> decide
    have hx := key x.length (by rw [h]; simp) (by rw [h]; simp)
    rw [h, ← List.singleton_append, ← List.append_assoc, List.take_left' (by simp)] at hx
    exact hx

/-- A complete call in front changes nothing: no head begins in it and ends after it. -/
theorem seen_call_append {front args : List Char} (hargs : BalancedArguments shape args)
    (pre hd : List Char) : Seen shape (front ++ args ++ pre) hd ↔ Seen shape pre hd := by
  have hchain : chained shape (front ++ args ++ pre) = chained shape pre := by
    apply chained_append
    intro name u hname _ hs
    rcases suffix_append_cases hs with hs | ⟨x, hne, hx, he⟩
    · exact hs
    · obtain ⟨w, rfl⟩ := hargs.exists_paren
      rw [← List.append_assoc] at hx
      obtain ⟨t, rfl, -⟩ := (List.suffix_concat_iff.1 hx).resolve_left hne
      rw [List.append_assoc, List.singleton_append] at he
      rw [List.append_assoc, eq_wrappedName_of_stem hname he] at hx
      exact absurd hx (hargs.not_wrapped_suffix front)
  rw [Seen, Seen, hchain]

/-! ### The search -/

/-- Whether a match begins before a place and ends after it. -/
def Covered (ms : List Match) (place : Nat) : Prop :=
  ∃ m ∈ ms, m.start < place ∧ place < m.stop

theorem call?_balanced {hd args rest : List Char} (hhd : IsHead shape hd)
    (hargs : limitedArguments? shape (args ++ rest) = some rest) :
    call? .balanced shape (hd ++ args ++ rest) = some rest := by
  rw [List.append_assoc, call?, afterHead?_append hhd, Option.bind_some]
  exact hargs

/-- The match for a call at a place. -/
def callMatch (shape : Shape) (call : List Char) (place : Nat) : Match :=
  ⟨shape, String.ofList call, place, place + byteLength call⟩

/-- Whether the search from the byte `start` on, of a text with a complete call after `pre`, reports
that call just if it comes to its head, or else an earlier match covers the call. -/
def ReportsSeen (shape : Shape) (hd args rest : List Char) (start : Nat) (pre : List Char) : Prop :=
  ¬ Covered (findFrom .balanced shape start (pre ++ (hd ++ args ++ rest)))
      (start + byteLength pre) →
    (callMatch shape (hd ++ args) (start + byteLength pre) ∈
      findFrom .balanced shape start (pre ++ (hd ++ args ++ rest)) ↔ Seen shape pre hd)

/-! ### One step of the search in front of a call -/

section Steps

variable {hd args rest pre : List Char} {start : Nat}

theorem reportsSeen_nil (hhd : IsHead shape hd)
    (hargs : limitedArguments? shape (args ++ rest) = some rest) :
    ReportsSeen shape hd args rest start [] := by
  intro _
  have hne : hd ++ args ≠ [] := List.append_ne_nil_of_left_ne_nil hhd.ne_nil args
  rw [List.nil_append, findFrom_of_call? hne (call?_balanced hhd hargs)]
  constructor
  · intro _
    exact seen_nil hd
  · intro _
    exact List.mem_cons_self

theorem ReportsSeen.cons {c : Char} (hhd : IsHead shape hd)
    (hnone : afterHead? shape (c :: (pre ++ (hd ++ args ++ rest))) = none)
    (h : ReportsSeen shape hd args rest (start + c.utf8Size) pre) :
    ReportsSeen shape hd args rest start (c :: pre) := by
  intro hclear
  rw [List.cons_append, findFrom_of_no_head hnone, byteLength_cons, ← Nat.add_assoc] at hclear ⊢
  rw [List.append_assoc hd] at hnone
  rw [h hclear, seen_cons hhd hnone]

theorem ReportsSeen.head_append {h : List Char} (hh : IsHead shape h)
    (hbody : limitedArguments? shape (pre ++ (hd ++ args ++ rest)) = none)
    (hpre : ReportsSeen shape hd args rest (start + byteLength h) pre) :
    ReportsSeen shape hd args rest start (h ++ pre) := by
  intro hclear
  rw [List.append_assoc, findFrom_of_rejected hh hbody, byteLength_append, ← Nat.add_assoc]
    at hclear ⊢
  rw [hpre hclear, seen_head_append hh]

/-- A call whose head begins inside a head that is passed is not reported. -/
theorem reportsSeen_of_overlap {h t body : List Char} (hh : IsHead shape h)
    (hhd : IsHead shape hd) (hbody : limitedArguments? shape body = none) (hcut : h = pre ++ t)
    (hpre : pre ≠ []) (ht : t ≠ []) (hover : hd ++ args ++ rest = t ++ body) :
    ReportsSeen shape hd args rest start pre := by
  intro _
  rw [hover, ← List.append_assoc, ← hcut, findFrom_of_rejected hh hbody]
  apply iff_of_false
  · intro hmem
    have hle : start + byteLength h ≤ start + byteLength pre := le_start_of_mem_findFrom hmem
    have hpos := byteLength_pos ht
    rw [hcut, byteLength_append] at hle
    omega
  · rw [List.append_assoc] at hover
    exact not_seen_of_overlap hh hhd hcut hpre ht hover

theorem ReportsSeen.call_append {h w : List Char} (hh : IsHead shape h)
    (hw : BalancedArguments shape w)
    (hread : limitedArguments? shape (w ++ (pre ++ (hd ++ args ++ rest))) =
      some (pre ++ (hd ++ args ++ rest)))
    (hpre : ReportsSeen shape hd args rest (start + byteLength (h ++ w)) pre) :
    ReportsSeen shape hd args rest start (h ++ w ++ pre) := by
  intro hclear
  have hne : h ++ w ≠ [] := List.append_ne_nil_of_left_ne_nil hh.ne_nil w
  have hpos := byteLength_pos hne
  have hplace : start + byteLength (h ++ w ++ pre) =
      start + byteLength (h ++ w) + byteLength pre := by
    rw [byteLength_append, Nat.add_assoc]
  rw [List.append_assoc (h ++ w), findFrom_of_call? hne (call?_balanced hh hread), hplace]
    at hclear ⊢
  have hclear' : ¬ Covered (findFrom .balanced shape (start + byteLength (h ++ w))
      (pre ++ (hd ++ args ++ rest))) (start + byteLength (h ++ w) + byteLength pre) := by
    intro hcov
    obtain ⟨m, hm, hmplace⟩ := hcov
    exact hclear ⟨m, List.mem_cons_of_mem _ hm, hmplace⟩
  rw [seen_call_append hw, ← hpre hclear', List.mem_cons]
  -- the call is not the one that begins the text
  apply or_iff_right
  intro heq
  have hstart : start + byteLength (h ++ w) + byteLength pre = start := congrArg Match.start heq
  omega

/-- A call that begins inside another one is covered. -/
theorem reportsSeen_of_covered {h w t rest' : List Char} (hh : IsHead shape h)
    (hread : limitedArguments? shape (w ++ rest') = some rest') (hcut : h ++ w = pre ++ t)
    (hpre : pre ≠ []) (ht : t ≠ []) (hover : hd ++ args ++ rest = t ++ rest') :
    ReportsSeen shape hd args rest start pre := by
  intro hclear
  have hne : h ++ w ≠ [] := List.append_ne_nil_of_left_ne_nil hh.ne_nil w
  rw [hover, ← List.append_assoc, ← hcut, findFrom_of_call? hne (call?_balanced hh hread)] at hclear
  refine absurd ⟨_, List.mem_cons_self, ?_, ?_⟩ hclear
  · have hpos := byteLength_pos hpre
    show start < start + byteLength pre
    omega
  · have hpos := byteLength_pos ht
    show start + byteLength pre < start + byteLength (h ++ w)
    rw [hcut, byteLength_append]
    omega

/-- **The search reports the calls that it comes to**, unless an earlier match covers them. -/
theorem reportsSeen (hhd : IsHead shape hd)
    (hargs : limitedArguments? shape (args ++ rest) = some rest) :
    ReportsSeen shape hd args rest start pre := by
  -- the search takes off a character, a head or a call at a time; each time either less is left in
  -- front of the call, or the part that is taken reaches into it
  induction hn : pre.length using Nat.strongRecOn generalizing start pre with
  | ind n ih =>
    subst hn
    cases pre with
    | nil => exact reportsSeen_nil hhd hargs
    | cons c pre =>
      have hne := List.cons_ne_nil c pre
      cases hafter : afterHead? shape (c :: (pre ++ (hd ++ args ++ rest))) with
      | none => exact .cons hhd hafter (ih pre.length (Nat.lt_succ_self _) rfl)
      | some body =>
        obtain ⟨h, hh, hcs⟩ := exists_of_afterHead? hafter
        rw [← List.cons_append] at hcs
        have hpos := List.length_pos_iff.2 hh.ne_nil
        cases hread : limitedArguments? shape body with
        | none =>
          rcases append_eq_append_cases hcs with ⟨e, hpre, rfl⟩ | ⟨t, ht, hcut, hover⟩
          · rw [hpre] at ih ⊢
            have hlt : e.length < (h ++ e).length := by
              rw [List.length_append]
              omega
            exact .head_append hh hread (ih e.length hlt rfl)
          · exact reportsSeen_of_overlap hh hhd hread hcut hne ht hover
        | some rest' =>
          obtain ⟨w, rfl, -, hw⟩ := limitedArguments?_eq_some_iff.1 hread
          rw [← List.append_assoc h] at hcs
          rcases append_eq_append_cases hcs with ⟨e, hpre, rfl⟩ | ⟨t, ht, hcut, hover⟩
          · rw [hpre] at ih ⊢
            have hlt : e.length < (h ++ w ++ e).length := by
              rw [List.length_append, List.length_append]
              omega
            exact .call_append hh hw hread (ih e.length hlt rfl)
          · exact reportsSeen_of_covered hh hread hcut hne ht hover

end Steps

/-! ### The search of a source -/

/-- The part of a source that is searched holds every complete call. -/
theorem throughLastParen_of_call {cs pre hd args rest : List Char}
    (hargs : limitedArguments? shape (args ++ rest) = some rest)
    (hcs : cs = pre ++ (hd ++ args ++ rest)) :
    ∃ rest', throughLastParen cs = pre ++ (hd ++ args ++ rest') ∧
      limitedArguments? shape (args ++ rest') = some rest' := by
  obtain ⟨w, hw, hlen, hword⟩ := limitedArguments?_eq_some_iff.1 hargs
  obtain rfl : args = w := List.append_cancel_right hw
  obtain ⟨x, hx⟩ := hword.exists_paren
  have hprefix : pre ++ (hd ++ x) ++ [')'] <+: cs := ⟨rest, by rw [hcs, hx]; simp⟩
  obtain ⟨rest', hrest⟩ := prefix_throughLastParen hprefix
  refine ⟨rest', ?_, limitedArguments?_eq_some_iff.2 ⟨args, rfl, hlen, hword⟩⟩
  rw [← hrest, hx]
  simp

/-- **Which complete calls are taken in.**  A complete call of a source is reported, or begins
inside an earlier match, exactly if the latter holds, or its head is a bare one, or an even number
of heads is chained in front of it. -/
theorem mem_find_balanced_or_covered_iff {source : String} {pre hd args rest : List Char}
    (hhd : IsHead shape hd) (hargs : limitedArguments? shape (args ++ rest) = some rest)
    (hsource : source.toList = pre ++ (hd ++ args ++ rest)) :
    ((⟨shape, String.ofList (hd ++ args), byteLength pre,
          byteLength pre + byteLength (hd ++ args)⟩ : Match) ∈ find .balanced shape source ∨
        Covered (find .balanced shape source) (byteLength pre)) ↔
      Covered (find .balanced shape source) (byteLength pre) ∨
        hd = head bareName shape ∨ Even (chained shape pre) := by
  obtain ⟨rest', hsearch, hargs'⟩ := throughLastParen_of_call hargs hsource
  rw [find, hsearch]
  by_cases hcov : Covered (findFrom .balanced shape 0 (pre ++ (hd ++ args ++ rest')))
      (byteLength pre)
  · exact iff_of_true (Or.inr hcov) (Or.inl hcov)
  · have hmem : ReportsSeen shape hd args rest' 0 pre := reportsSeen hhd hargs'
    rw [ReportsSeen, Nat.zero_add] at hmem
    rw [or_iff_left hcov, or_iff_right hcov]
    exact hmem hcov

/-- The last call of three chained heads is reported: the search passes the first head, and with it
the parenthesis of the second. -/
theorem third_link_reported :
    IsHead .translate "(Drupal).t(".toList ∧
      limitedArguments? .translate ("'x')".toList ++ []) = some [] ∧
      (⟨.translate, "(Drupal).t('x')", 18, 33⟩ ∈
          find .balanced .translate "Drupal.t(Drupal).t(Drupal).t('x')" ∨
        Covered (find .balanced .translate "Drupal.t(Drupal).t(Drupal).t('x')") 18) := by
  have hhd : IsHead .translate "(Drupal).t(".toList := Or.inr rfl
  have hread : limitedArguments? .translate ("'x')".toList ++ []) = some [] := by decide +kernel
  have hsource : "Drupal.t(Drupal).t(Drupal).t('x')".toList =
      "Drupal.t(Drupal).t".toList ++ ("(Drupal).t(".toList ++ "'x')".toList ++ []) := rfl
  have hchain : chained .translate "Drupal.t(Drupal).t".toList = 2 := by
    show chained .translate (([] ++ stem bareName .translate) ++ stem wrappedName .translate) = 2
    rw [chained_wrapped, chained_bare]
  have heven : Even (chained .translate "Drupal.t(Drupal).t".toList) := by
    rw [hchain]
    exact ⟨1, rfl⟩
  exact ⟨hhd, hread,
    (mem_find_balanced_or_covered_iff hhd hread hsource).2 (Or.inr (Or.inr heven))⟩

/-- **Not every complete call is reported.**  The search passes the bare head of the source below,
and with it the parenthesis of the wrapped one, which has complete arguments. -/
theorem not_forall_mem_find_balanced :
    ¬ ∀ (shape : Shape) (source : String) (pre hd args rest : List Char), IsHead shape hd →
      limitedArguments? shape (args ++ rest) = some rest →
      source.toList = pre ++ (hd ++ args ++ rest) →
      (⟨shape, String.ofList (hd ++ args), byteLength pre,
          byteLength pre + byteLength (hd ++ args)⟩ : Match) ∈ find .balanced shape source ∨
        Covered (find .balanced shape source) (byteLength pre) := by
  intro h
  have hfind : find .balanced .translate "Drupal.t(Drupal).t('x')" = [] := by decide +kernel
  have hmiss := h .translate "Drupal.t(Drupal).t('x')" "Drupal.t".toList "(Drupal).t(".toList
    "'x')".toList [] (Or.inr rfl) (by decide +kernel) rfl
  rw [hfind] at hmiss
  rcases hmiss with hmem | ⟨m, hmem, -⟩
  · exact List.not_mem_nil hmem
  · exact List.not_mem_nil hmem

end CallHarvest.Call
