import CallHarvest.Proofs.Call.Coverage

/-!
# Calls for a count without replacements

A call for a count needs a further argument after its two literals.  One that ends right after them
is not complete: the balanced reading never reports it.  The lazy reading ends a literal at the first
later mark from which it can go on, and for the second literal that may be a mark behind the end of
the call.  So it reports a call where there is none, if the text after the call has such a mark.

* `RunsOn` — whether a literal that is open in front of a text can still be closed in it.
* `exists_lazyArguments_iff` — the lazy reading of such a call runs on, or fails.
* `balancedArguments?_clearLiterals_paren` — the balanced reading fails.
* `exists_match_iff_runsOn` — which of these calls are reported.
-/

namespace CallHarvest.Call

open CallHarvest.Text (append_eq_append_cases append_inj_of_byteLength_eq byteLength)

variable {mode : Mode} {shape : Shape} {lits rest : List Char}

/-- Whether a text has a quotation mark with a comma after it, and a closing parenthesis after
both. -/
def RunsOn (cs : List Char) : Prop :=
  ∃ x q y z, isQuote q ∧ cs = x ++ q :: ',' :: (y ++ ')' :: z)

/-! ### The lazy reading -/

/-- The last literal of the arguments of a call for a count has a comma after it, and three marks
in front of its last one. -/
theorem LazyArguments.exists_last_mark {args : List Char}
    (h : LazyArguments .formatPlural args) :
    ∃ x q y, isQuote q ∧ 3 ≤ x.countP isQuote ∧ args = x ++ q :: ',' :: (y ++ [')']) := by
  cases h with
  | @formatPlural n v w one many y a b c d _ _ _ _ ha hb hc hd =>
    refine ⟨n ++ ',' :: v ++ a :: one ++ b :: ',' :: w ++ c :: many, d, y, hd, ?_, by simp⟩
    simp only [List.countP_append, List.countP_cons, ha, hb, hc, if_true]
    omega

/-- **The lazy reading of a call without replacements runs on.**  There are arguments at its place
exactly if the second literal can be closed after the end of the call. -/
theorem exists_lazyArguments_iff (hlits : ClearLiterals .formatPlural lits) :
    (∃ args, args <+: lits ++ ')' :: rest ∧ LazyArguments .formatPlural args) ↔ RunsOn rest := by
  constructor
  · intro h
    obtain ⟨args, ⟨more, hmore⟩, hargs⟩ := h
    obtain ⟨x, q, y, hq, hmarks, rfl⟩ := hargs.exists_last_mark
    obtain ⟨front, last, rfl, hlast, hfew⟩ := hlits.exists_last
    have hcut : x ++ q :: ',' :: (y ++ ')' :: more) = front ++ last :: (')' :: rest) := by
      simpa using hmore
    rcases append_eq_append_cases hcut with ⟨e, rfl, he⟩ | ⟨e, hne, rfl, he⟩
    · -- the last mark of the arguments is one of the later text, for a parenthesis is no mark
      match e, he with
      | [], he => exact absurd (List.cons.inj (List.cons.inj he).2).1 (by decide)
      | [_], he =>
        have hparen := (List.cons.inj (List.cons.inj he).2).1
        rw [← hparen] at hq
        exact absurd hq (by decide)
      | _ :: _ :: e, he =>
        have hrest := (List.cons.inj (List.cons.inj he).2).2
        exact ⟨e, q, y, more, hq, hrest⟩
    · -- in front of the last mark of the literals there are too few
      obtain ⟨c, e, rfl⟩ := List.exists_cons_of_ne_nil hne
      obtain ⟨rfl, -⟩ := List.cons.inj he
      simp only [List.countP_append, List.countP_cons_of_pos hq, Shape.marks] at hfew
      omega
  · intro h
    obtain ⟨x, q, y, z, hq, rfl⟩ := h
    cases hlits with
    | @formatPlural n v w one many hne hn hv hw hone hmany =>
      obtain ⟨a, one, ha, -, -, rfl⟩ := hone
      obtain ⟨c, many, hc, -, -, rfl⟩ := hmany
      have hargs : LazyArguments .formatPlural (n ++ ',' :: v ++ a :: one ++ a :: ',' :: w ++
          c :: (many ++ c :: ')' :: x) ++ q :: ',' :: y ++ [')']) :=
        .formatPlural hne hn hv hw ha ha hc hq
      exact ⟨_, ⟨z, by simp⟩, hargs⟩

/-! ### The balanced reading -/

theorem ClearLiteral.literal {l : List Char} (h : ClearLiteral l) : Literal l := by
  obtain ⟨mark, text, hq, htext, -, rfl⟩ := h
  exact ⟨mark, text, hq, htext, rfl⟩

/-- **The balanced reading of a call without replacements fails**, whatever follows it. -/
theorem balancedArguments?_clearLiterals_paren (hlits : ClearLiterals .formatPlural lits) :
    balancedArguments? .formatPlural (lits ++ ')' :: rest) = none := by
  cases hlits with
  | @formatPlural n v w one many hne hn hv hw hone hmany =>
    have hcs : n ++ ',' :: (v ++ (one ++ ',' :: (w ++ many))) ++ ')' :: rest =
        n ++ ',' :: (v ++ (one ++ ',' :: (w ++ (many ++ ')' :: rest)))) := by simp
    have hfurther : furtherTail? (')' :: rest) = none := rfl
    rw [balancedArguments?, balancedPlural?, hcs, digits?_append hne hn, Option.bind_some,
      literalArgument?_eq_some_iff.2 ⟨v, one, hv, hone.literal, rfl⟩, Option.bind_some,
      literalArgument?_eq_some_iff.2 ⟨w, many, hw, hmany.literal, rfl⟩, Option.bind_some, hfurther]
    rfl

/-- No arguments in the balanced reading begin a call without replacements. -/
theorem not_balancedArguments_of_clearLiterals {args : List Char}
    (hlits : ClearLiterals .formatPlural lits) (hp : args <+: lits ++ ')' :: rest) :
    ¬ BalancedArguments .formatPlural args := by
  intro hargs
  obtain ⟨more, hmore⟩ := hp
  have hread := balancedArguments?_eq_some_iff.2 ⟨args, hargs, hmore.symm⟩
  rw [balancedArguments?_clearLiterals_paren hlits] at hread
  exact absurd hread (by simp)

/-! ### What is reported -/

/-- No match begins inside of another. -/
theorem not_covered_start {start : Nat} {cs : List Char} {m : Match}
    (hm : m ∈ findFrom mode shape start cs) :
    ¬ Covered (findFrom mode shape start cs) m.start := by
  fun_induction findFrom mode shape start cs with
  | case1 => exact absurd hm List.not_mem_nil
  | case2 start c cs call rest _ stop ih =>
    intro hcov
    obtain ⟨m', hm', hbefore, hafter⟩ := hcov
    rcases List.mem_cons.1 hm with rfl | hm
    · rcases List.mem_cons.1 hm' with rfl | hm'
      · exact Nat.lt_irrefl _ hbefore
      · have hlater := le_start_of_mem_findFrom hm'
        have hle : start ≤ stop := Nat.le_add_right start _
        exact absurd hbefore (Nat.not_lt.2 (Nat.le_trans hle hlater))
    · rcases List.mem_cons.1 hm' with rfl | hm'
      · exact absurd hafter (Nat.not_lt.2 (le_start_of_mem_findFrom hm))
      · exact ih hm ⟨m', hm', hbefore, hafter⟩
  | case3 start c cs skipped rest _ ih => exact ih hm

/-- A match of a source that begins at a given place is read there. -/
theorem exists_whole_at {source : String} {pre hd body : List Char} {m : Match}
    (hhd : IsHead shape hd) (hsource : source.toList = pre ++ (hd ++ body))
    (hm : m ∈ find mode shape source) (hstart : m.start = byteLength pre) :
    ∃ args, Whole mode shape args ∧ args <+: body := by
  obtain ⟨pre', hd', args, rest, hhd', hargs, hcs, rfl⟩ := exists_of_mem_find hm
  obtain ⟨rfl, hcut⟩ := append_inj_of_byteLength_eq (hcs.symm.trans hsource) hstart
  rw [List.append_assoc] at hcut
  obtain ⟨-, rfl⟩ := hhd'.append_inj hhd hcut
  exact ⟨args, hargs, List.prefix_append args rest⟩

/-- The lazy search takes in each place of a source at which a call begins. -/
theorem exists_cover_of_source {source : String} {pre hd args rest : List Char}
    (hhd : IsHead shape hd) (hargs : LazyArguments shape args)
    (hsource : source.toList = pre ++ (hd ++ (args ++ rest))) :
    ∃ m ∈ find .lazy shape source, m.start ≤ byteLength pre ∧ byteLength pre < m.stop := by
  have hcall : LazyCall shape (hd ++ args) := ⟨hd, args, hhd, hargs, rfl⟩
  obtain ⟨x, hx⟩ := hargs.exists_paren
  have hp : pre ++ (hd ++ x) ++ [')'] <+: source.toList := ⟨rest, by rw [hsource, hx]; simp⟩
  have hsearch : pre ++ (hd ++ args) <+: throughLastParen source.toList := by
    simpa [hx] using prefix_throughLastParen hp
  obtain ⟨m, hm, hfrom, hto⟩ := (shortestScan_findFrom shape 0 _).exists_cover hcall hsearch
  rw [Nat.zero_add] at hfrom hto
  exact ⟨m, hm, hfrom, hto⟩

/-- **Which calls without replacements are reported.**  A match begins at a call for a count that
ends after its two literals exactly if the reading is the lazy one, the text after the call goes on
with a quotation mark before a comma and a later parenthesis, and no earlier match covers the
place. -/
theorem exists_match_iff_runsOn {source : String} {pre hd : List Char}
    (hhd : IsHead .formatPlural hd) (hlits : ClearLiterals .formatPlural lits)
    (hsource : source.toList = pre ++ (hd ++ (lits ++ ')' :: rest))) :
    (∃ m ∈ find mode .formatPlural source, m.start = byteLength pre) ↔
      mode = .lazy ∧ RunsOn rest ∧ ¬ Covered (find mode .formatPlural source) (byteLength pre) := by
  constructor
  · intro h
    obtain ⟨m, hm, hstart⟩ := h
    obtain ⟨args, hargs, hp⟩ := exists_whole_at hhd hsource hm hstart
    have hclear := not_covered_start hm
    rw [hstart] at hclear
    cases mode with
    | lazy =>
      have hruns := (exists_lazyArguments_iff hlits).1 ⟨args, hp, (whole_lazy_iff.1 hargs).word⟩
      exact ⟨rfl, hruns, hclear⟩
    | balanced =>
      exact absurd (whole_balanced_iff.1 hargs).1 (not_balancedArguments_of_clearLiterals hlits hp)
  · intro h
    obtain ⟨rfl, hruns, hclear⟩ := h
    obtain ⟨args, ⟨more, hmore⟩, hargs⟩ := (exists_lazyArguments_iff hlits).2 hruns
    rw [← hmore] at hsource
    obtain ⟨m, hm, hfrom, hto⟩ := exists_cover_of_source hhd hargs hsource
    have hnot : ¬ m.start < byteLength pre := fun hlt => hclear ⟨m, hm, hlt, hto⟩
    exact ⟨m, hm, Nat.le_antisymm hfrom (Nat.not_lt.1 hnot)⟩

/-- The literals of a call for a count that ends right after them. -/
theorem clearLiterals_two_letters : ClearLiterals .formatPlural "5, 'a', 'b'".toList := by
  have hliteral : ∀ c, c ≠ '\x27' → c ≠ '\\' → ¬ isQuote c → ClearLiteral ['\x27', c, '\x27'] := by
    intro c hmark hescape hquote
    exact ⟨'\x27', [c], rfl, .plain hmark hescape .nil, List.forall_mem_singleton.2 hquote, rfl⟩
  have hblank : ∀ x ∈ [' '], Text.isScriptBlank x := List.forall_mem_singleton.2 (by decide)
  exact .formatPlural (n := ['5']) (v := [' ']) (w := [' ']) (List.cons_ne_nil _ _)
    (List.forall_mem_singleton.2 (by decide)) hblank hblank
    (hliteral 'a' (by decide) (by decide) (by decide))
    (hliteral 'b' (by decide) (by decide) (by decide))

/-- The lazy search takes this call and the next for one. -/
theorem find_lazy_two_letters :
    find .lazy .formatPlural "x = Drupal.formatPlural(5, 'a', 'b'); f('c', d)" =
      [⟨.formatPlural, "Drupal.formatPlural(5, 'a', 'b'); f('c', d)", 4, 47⟩] := by
  decide +kernel

/-- The text after the call below goes on so that the lazy reading takes it for the rest of the
second literal and for replacements.  The balanced reading reports nothing there. -/
theorem runsOn_into_next_call :
    (∃ m ∈ find .lazy .formatPlural "x = Drupal.formatPlural(5, 'a', 'b'); f('c', d)",
      m.start = 4) ∧
    ¬ ∃ m ∈ find .balanced .formatPlural "x = Drupal.formatPlural(5, 'a', 'b'); f('c', d)",
      m.start = 4 := by
  have hhd : IsHead .formatPlural "Drupal.formatPlural(".toList := Or.inl rfl
  have hsource : "x = Drupal.formatPlural(5, 'a', 'b'); f('c', d)".toList =
      "x = ".toList ++ ("Drupal.formatPlural(".toList ++
        ("5, 'a', 'b'".toList ++ ')' :: "; f('c', d)".toList)) := rfl
  have hruns : RunsOn "; f('c', d)".toList :=
    ⟨"; f('c".toList, '\x27', " d".toList, [], rfl, rfl⟩
  have hclear : ¬ Covered
      (find .lazy .formatPlural "x = Drupal.formatPlural(5, 'a', 'b'); f('c', d)") 4 := by
    rw [find_lazy_two_letters]
    rintro ⟨m, hm, hbefore, -⟩
    rw [List.mem_singleton.1 hm] at hbefore
    exact Nat.lt_irrefl _ hbefore
  constructor
  · exact (exists_match_iff_runsOn hhd clearLiterals_two_letters hsource).2 ⟨rfl, hruns, hclear⟩
  · intro h
    have hmode := ((exists_match_iff_runsOn hhd clearLiterals_two_letters hsource).1 h).1
    exact absurd hmode (by decide)

/-- **Not every call without replacements is passed.**  In the source below the lazy reading reports
one that goes on into the next call. -/
theorem not_forall_not_exists_match :
    ¬ ∀ (mode : Mode) (source : String) (pre hd lits rest : List Char), IsHead .formatPlural hd →
      ClearLiterals .formatPlural lits → '\\' ∉ lits →
      source.toList = pre ++ (hd ++ (lits ++ ')' :: rest)) →
      ¬ ∃ m ∈ find mode .formatPlural source, m.start = byteLength pre := by
  intro h
  have hmiss := h .lazy "x = Drupal.formatPlural(5, 'a', 'b'); f('c', d)" "x = ".toList
    "Drupal.formatPlural(".toList "5, 'a', 'b'".toList "; f('c', d)".toList (Or.inl rfl)
    clearLiterals_two_letters (by decide) rfl
  rw [find_lazy_two_letters] at hmiss
  exact hmiss ⟨_, List.mem_singleton_self _, rfl⟩

end CallHarvest.Call
