import CallHarvest.Proofs.Call.Boundaries
import CallHarvest.Proofs.Call.Whole
import CallHarvest.Proofs.Text.Offset

/-!
# The ranges of calls

The place of a call is told by two byte offsets.  They are valid positions of the source, between
which it has the text of the call, and the calls of a search follow each other.  The search with a
cursor comes to the same calls, and never to an offset at which the source cannot be cut.

* `find_eq` — a search of the text up to the last parenthesis is one of all the text.
* `scanFrom_eq`, `scan_eq` — **the search with a cursor** finds the calls that are found without
  one; `candidate_cases` tells what it does with a candidate.
* `pairwise_find` — matches are in the order of their places, and none begins inside another.
* `find_ranges` — **the ranges of a source**.
-/

namespace CallHarvest.Call

open CallHarvest.Text (append_eq_append_cases append_inj_of_byteLength_eq atByte? atByte?_append
  atByte?_eq_some_iff before_append_right byteLength byteLength_append byteLength_cons
  byteLength_pos extract_of_slice? prefix_of_prefix_append slice? slice?_eq_some_iff)

variable {mode : Mode} {shape : Shape}

/-! ### The text after the last parenthesis -/

theorem findFrom_of_no_paren {start : Nat} {cs : List Char} (h : ')' ∉ cs) :
    findFrom mode shape start cs = [] := by
  refine List.eq_nil_iff_forall_not_mem.2 fun m hm => h ?_
  obtain ⟨pre, hd, args, rest, -, hargs, rfl, -⟩ := exists_of_mem_findFrom hm
  obtain ⟨x, rfl⟩ := hargs.exists_paren
  simp

/-- No character of a head is one that arguments begin with. -/
theorem IsHead.not_first {hd : List Char} (h : IsHead shape hd) :
    ∀ c ∈ hd, ¬ (isQuote c ∨ c.isDigit) := by
  have hall : hd.all (fun c => !(isQuote c || c.isDigit)) := by
    rcases h with rfl | rfl <;> cases shape <;> rfl
  intro c hc
  simpa using List.all_eq_true.1 hall c hc

/-- No call begins where the last parenthesis comes before the end of a head. -/
theorem findFrom_of_cut_head {start : Nat} {cs t junk : List Char} (h : IsHead shape (cs ++ t))
    (hj : ')' ∉ junk) : findFrom mode shape start (cs ++ junk) = [] := by
  refine List.eq_nil_iff_forall_not_mem.2 fun m hm => ?_
  obtain ⟨pre, hd, args, rest, -, hargs, hcs, -⟩ := exists_of_mem_findFrom hm
  obtain ⟨x, hx⟩ := hargs.exists_paren
  have hprefix : pre ++ hd ++ x ++ [')'] <+: cs :=
    prefix_of_prefix_append hj ⟨rest, by rw [hcs, hx]; simp⟩
  obtain ⟨c, args, hc, rfl⟩ := hargs.exists_first
  have hmem : c ∈ cs := hprefix.subset (by rw [List.append_assoc, ← hx]; simp)
  exact h.not_first c (List.mem_append_left t hmem) hc

/-- What is read as arguments ends with a parenthesis, so that text without one after it makes no
difference. -/
theorem arguments?_append_junk {cs junk : List Char} (hj : ')' ∉ junk) :
    arguments? mode shape (cs ++ junk) = (arguments? mode shape cs).map (· ++ junk) := by
  cases h : arguments? mode shape cs with
  | some rest =>
    obtain ⟨args, hargs, rfl⟩ := exists_whole_of_arguments? h
    rw [List.append_assoc, hargs.arguments?_append, Option.map_some]
  | none =>
    rw [Option.map_none]
    refine Option.eq_none_iff_forall_ne_some.2 fun rest' hread => ?_
    obtain ⟨args, hargs, hcut⟩ := exists_whole_of_arguments? hread
    obtain ⟨x, hx⟩ := hargs.exists_paren
    have hprefix : x ++ [')'] <+: cs :=
      prefix_of_prefix_append hj ⟨rest', by rw [← hx, ← hcut]⟩
    obtain ⟨rest, hrest⟩ := hprefix
    rw [← hrest, ← hx, hargs.arguments?_append] at h
    exact nomatch h

/-- A head without complete arguments is passed: all of it in the balanced reading, its first
character in the lazy one. -/
theorem exists_passed (mode : Mode) {hd : List Char} (hhd : IsHead shape hd) :
    ∃ x y, hd = x ++ y ∧ x ≠ [] ∧ ∀ start body, arguments? mode shape body = none →
      findFrom mode shape start (hd ++ body) =
        findFrom mode shape (start + byteLength x) (y ++ body) := by
  cases mode with
  | balanced => exact ⟨hd, [], by simp, hhd.ne_nil, fun _ _ hbody => findFrom_of_rejected hhd hbody⟩
  | lazy =>
    obtain ⟨c, cs, rfl⟩ := List.exists_cons_of_ne_nil hhd.ne_nil
    refine ⟨[c], cs, rfl, List.cons_ne_nil c [], fun start body hbody => ?_⟩
    have hnone : call? .lazy shape (c :: (cs ++ body)) = none := by
      rw [← List.cons_append, call?, afterHead?_append hhd, Option.bind_some, hbody]
    exact findFrom_of_passed (attempt_lazy_of_no_call? hnone)

/-- What the search does at a head does not depend on text without a parenthesis at the end. -/
theorem exists_step_of_head (mode : Mode) {hd : List Char} (hhd : IsHead shape hd)
    (cs : List Char) (start : Nat) :
    ∃ taken left ms, hd ++ cs = taken ++ left ∧ taken ≠ [] ∧ ∀ junk, ')' ∉ junk →
      findFrom mode shape start (hd ++ cs ++ junk) =
        ms ++ findFrom mode shape (start + byteLength taken) (left ++ junk) := by
  cases hread : arguments? mode shape cs with
  | some rest =>
    obtain ⟨args, hargs, rfl⟩ := exists_whole_of_arguments? hread
    have hne : hd ++ args ≠ [] := List.append_ne_nil_of_left_ne_nil hhd.ne_nil args
    refine ⟨hd ++ args, rest, [callMatch shape (hd ++ args) start],
      (List.append_assoc hd args rest).symm, hne, fun junk _ => ?_⟩
    rw [← List.append_assoc hd, List.append_assoc (hd ++ args),
      findFrom_of_call? hne (call?_of_whole hhd hargs _)]
    rfl
  | none =>
    obtain ⟨x, y, rfl, hx, hpass⟩ := exists_passed mode hhd
    refine ⟨x, y ++ cs, [], List.append_assoc x y cs, hx, fun junk hj => ?_⟩
    have hjunk : arguments? mode shape (cs ++ junk) = none := by
      rw [arguments?_append_junk hj, hread, Option.map_none]
    rw [List.append_assoc, hpass start _ hjunk, List.nil_append, List.append_assoc y]

/-- **Text without a parenthesis at the end of a source makes no difference.** -/
theorem findFrom_append_junk {start : Nat} {cs junk : List Char} (hj : ')' ∉ junk) :
    findFrom mode shape start (cs ++ junk) = findFrom mode shape start cs := by
  induction hn : cs.length using Nat.strongRecOn generalizing start cs with
  | ind n ih =>
    subst hn
    cases cs with
    | nil => rw [List.nil_append, findFrom_of_no_paren hj, findFrom]
    | cons c cs =>
      cases hafter : afterHead? shape (c :: cs ++ junk) with
      | none =>
        have hnone : afterHead? shape (c :: cs) = none := by
          refine Option.eq_none_iff_forall_ne_some.2 fun body hbody => ?_
          obtain ⟨hd, hhd, hcs⟩ := exists_of_afterHead? hbody
          rw [hcs, List.append_assoc, afterHead?_append hhd] at hafter
          exact absurd hafter (by simp)
        rw [List.cons_append] at hafter ⊢
        rw [findFrom_of_no_head hnone, findFrom_of_no_head hafter]
        exact ih cs.length (Nat.lt_succ_self _) rfl
      | some body =>
        obtain ⟨hd, hhd, hcs⟩ := exists_of_afterHead? hafter
        rcases append_eq_append_cases hcs with ⟨e, hcut, -⟩ | ⟨t, -, hcut, -⟩
        · obtain ⟨taken, left, ms, htaken, hne, hstep⟩ :=
            exists_step_of_head mode hhd e start
          have hbase := hstep [] List.not_mem_nil
          rw [List.append_nil, List.append_nil] at hbase
          have hpos := List.length_pos_iff.2 hne
          have hlt : left.length < (c :: cs).length := by
            rw [hcut, htaken, List.length_append]
            omega
          rw [hcut, hstep junk hj, hbase, ih left.length hlt rfl]
        · -- the head goes on in the text after the last parenthesis
          rw [hcut] at hhd
          have hbase : findFrom mode shape start (c :: cs ++ []) = [] :=
            findFrom_of_cut_head hhd List.not_mem_nil
          rw [List.append_nil] at hbase
          rw [findFrom_of_cut_head hhd hj, hbase]

/-- The calls of a source are those of all its text. -/
theorem find_eq (source : String) :
    find mode shape source = findFrom mode shape 0 source.toList := by
  obtain ⟨junk, hjunk, hparen⟩ := throughLastParen_append source.toList
  rw [find, ← findFrom_append_junk hparen, hjunk]

/-! ### The next head -/

theorem findFrom_of_firstHead?_none {start : Nat} {cs : List Char}
    (h : firstHead? shape start cs = none) : findFrom mode shape start cs = [] := by
  fun_induction firstHead? shape start cs with
  | case1 => rw [findFrom]
  | case2 => exact absurd h (by simp)
  | case3 start c cs hhead ih => rw [findFrom_of_no_head hhead, ih h]

/-- The search goes on to the next head, which is found at its place. -/
theorem exists_of_firstHead? (mode : Mode) {start first body : Nat} {cs : List Char}
    (h : firstHead? shape start cs = some (first, body)) :
    ∃ skipped hd more, IsHead shape hd ∧ cs = skipped ++ (hd ++ more) ∧
      first = start + byteLength skipped ∧ body = first + byteLength hd ∧
      findFrom mode shape start cs = findFrom mode shape first (hd ++ more) := by
  fun_induction firstHead? shape start cs with
  | case1 => exact absurd h (by simp)
  | case2 start c cs rest hhead =>
    obtain ⟨rfl, rfl⟩ := Prod.mk.inj (Option.some.inj h)
    obtain ⟨hd, hhd, hcs⟩ := exists_of_afterHead? hhead
    rw [hcs, before_append_right]
    exact ⟨[], hd, rest, hhd, rfl, rfl, rfl, rfl⟩
  | case3 start c cs hhead ih =>
    obtain ⟨skipped, hd, more, hhd, rfl, rfl, hbody, hfind⟩ := ih h
    refine ⟨c :: skipped, hd, more, hhd, rfl, ?_, hbody, ?_⟩
    · rw [byteLength_cons, Nat.add_assoc]
    · rw [findFrom_of_no_head hhead, hfind]

/-! ### The search with a cursor -/

/-- A candidate is complete, and then it can be cut out of the source; or it is rejected, and then
what was read of it can be. -/
theorem candidate_cases {source rest : List Char} {start first body : Nat}
    (hrest : atByte? start source = some rest)
    (hhead : firstHead? shape start rest = some (first, body)) :
    (∃ stop call more, readArguments shape source body = .ok stop ∧
        slice? first stop source = some call ∧ atByte? stop source = some more ∧
        findFrom .balanced shape start rest =
          ⟨shape, String.ofList call, first, stop⟩ :: findFrom .balanced shape stop more) ∨
      ∃ pos read more, readArguments shape source body = .error (.rejected pos) ∧
        slice? first pos source = some read ∧ atByte? body source = some more ∧
        findFrom .balanced shape start rest = findFrom .balanced shape body more := by
  obtain ⟨pre, rfl, rfl⟩ := atByte?_eq_some_iff.1 hrest
  obtain ⟨skipped, hd, more, hhd, rfl, rfl, rfl, hfind⟩ := exists_of_firstHead? .balanced hhead
  have hsource : pre ++ (skipped ++ (hd ++ more)) = (pre ++ skipped ++ hd) ++ more := by simp
  have hfirst : byteLength pre + byteLength skipped = byteLength (pre ++ skipped) :=
    (byteLength_append pre skipped).symm
  have hbody : byteLength (pre ++ skipped) + byteLength hd = byteLength (pre ++ skipped ++ hd) :=
    (byteLength_append _ hd).symm
  rw [hfind, hsource, hfirst, hbody]
  rcases readArguments_cases shape (pre ++ skipped ++ hd) more with
    ⟨args, rest, rfl, hargs, hread⟩ | ⟨hnone, pos, read, hslice, hread⟩
  · have hstop : byteLength (pre ++ skipped) + byteLength (hd ++ args) =
        byteLength (pre ++ skipped ++ hd ++ args) := by
      simp [Nat.add_assoc]
    have hne : hd ++ args ≠ [] := List.append_ne_nil_of_left_ne_nil hhd.ne_nil args
    refine Or.inl ⟨_, hd ++ args, rest, hread, ?_, ?_, ?_⟩
    · exact slice?_eq_some_iff.2 ⟨pre ++ skipped, rest, by simp, rfl, hstop⟩
    · exact atByte?_eq_some_iff.2 ⟨_, (List.append_assoc _ args rest).symm, rfl⟩
    · rw [← List.append_assoc hd, findFrom_of_call? hne (call?_balanced hhd hargs), hstop]
  · obtain ⟨front, rest, hcut, hfront, rfl⟩ := slice?_eq_some_iff.1 hslice
    obtain ⟨rfl, rfl⟩ := append_inj_of_byteLength_eq hcut hfront.symm
    refine Or.inr ⟨_, hd ++ read, read ++ rest, hread, ?_, atByte?_append _ _, ?_⟩
    · exact slice?_eq_some_iff.2
        ⟨pre ++ skipped, rest, by simp, rfl, by simp [Nat.add_assoc]⟩
    · rw [findFrom_of_rejected hhd hnone, hbody]

/-- **The search with a cursor cuts the source between characters only**, and finds the calls that
are found without one. -/
theorem scanFrom_eq {start : Nat} {source rest : List Char}
    (hrest : atByte? start source = some rest) :
    scanFrom shape source start = .ok (findFrom .balanced shape start rest) := by
  -- where a step of the search would fail, `candidate_cases` says that it does not
  fun_induction scanFrom shape source start generalizing rest with
  | case1 start hnone => exact nomatch hnone.symm.trans hrest
  | case2 start rest' hrest' hhead =>
    obtain rfl := Option.some.inj (hrest.symm.trans hrest')
    rw [findFrom_of_firstHead?_none hhead]
  | case3 start rest' hrest' first body hhead stop hread hslice =>
    rcases candidate_cases hrest' hhead with
      ⟨stop', call, more, hread', hslice', -, -⟩ | ⟨pos, read, more, hread', -, -, -⟩
    · obtain rfl := Except.ok.inj (hread.symm.trans hread')
      exact nomatch hslice.symm.trans hslice'
    · exact nomatch hread.symm.trans hread'
  | case4 start rest' hrest' first body hhead stop hread call hslice ih =>
    obtain rfl := Option.some.inj (hrest.symm.trans hrest')
    rcases candidate_cases hrest' hhead with
      ⟨stop', call', more, hread', hslice', hmore, hfind⟩ | ⟨pos, read, more, hread', -, -, -⟩
    · obtain rfl := Except.ok.inj (hread.symm.trans hread')
      obtain rfl := Option.some.inj (hslice.symm.trans hslice')
      rw [ih hmore, hfind]
      rfl
    · exact nomatch hread.symm.trans hread'
  | case5 start rest' hrest' first body hhead pos hread hslice =>
    rcases candidate_cases hrest' hhead with
      ⟨stop, call, more, hread', -, -, -⟩ | ⟨pos', read, more, hread', hslice', -, -⟩
    · exact nomatch hread.symm.trans hread'
    · obtain rfl := Failure.rejected.inj (Except.error.inj (hread.symm.trans hread'))
      exact nomatch hslice.symm.trans hslice'
  | case6 start rest' hrest' first body hhead pos hread read hslice ih =>
    obtain rfl := Option.some.inj (hrest.symm.trans hrest')
    rcases candidate_cases hrest' hhead with
      ⟨stop, call, more, hread', -, -, -⟩ | ⟨pos', read', more, -, -, hmore, hfind⟩
    · exact nomatch hread.symm.trans hread'
    · rw [ih hmore, hfind]
  | case7 start rest' hrest' first body hhead hread =>
    rcases candidate_cases hrest' hhead with
      ⟨stop, call, more, hread', -, -, -⟩ | ⟨pos, read, more, hread', -, -, -⟩
    · exact nomatch hread.symm.trans hread'
    · exact nomatch hread.symm.trans hread'

/-- The search of a source with a cursor finds its calls. -/
theorem scan_eq (shape : Shape) (source : String) :
    scan shape source = .ok (find .balanced shape source) := by
  rw [find_eq]
  exact scanFrom_eq (atByte?_append [] source.toList)

/-- Characters of two bytes stand before the call, in its literal and after its comma. -/
example : scan .translate "é Drupal.t(é) Drupal.t('ü',é)" =
    .ok [⟨.translate, "Drupal.t('ü',é)", 16, 33⟩] := by
  have hfind : find .balanced .translate "é Drupal.t(é) Drupal.t('ü',é)" =
      [⟨.translate, "Drupal.t('ü',é)", 16, 33⟩] := by decide +kernel
  rw [scan_eq, hfind]

/-! ### The ranges -/

theorem pairwise_findFrom (mode : Mode) (shape : Shape) (start : Nat) (cs : List Char) :
    (findFrom mode shape start cs).Pairwise fun m m' => m.start < m'.start ∧ m.stop ≤ m'.start := by
  fun_induction findFrom mode shape start cs with
  | case1 => exact .nil
  | case2 start c cs call rest hattempt stop ih =>
    refine List.pairwise_cons.2 ⟨fun m' hm' => ?_, ih⟩
    obtain ⟨hd, args, hhd, -, rfl, -⟩ := exists_of_attempt hattempt
    have hpos := byteLength_pos (List.append_ne_nil_of_left_ne_nil hhd.ne_nil args)
    have hle := le_start_of_mem_findFrom hm'
    exact ⟨Nat.lt_of_lt_of_le (Nat.lt_add_of_pos_right hpos) hle, hle⟩
  | case3 start c cs skipped rest hattempt ih => exact ih

/-- Matches are in the order of their places, and none begins inside another. -/
theorem pairwise_find (mode : Mode) (shape : Shape) (source : String) :
    (find mode shape source).Pairwise fun m m' => m.start < m'.start ∧ m.stop ≤ m'.start :=
  pairwise_findFrom mode shape 0 _

/-- The range of a match is not empty, and is that of its text, which is a call. -/
theorem slice?_of_mem_find {source : String} {m : Match} (h : m ∈ find mode shape source) :
    m.shape = shape ∧ m.start < m.stop ∧
      slice? m.start m.stop source.toList = some m.text.toList ∧
      ∃ hd args, IsHead shape hd ∧ m.text.toList = hd ++ args ++ [')'] := by
  obtain ⟨pre, hd, args, rest, hhd, hargs, hsource, rfl⟩ := exists_of_mem_find h
  have hpos := byteLength_pos (List.append_ne_nil_of_left_ne_nil hhd.ne_nil args)
  obtain ⟨x, rfl⟩ := hargs.exists_paren
  have htext : (callMatch shape (hd ++ (x ++ [')'])) (byteLength pre)).text.toList =
      hd ++ (x ++ [')']) := String.toList_ofList
  rw [htext]
  refine ⟨rfl, Nat.lt_add_of_pos_right hpos, ?_, hd, x, hhd, (List.append_assoc hd x _).symm⟩
  exact slice?_eq_some_iff.2 ⟨pre, rest, hsource, rfl, rfl⟩

/-- **The ranges of a source.**  Each match has the range of its text: between two valid positions,
not empty, and with a call of the shape as its text.  The ranges are ascending and disjoint.  The
search with a cursor finds these matches and never fails to cut the source; from any place between
two characters the cursor comes to the end of arguments if there are any within the limit, and
otherwise rejects the candidate at a valid position. -/
theorem find_ranges (mode : Mode) (shape : Shape) (source : String) :
    (∀ m ∈ find mode shape source,
        m.shape = shape ∧ m.start < m.stop ∧ m.stop ≤ source.utf8ByteSize ∧
          String.Pos.Raw.IsValid source ⟨m.start⟩ ∧ String.Pos.Raw.IsValid source ⟨m.stop⟩ ∧
          String.Pos.Raw.extract source ⟨m.start⟩ ⟨m.stop⟩ = m.text ∧
          ∃ hd args, IsHead shape hd ∧ m.text.toList = hd ++ args ++ [')']) ∧
      (find mode shape source).Pairwise (fun m m' => m.start < m'.start ∧ m.stop ≤ m'.start) ∧
      scan shape source = .ok (find .balanced shape source) ∧
      ∀ pre body, source.toList = pre ++ body →
        (∃ args rest, body = args ++ rest ∧ BalancedArguments shape args ∧
            byteLength args ≤ callLimit ∧
            readArguments shape source.toList (byteLength pre) = .ok (byteLength (pre ++ args))) ∨
          ((∀ args, args <+: body → BalancedArguments shape args → callLimit < byteLength args) ∧
            ∃ pos, byteLength pre ≤ pos ∧ String.Pos.Raw.IsValid source ⟨pos⟩ ∧
              readArguments shape source.toList (byteLength pre) = .error (.rejected pos)) := by
  refine ⟨fun m hm => ?_, pairwise_find mode shape source, scan_eq shape source, ?_⟩
  · obtain ⟨hshape, hlt, hslice, hcall⟩ := slice?_of_mem_find hm
    obtain ⟨hstart, hstop, hle, hextract⟩ := extract_of_slice? hslice
    rw [String.ofList_toList] at hextract
    exact ⟨hshape, hlt, hle, hstart, hstop, hextract, hcall⟩
  · intro pre body hsource
    rw [hsource]
    rcases readArguments_cases shape pre body with
      ⟨args, rest, hbody, hargs, hread⟩ | ⟨hnone, pos, read, hslice, hread⟩
    · obtain ⟨w, hw, hlen, hword⟩ := limitedArguments?_eq_some_iff.1 hargs
      obtain rfl : args = w := List.append_cancel_right (hbody.symm.trans hw)
      exact Or.inl ⟨args, rest, hbody, hword, hlen, hread⟩
    · refine Or.inr ⟨fun args hprefix hword => ?_, pos, ?_, ?_, hread⟩
      · obtain ⟨rest, hrest⟩ := hprefix
        by_contra hlen
        have hargs := limitedArguments?_eq_some_iff.2 ⟨args, hrest.symm, Nat.not_lt.1 hlen, hword⟩
        exact nomatch hnone.symm.trans hargs
      · obtain ⟨-, -, -, -, hpos⟩ := slice?_eq_some_iff.1 hslice
        exact hpos ▸ Nat.le_add_right _ _
      · rw [← hsource] at hslice
        exact (extract_of_slice? hslice).2.1

end CallHarvest.Call
