import CallHarvest.Proofs.Call.Exhaustive
import CallHarvest.Proofs.Call.LeftmostShortest

/-!
# Calls on their own

Which calls of a source are reported depends on what is in front of them.  What is reported is
nevertheless a call by itself: its arguments end where they end with nothing after them, and a
search of its text alone reports that text.

* `Whole` — arguments with nothing after them (`whole_lazy_iff`, `whole_balanced_iff`).
* `exists_of_mem_find` — **each match of a source is a whole call** at its place.
* `find_eq_singleton_iff` — the texts that are one whole call are those in which a search finds just
  one match, which is all of the text.
* `find_text_of_mem_find` — **a match is the same in any surroundings**.
-/

namespace CallHarvest.Call

open CallHarvest.Text (append_inj_of_byteLength_eq byteLength byteLength_append)

variable {mode : Mode} {shape : Shape}

/-! ### Whole arguments -/

/-- Arguments that are read to their end. -/
def Whole (mode : Mode) (shape : Shape) (args : List Char) : Prop :=
  arguments? mode shape args = some []

theorem whole_lazy_iff {args : List Char} :
    Whole .lazy shape args ↔ Shortest (LazyArguments shape) args args := by
  rw [Whole, arguments?, (readsShortest_lazyArguments? shape).eq_some_iff]
  simp only [List.append_nil]
  constructor
  · intro h
    obtain ⟨w, hw, rfl⟩ := h
    exact hw
  · intro h
    exact ⟨args, h, rfl⟩

theorem whole_balanced_iff {args : List Char} :
    Whole .balanced shape args ↔ BalancedArguments shape args ∧ byteLength args ≤ callLimit := by
  rw [Whole, arguments?, limitedArguments?_eq_some_iff]
  simp only [List.append_nil]
  constructor
  · intro h
    obtain ⟨w, rfl, hlen, hw⟩ := h
    exact ⟨hw, hlen⟩
  · intro h
    exact ⟨args, rfl, h.2, h.1⟩

/-- What is read as arguments are whole arguments, whatever comes after them. -/
theorem exists_whole_of_arguments? {cs rest : List Char}
    (h : arguments? mode shape cs = some rest) :
    ∃ args, Whole mode shape args ∧ cs = args ++ rest := by
  cases mode with
  | lazy =>
    obtain ⟨w, hw, hcs⟩ := (readsShortest_lazyArguments? shape).eq_some_iff.1 h
    have hleast : ∀ v, v <+: w → LazyArguments shape v → w.length ≤ v.length :=
      fun v hv => hw.least v (hv.trans hw.begins)
    exact ⟨w, whole_lazy_iff.2 ⟨List.prefix_rfl, hw.word, hleast⟩, hcs⟩
  | balanced =>
    obtain ⟨w, hcs, hlen, hw⟩ := limitedArguments?_eq_some_iff.1 h
    exact ⟨w, whole_balanced_iff.2 ⟨hw, hlen⟩, hcs⟩

/-- Whole arguments are read to their end, whatever comes after them. -/
theorem Whole.arguments?_append {args : List Char} (h : Whole mode shape args) (rest : List Char) :
    arguments? mode shape (args ++ rest) = some rest := by
  cases mode with
  | lazy =>
    have hw := whole_lazy_iff.1 h
    have hleast : ∀ v, v <+: args ++ rest → LazyArguments shape v → args.length ≤ v.length := by
      intro v hv hword
      rcases List.prefix_or_prefix_of_prefix hv (List.prefix_append args rest) with hle | hle
      · exact hw.least v hle hword
      · exact hle.length_le
    exact (readsShortest_lazyArguments? shape).eq_some_iff.2
      ⟨args, ⟨List.prefix_append args rest, hw.word, hleast⟩, rfl⟩
  | balanced =>
    obtain ⟨hw, hlen⟩ := whole_balanced_iff.1 h
    exact limitedArguments?_eq_some_iff.2 ⟨args, rfl, hlen, hw⟩

theorem Whole.exists_paren {args : List Char} (h : Whole mode shape args) :
    ∃ x, args = x ++ [')'] := by
  cases mode with
  | lazy => exact (whole_lazy_iff.1 h).word.exists_paren
  | balanced => exact (whole_balanced_iff.1 h).1.exists_paren

/-- Arguments begin with the mark of a literal or with a digit. -/
theorem Whole.exists_first {args : List Char} (h : Whole mode shape args) :
    ∃ c cs, (isQuote c ∨ c.isDigit) ∧ args = c :: cs := by
  have hdigits : ∀ {n more : List Char}, n ≠ [] → (∀ x ∈ n, x.isDigit) →
      ∃ c cs, (isQuote c ∨ c.isDigit) ∧ n ++ more = c :: cs := by
    intro n more hne hn
    obtain ⟨c, n, rfl⟩ := List.exists_cons_of_ne_nil hne
    exact ⟨c, n ++ more, Or.inr (hn c List.mem_cons_self), rfl⟩
  cases mode with
  | lazy =>
    cases (whole_lazy_iff.1 h).word with
    | translate hq _ => exact ⟨_, _, Or.inl hq, rfl⟩
    | formatPlural hne hn _ _ _ _ _ _ => simpa using hdigits hne hn
  | balanced =>
    cases (whole_balanced_iff.1 h).1 with
    | literal hl =>
      obtain ⟨q, text, hq, rfl⟩ := exists_cons_of_literal hl
      exact ⟨q, _, Or.inl hq, rfl⟩
    | further hl _ =>
      obtain ⟨q, text, hq, rfl⟩ := exists_cons_of_literal hl
      exact ⟨q, _, Or.inl hq, rfl⟩
    | formatPlural hne hn _ _ _ _ _ _ _ _ => exact hdigits hne hn

/-! ### What is reported -/

/-- A text begins with a head in one way. -/
theorem IsHead.append_inj {hd hd' x y : List Char} (hhd : IsHead shape hd)
    (hhd' : IsHead shape hd') (h : hd ++ x = hd' ++ y) : hd = hd' ∧ x = y := by
  have hx := afterHead?_append hhd x
  rw [h, afterHead?_append hhd' y] at hx
  obtain rfl := Option.some.inj hx
  exact ⟨List.append_cancel_right h, rfl⟩

theorem exists_of_attempt {c : Char} {cs call rest : List Char}
    (h : attempt mode shape c cs = .complete call rest) :
    ∃ hd args, IsHead shape hd ∧ Whole mode shape args ∧ call = hd ++ args ∧
      c :: cs = call ++ rest := by
  have hcs : call ++ rest = c :: cs := by
    have happend := attempt_append mode shape c cs
    rwa [h] at happend
  unfold attempt at h
  split at h
  · simp at h
  · rename_i body hbody
    obtain ⟨hd, hhd, hcut⟩ := exists_of_afterHead? hbody
    split at h
    · rename_i rest' _ hread
      obtain ⟨_, rfl⟩ := Attempt.complete.inj h
      obtain ⟨args, hargs, rfl⟩ := exists_whole_of_arguments? hread
      have hcall := hcs
      rw [hcut, ← List.append_assoc] at hcall
      exact ⟨hd, args, hhd, hargs, List.append_cancel_right hcall, hcs.symm⟩
    · simp at h
    · simp at h

theorem exists_of_mem_findFrom {start : Nat} {cs : List Char} {m : Match}
    (h : m ∈ findFrom mode shape start cs) :
    ∃ pre hd args rest, IsHead shape hd ∧ Whole mode shape args ∧
      cs = pre ++ (hd ++ args ++ rest) ∧
      m = callMatch shape (hd ++ args) (start + byteLength pre) := by
  -- in the cases of a later match, what the attempt took is put in front of the text before it
  fun_induction findFrom mode shape start cs with
  | case1 => simp at h
  | case2 start c cs call rest hattempt stop ih =>
    obtain ⟨hd, args, hhd, hargs, hcall, hcs⟩ := exists_of_attempt hattempt
    rcases List.mem_cons.1 h with hm | h
    · refine ⟨[], hd, args, rest, hhd, hargs, by rw [hcs, hcall]; rfl, ?_⟩
      rw [hm, ← hcall]
      rfl
    · obtain ⟨pre, hd', args', rest', hhd', hargs', rfl, rfl⟩ := ih h
      refine ⟨call ++ pre, hd', args', rest', hhd', hargs', ?_, ?_⟩
      · rw [hcs, ← List.append_assoc]
      · rw [byteLength_append, ← Nat.add_assoc]
  | case3 start c cs skipped rest hattempt ih =>
    obtain ⟨pre, hd, args, rest', hhd, hargs, hrest, rfl⟩ := ih h
    have happend := attempt_append mode shape c cs
    rw [hattempt] at happend
    refine ⟨skipped ++ pre, hd, args, rest', hhd, hargs, ?_, ?_⟩
    · rw [← happend, List.append_assoc, ← hrest]
      rfl
    · rw [byteLength_append, ← Nat.add_assoc]

/-- **Each match of a source is a whole call** that stands at its place. -/
theorem exists_of_mem_find {source : String} {m : Match} (h : m ∈ find mode shape source) :
    ∃ pre hd args rest, IsHead shape hd ∧ Whole mode shape args ∧
      source.toList = pre ++ (hd ++ args ++ rest) ∧
      m = callMatch shape (hd ++ args) (byteLength pre) := by
  obtain ⟨pre, hd, args, rest, hhd, hargs, hcs, hm⟩ := exists_of_mem_findFrom h
  obtain ⟨junk, hjunk, -⟩ := throughLastParen_append source.toList
  refine ⟨pre, hd, args, rest ++ junk, hhd, hargs, ?_, ?_⟩
  · rw [← hjunk, hcs]
    simp
  · rw [hm, Nat.zero_add]

theorem exists_text_of_mem_find {source : String} {m : Match} (h : m ∈ find mode shape source) :
    ∃ hd args, IsHead shape hd ∧ Whole mode shape args ∧ m.text.toList = hd ++ args := by
  obtain ⟨_, hd, args, _, hhd, hargs, -, rfl⟩ := exists_of_mem_find h
  exact ⟨hd, args, hhd, hargs, String.toList_ofList⟩

/-! ### A text that is a call -/

/-- The match for a text that is a call. -/
def wholeMatch (shape : Shape) (text : String) : Match :=
  ⟨shape, text, 0, byteLength text.toList⟩

theorem throughLastParen_concat (x : List Char) :
    throughLastParen (x ++ [')']) = x ++ [')'] := by
  simp [throughLastParen]

/-- Where a whole call begins, a call is read, and this one. -/
theorem call?_of_whole {hd args : List Char} (hhd : IsHead shape hd) (hargs : Whole mode shape args)
    (rest : List Char) : call? mode shape (hd ++ args ++ rest) = some rest := by
  rw [List.append_assoc, call?, afterHead?_append hhd, Option.bind_some]
  exact hargs.arguments?_append rest

/-- A whole call is what a search of it finds. -/
theorem find_of_whole {text : String} {hd args : List Char} (hhd : IsHead shape hd)
    (hargs : Whole mode shape args) (htext : text.toList = hd ++ args) :
    find mode shape text = [wholeMatch shape text] := by
  obtain ⟨x, hx⟩ := hargs.exists_paren
  have hsearch : throughLastParen text.toList = hd ++ args ++ [] := by
    rw [htext, hx, ← List.append_assoc, throughLastParen_concat, List.append_nil]
  have hread := call?_of_whole hhd hargs []
  have hne : hd ++ args ≠ [] := List.append_ne_nil_of_left_ne_nil hhd.ne_nil args
  rw [find, hsearch, findFrom_of_call? hne hread, findFrom, ← htext, String.ofList_toList,
    Nat.zero_add]
  rfl

/-- **The texts that are one call** are those in which a search finds one match that is all of the
text. -/
theorem find_eq_singleton_iff {text : String} :
    find mode shape text = [wholeMatch shape text] ↔
      ∃ hd args, IsHead shape hd ∧ Whole mode shape args ∧ text.toList = hd ++ args := by
  constructor
  · intro h
    have hmem : wholeMatch shape text ∈ find mode shape text := by
      rw [h]
      exact List.mem_singleton_self _
    exact exists_text_of_mem_find hmem
  · intro h
    obtain ⟨hd, args, hhd, hargs, htext⟩ := h
    exact find_of_whole hhd hargs htext

/-! ### Calls in a context -/

/-- A search of a text that begins with a whole call finds that call first. -/
theorem find_append_of_whole {text : String} {hd args : List Char} (hhd : IsHead shape hd)
    (hargs : Whole mode shape args) (htext : text.toList = hd ++ args) (more : String) :
    ∃ ms, find mode shape (text ++ more) = wholeMatch shape text :: ms := by
  obtain ⟨x, hx⟩ := hargs.exists_paren
  have hbegins : hd ++ x ++ [')'] <+: (text ++ more).toList :=
    ⟨more.toList, by rw [String.toList_append, htext, hx, List.append_assoc hd]⟩
  obtain ⟨rest, hrest⟩ := prefix_throughLastParen hbegins
  have hsearch : throughLastParen (text ++ more).toList = hd ++ args ++ rest := by
    rw [← hrest, hx, List.append_assoc hd]
  have hne : hd ++ args ≠ [] := List.append_ne_nil_of_left_ne_nil hhd.ne_nil args
  refine ⟨findFrom mode shape (0 + byteLength (hd ++ args)) rest, ?_⟩
  rw [find, hsearch, findFrom_of_call? hne (call?_of_whole hhd hargs rest), ← htext,
    String.ofList_toList, Nat.zero_add]
  rfl

/-- Where a whole call stands, no other text is reported. -/
theorem text_eq_of_start_eq {source : String} {m : Match} {pre hd args rest : List Char}
    (h : m ∈ find mode shape source) (hhd : IsHead shape hd) (hargs : Whole mode shape args)
    (hsource : source.toList = pre ++ (hd ++ args ++ rest)) (hstart : m.start = byteLength pre) :
    m = callMatch shape (hd ++ args) (byteLength pre) := by
  obtain ⟨pre', hd', args', rest', hhd', hargs', hsource', rfl⟩ := exists_of_mem_find h
  obtain ⟨rfl, hcall⟩ := append_inj_of_byteLength_eq (hsource'.symm.trans hsource) hstart
  rw [List.append_assoc, List.append_assoc] at hcall
  obtain ⟨rfl, hbody⟩ := hhd'.append_inj hhd hcall
  have hread := hargs'.arguments?_append rest'
  rw [hbody, hargs.arguments?_append rest] at hread
  obtain rfl := Option.some.inj hread
  rw [List.append_cancel_right hbody]

/-- **A match is the same in any surroundings.**  A search of its text alone finds one match, which
is all of it; a search of a text that begins with it finds it first; and what is reported at a place
where its text stands, in any source, is that text. -/
theorem find_text_of_mem_find {source : String} {m : Match} (h : m ∈ find mode shape source) :
    find mode shape m.text = [⟨shape, m.text, 0, byteLength m.text.toList⟩] ∧
      (∀ more : String, ∃ ms, find mode shape (m.text ++ more) =
        ⟨shape, m.text, 0, byteLength m.text.toList⟩ :: ms) ∧
      ∀ (other : String) (pre rest : List Char), other.toList = pre ++ (m.text.toList ++ rest) →
        ∀ m' ∈ find mode shape other, m'.start = byteLength pre →
          m'.text = m.text ∧ m'.stop = m'.start + byteLength m.text.toList := by
  obtain ⟨hd, args, hhd, hargs, htext⟩ := exists_text_of_mem_find h
  refine ⟨find_of_whole hhd hargs htext, find_append_of_whole hhd hargs htext, ?_⟩
  intro other pre rest hother m' hm' hstart
  rw [htext] at hother
  obtain rfl := text_eq_of_start_eq hm' hhd hargs hother hstart
  rw [htext]
  exact ⟨String.toList_inj.1 (String.toList_ofList.trans htext.symm), rfl⟩

/-- The call in the argument of a rejected head. -/
theorem find_text_of_nested :
    ⟨.translate, "Drupal.t('é')", 13, 27⟩ ∈ find .balanced .translate "x Drupal.t(1 Drupal.t('é'), 2)" ∧
      find .balanced .translate "Drupal.t('é')" = [⟨.translate, "Drupal.t('é')", 0, 14⟩] := by
  have hmem : ⟨.translate, "Drupal.t('é')", 13, 27⟩ ∈
      find .balanced .translate "x Drupal.t(1 Drupal.t('é'), 2)" := by decide +kernel
  exact ⟨hmem, (find_text_of_mem_find hmem).1⟩

end CallHarvest.Call
