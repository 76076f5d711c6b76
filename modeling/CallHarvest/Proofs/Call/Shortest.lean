import CallHarvest.Call.Lazy
import CallHarvest.Proofs.Text.Cuts

/-!
# Shortest words

A reader gets the text at a place and answers with what is left of it.  This file ties readers to
languages: a reader that reads *shortest* succeeds exactly where some beginning of the text is a
word of its language, and then takes the shortest such beginning.

* `Shortest L cs w` — `w` is the shortest beginning of `cs` in the language `L`.
* `ReadsShortest read L` — the reader takes the shortest word (`ReadsShortest.eq_some_iff`).
* `Eager read` — from a later place the reader never comes to an earlier end.  This is what makes
  the first end of a literal that will do also the best one (`readsShortest_closing`).
* `LazyArguments` — the language of the arguments of a call in the lazy reading.
* `readsShortest_lazyArguments?` — the lazy reading takes the shortest arguments.
-/

namespace CallHarvest.Call

open CallHarvest.Text (isScriptBlank suffix_of_suffix_append)

/-- A word of `L` at the beginning of a text, no longer than any other. -/
structure Shortest (L : List Char → Prop) (cs w : List Char) : Prop where
  begins : w <+: cs
  word : L w
  least : ∀ v, v <+: cs → L v → w.length ≤ v.length

/-- A reader that takes the shortest word of `L`: what it takes is a word, and where a word begins
it succeeds and goes no further than the end of that word. -/
structure ReadsShortest (read : List Char → Option (List Char)) (L : List Char → Prop) : Prop where
  sound : ∀ cs rest, read cs = some rest → ∃ w, L w ∧ cs = w ++ rest
  reads : ∀ w more, L w → ∃ rest, read (w ++ more) = some rest ∧ more <:+ rest

/-- **What a reader of shortest words answers.** -/
theorem ReadsShortest.eq_some_iff {read : List Char → Option (List Char)} {L : List Char → Prop}
    (hr : ReadsShortest read L) {cs rest : List Char} :
    read cs = some rest ↔ ∃ w, Shortest L cs w ∧ cs = w ++ rest := by
  constructor
  · intro h
    obtain ⟨w, hw, hcs⟩ := hr.sound cs rest h
    refine ⟨w, ⟨⟨rest, hcs.symm⟩, hw, ?_⟩, hcs⟩
    intro v h hv
    obtain ⟨more, rfl⟩ := h
    obtain ⟨rest', h', hle⟩ := hr.reads v more hv
    obtain rfl : rest' = rest := Option.some.inj (h'.symm.trans h)
    have hlen := congrArg List.length hcs
    have := hle.length_le
    simp only [List.length_append] at hlen
    omega
  · intro h
    obtain ⟨w, hw, rfl⟩ := h
    obtain ⟨rest', h', hle⟩ := hr.reads w rest hw.word
    obtain ⟨v, hv, hcs⟩ := hr.sound _ _ h'
    have hwv := hw.least v ⟨rest', hcs.symm⟩ hv
    have hlen := congrArg List.length hcs
    simp only [List.length_append] at hlen
    rw [h', hle.eq_of_length (by have := hle.length_le; omega)]

/-- A reader fails exactly where no word of its language begins. -/
theorem ReadsShortest.eq_none_iff {read : List Char → Option (List Char)} {L : List Char → Prop}
    (hr : ReadsShortest read L) {cs : List Char} :
    read cs = none ↔ ∀ w, w <+: cs → ¬ L w := by
  constructor
  · intro h w hx hw
    obtain ⟨more, rfl⟩ := hx
    obtain ⟨rest, h', _⟩ := hr.reads w more hw
    rw [h] at h'
    exact absurd h' (Option.some_ne_none rest).symm
  · intro h
    cases hx : read cs with
    | none => rfl
    | some rest =>
      obtain ⟨w, hw, hcs⟩ := hr.sound cs rest hx
      exact absurd hw (h w ⟨rest, hcs.symm⟩)

/-- A reader that never comes to an earlier end from a later place. -/
def Eager (read : List Char → Option (List Char)) : Prop :=
  ∀ xs ys rest rest', ys <:+ xs → read xs = some rest → read ys = some rest' → rest' <:+ rest

/-- A language that every text may be put in front of is read eagerly. -/
theorem ReadsShortest.eager {read : List Char → Option (List Char)} {L : List Char → Prop}
    (hr : ReadsShortest read L) (hL : ∀ x w, L w → L (x ++ w)) : Eager read := by
  intro xs ys rest rest' h hx hy
  obtain ⟨x, rfl⟩ := h
  obtain ⟨w, hw, rfl⟩ := hr.sound ys rest' hy
  obtain ⟨rest'', h, hle⟩ := hr.reads (x ++ w) rest' (hL x w hw)
  rw [List.append_assoc, hx] at h
  exact Option.some.inj h ▸ hle

/-- A reader that answers like an eager one, where it answers, is eager. -/
theorem Eager.of_le {read base : List Char → Option (List Char)} (hb : Eager base)
    (h : ∀ cs rest, read cs = some rest → base cs = some rest) : Eager read :=
  fun xs ys rest rest' hs hx hy => hb xs ys rest rest' hs (h _ _ hx) (h _ _ hy)

/-! ### Up to a closing parenthesis -/

theorem throughParen_cons_paren (cs : List Char) : throughParen (')' :: cs) = some cs :=
  if_pos rfl

theorem throughParen_cons_of_ne {c : Char} (hc : c ≠ ')') (cs : List Char) :
    throughParen (c :: cs) = throughParen cs :=
  if_neg hc

theorem readsShortest_throughParen :
    ReadsShortest throughParen fun w => ∃ x, w = x ++ [')'] where
  sound cs rest h := by
    induction cs with
    | nil => simp [throughParen] at h
    | cons c cs ih =>
      rw [throughParen] at h
      split at h
      · rename_i hc
        obtain rfl : cs = rest := Option.some.inj h
        exact ⟨[c], ⟨[], by rw [hc]; rfl⟩, rfl⟩
      · obtain ⟨w, ⟨x, rfl⟩, rfl⟩ := ih h
        exact ⟨c :: (x ++ [')']), ⟨c :: x, rfl⟩, rfl⟩
  reads w more := by
    intro h
    obtain ⟨x, rfl⟩ := h
    induction x with
    | nil => exact ⟨more, rfl, List.suffix_rfl⟩
    | cons c x ih =>
      by_cases hc : c = ')'
      · subst hc
        exact ⟨x ++ [')'] ++ more, throughParen_cons_paren _, List.suffix_append _ _⟩
      · obtain ⟨rest, h, hle⟩ := ih
        exact ⟨rest, (throughParen_cons_of_ne hc _).trans h, hle⟩

theorem eager_throughParen : Eager throughParen := by
  apply readsShortest_throughParen.eager
  intro x w h
  obtain ⟨y, rfl⟩ := h
  exact ⟨x ++ y, by rw [List.append_assoc]⟩

/-- Further arguments: a comma, any text, and a closing parenthesis. -/
def FurtherWord (w : List Char) : Prop := ∃ x, w = ',' :: x ++ [')']

theorem readsShortest_furtherArguments : ReadsShortest furtherArguments FurtherWord where
  sound cs rest h := by
    unfold furtherArguments at h
    split at h
    · obtain ⟨w, ⟨x, rfl⟩, rfl⟩ := readsShortest_throughParen.sound _ _ h
      exact ⟨',' :: x ++ [')'], ⟨x, rfl⟩, rfl⟩
    · simp at h
  reads w more := by
    intro h
    obtain ⟨x, rfl⟩ := h
    exact readsShortest_throughParen.reads (x ++ [')']) more ⟨x, rfl⟩

theorem furtherArguments_le (cs rest : List Char) (h : furtherArguments cs = some rest) :
    throughParen cs = some rest := by
  unfold furtherArguments at h
  split at h
  · exact (throughParen_cons_of_ne (by decide) _).trans h
  · simp at h

theorem eager_furtherArguments : Eager furtherArguments :=
  eager_throughParen.of_le furtherArguments_le

/-- What follows the literal of a call for one text. -/
def AfterLiteralWord (w : List Char) : Prop := w = [')'] ∨ FurtherWord w

theorem readsShortest_afterLiteral : ReadsShortest afterLiteral AfterLiteralWord where
  sound cs rest h := by
    unfold afterLiteral at h
    split at h
    · obtain rfl := Option.some.inj h
      exact ⟨[')'], Or.inl rfl, rfl⟩
    · obtain ⟨w, hw, hcs⟩ := readsShortest_furtherArguments.sound _ _ h
      exact ⟨w, Or.inr hw, hcs⟩
  reads w more := by
    intro h
    rcases h with rfl | ⟨x, rfl⟩
    · exact ⟨more, rfl, List.suffix_rfl⟩
    · exact readsShortest_furtherArguments.reads _ more ⟨x, rfl⟩

theorem eager_afterLiteral : Eager afterLiteral := by
  apply eager_throughParen.of_le
  intro cs rest h
  unfold afterLiteral at h
  split at h
  · exact (throughParen_cons_paren _).trans h
  · exact furtherArguments_le _ _ h

/-! ### Literals -/

/-- The rest of an open literal and what has to follow it: any text, a quotation mark, and a word
of `L`. -/
def ClosingWord (L : List Char → Prop) (w : List Char) : Prop :=
  ∃ body q v, isQuote q ∧ L v ∧ w = body ++ q :: v

theorem closing_of_next {next : List Char → Option (List Char)} {c : Char} {cs rest : List Char}
    (hc : isQuote c) (h : next cs = some rest) : closing next (c :: cs) = some rest := by
  rw [closing, if_pos hc, h]

theorem closing_of_no_next {next : List Char → Option (List Char)} {c : Char} {cs : List Char}
    (h : isQuote c → next cs = none) : closing next (c :: cs) = closing next cs := by
  rw [closing]
  split
  · rename_i hc
    rw [h hc]
  · rfl

/-- A literal that can be closed at a place is closed there or earlier, and then nothing after it
goes on for longer. -/
theorem closing_append_quote {next : List Char → Option (List Char)} (he : Eager next) {q : Char}
    (hq : isQuote q) {ys rest : List Char} (h : next ys = some rest) (body : List Char) :
    ∃ rest', closing next (body ++ q :: ys) = some rest' ∧ rest <:+ rest' := by
  induction body with
  | nil => exact ⟨rest, closing_of_next hq h, List.suffix_rfl⟩
  | cons c body ih =>
    obtain ⟨rest', h', hle⟩ := ih
    by_cases hc : isQuote c
    · cases hx : next (body ++ q :: ys) with
      | some r =>
        refine ⟨r, closing_of_next hc hx, he _ ys r rest ?_ hx h⟩
        exact ⟨body ++ [q], by rw [List.append_assoc]; rfl⟩
      | none =>
        exact ⟨rest', (closing_of_no_next fun _ => hx).trans h', hle⟩
    · exact ⟨rest', (closing_of_no_next fun hq => absurd hq hc).trans h', hle⟩

/-- **The first end of a literal that will do is the best.**  If what follows is read eagerly, no
later end of the literal leads to a shorter word. -/
theorem readsShortest_closing {next : List Char → Option (List Char)} {L : List Char → Prop}
    (hn : ReadsShortest next L) (he : Eager next) :
    ReadsShortest (closing next) (ClosingWord L) where
  sound cs rest h := by
    induction cs with
    | nil => simp [closing] at h
    | cons c cs ih =>
      by_cases hstop : isQuote c ∧ next cs ≠ none
      · obtain ⟨hc, hne⟩ := hstop
        obtain ⟨r, hr⟩ := Option.ne_none_iff_exists'.1 hne
        rw [closing_of_next hc hr] at h
        obtain rfl : r = rest := Option.some.inj h
        obtain ⟨v, hv, rfl⟩ := hn.sound cs r hr
        exact ⟨c :: v, ⟨[], c, v, hc, hv, rfl⟩, rfl⟩
      · have hskip : isQuote c → next cs = none := fun hc =>
          Classical.byContradiction fun hne => hstop ⟨hc, hne⟩
        rw [closing_of_no_next hskip] at h
        obtain ⟨w, ⟨body, q, v, hq, hv, rfl⟩, rfl⟩ := ih h
        exact ⟨c :: (body ++ q :: v), ⟨c :: body, q, v, hq, hv, rfl⟩, rfl⟩
  reads w more := by
    intro h
    obtain ⟨body, q, v, hq, hv, rfl⟩ := h
    obtain ⟨r, hr, hle⟩ := hn.reads v more hv
    obtain ⟨rest, h, hle'⟩ := closing_append_quote he hq hr body
    exact ⟨rest, by rw [List.append_assoc]; exact h, hle.trans hle'⟩

theorem eager_closing {next : List Char → Option (List Char)} {L : List Char → Prop}
    (hn : ReadsShortest next L) (he : Eager next) : Eager (closing next) := by
  apply (readsShortest_closing hn he).eager
  intro x w h
  obtain ⟨body, q, v, hq, hv, rfl⟩ := h
  exact ⟨x ++ body, q, v, hq, hv, by rw [List.append_assoc]⟩

/-- A literal and a word of `L` after it. -/
def QuotedWord (L : List Char → Prop) (w : List Char) : Prop :=
  ∃ q v, isQuote q ∧ ClosingWord L v ∧ w = q :: v

theorem quoted_cons {next : List Char → Option (List Char)} {q : Char} (hq : isQuote q)
    (cs : List Char) : quoted next (q :: cs) = closing next cs :=
  if_pos hq

theorem quoted_eq_some {next : List Char → Option (List Char)} {cs rest : List Char}
    (h : quoted next cs = some rest) :
    ∃ q xs, isQuote q ∧ closing next xs = some rest ∧ cs = q :: xs := by
  cases cs with
  | nil => simp [quoted] at h
  | cons q xs =>
    rw [quoted] at h
    split at h
    · rename_i hq
      exact ⟨q, xs, hq, h, rfl⟩
    · simp at h

theorem readsShortest_quoted {next : List Char → Option (List Char)} {L : List Char → Prop}
    (hn : ReadsShortest next L) (he : Eager next) :
    ReadsShortest (quoted next) (QuotedWord L) where
  sound cs rest h := by
    obtain ⟨q, xs, hq, hx, rfl⟩ := quoted_eq_some h
    obtain ⟨w, hw, rfl⟩ := (readsShortest_closing hn he).sound xs rest hx
    exact ⟨q :: w, ⟨q, w, hq, hw, rfl⟩, rfl⟩
  reads w more := by
    intro h
    obtain ⟨q, v, hq, hv, rfl⟩ := h
    rw [List.cons_append, quoted_cons hq]
    exact (readsShortest_closing hn he).reads v more hv

/-! ### Literals that are arguments -/

/-- A comma, blanks, a literal, and a word of `L` after it. -/
def ArgumentWord (L : List Char → Prop) (w : List Char) : Prop :=
  ∃ blanks v, (∀ x ∈ blanks, isScriptBlank x) ∧ QuotedWord L v ∧ w = ',' :: blanks ++ v

theorem not_isScriptBlank_of_isQuote {c : Char} (h : isQuote c) : ¬ isScriptBlank c := by
  simp only [isQuote, Bool.or_eq_true, beq_iff_eq] at h
  obtain (rfl | rfl) | rfl := h <;> decide

theorem dropWhile_blanks {blanks : List Char} (hb : ∀ x ∈ blanks, isScriptBlank x) {q : Char}
    (hq : isQuote q) (cs : List Char) :
    (blanks ++ q :: cs).dropWhile isScriptBlank = q :: cs := by
  rw [List.dropWhile_append_of_pos hb,
    List.dropWhile_cons_of_neg (not_isScriptBlank_of_isQuote hq)]

theorem quotedArgument_eq_some {next : List Char → Option (List Char)} {cs rest : List Char}
    (h : quotedArgument next cs = some rest) :
    ∃ blanks q xs, (∀ x ∈ blanks, isScriptBlank x) ∧ isQuote q ∧ closing next xs = some rest ∧
      cs = ',' :: (blanks ++ q :: xs) := by
  unfold quotedArgument at h
  split at h
  · rename_i cs
    obtain ⟨q, xs, hq, hx, he⟩ := quoted_eq_some h
    refine ⟨cs.takeWhile isScriptBlank, q, xs, fun x hx => ?_, hq, hx, ?_⟩
    · exact List.all_eq_true.1 List.all_takeWhile x hx
    · rw [← he, List.takeWhile_append_dropWhile]
  · simp at h

theorem readsShortest_quotedArgument {next : List Char → Option (List Char)}
    {L : List Char → Prop} (hn : ReadsShortest next L) (he : Eager next) :
    ReadsShortest (quotedArgument next) (ArgumentWord L) where
  sound cs rest h := by
    obtain ⟨blanks, q, xs, hb, hq, hx, rfl⟩ := quotedArgument_eq_some h
    obtain ⟨w, hw, rfl⟩ := (readsShortest_closing hn he).sound xs rest hx
    refine ⟨',' :: blanks ++ q :: w, ⟨blanks, q :: w, hb, ⟨q, w, hq, hw, rfl⟩, rfl⟩, ?_⟩
    simp
  reads w more := by
    intro h
    obtain ⟨blanks, _, hb, ⟨q, v, hq, hv, rfl⟩, rfl⟩ := h
    obtain ⟨rest, h, hle⟩ := (readsShortest_closing hn he).reads v more hv
    refine ⟨rest, ?_, hle⟩
    rw [List.append_assoc, List.cons_append, quotedArgument, List.cons_append,
      dropWhile_blanks hb hq, quoted_cons hq]
    exact h

theorem eager_quotedArgument {next : List Char → Option (List Char)} {L : List Char → Prop}
    (hn : ReadsShortest next L) (he : Eager next) : Eager (quotedArgument next) := by
  intro xs ys rest rest' hs hx hy
  obtain ⟨blanks, q, zs, hb, hq, hz, rfl⟩ := quotedArgument_eq_some hx
  rcases List.suffix_cons_iff.1 hs with rfl | hs
  · rw [hx] at hy
    exact Option.some.inj hy ▸ List.suffix_rfl
  · -- the later argument begins after the mark that opens the literal of the earlier one
    obtain ⟨blanks', q', zs', _, _, hz', rfl⟩ := quotedArgument_eq_some hy
    have hcomma : ',' ∉ blanks ++ [q] := by
      intro hm
      rcases List.mem_append.1 hm with hm | hm
      · exact absurd (hb _ hm) (by decide)
      · obtain rfl := List.mem_singleton.1 hm
        exact absurd hq (by decide)
    rw [show blanks ++ q :: zs = blanks ++ [q] ++ zs by simp] at hs
    have hlater := suffix_of_suffix_append hcomma hs
    have hzs : zs' <:+ ',' :: (blanks' ++ q' :: zs') := ⟨',' :: blanks' ++ [q'], by simp⟩
    exact eager_closing hn he zs zs' rest rest' (hzs.trans hlater) hz hz'

/-! ### Counts -/

theorem digits?_append {n cs : List Char} (hne : n ≠ []) (hn : ∀ x ∈ n, x.isDigit) :
    digits? (n ++ ',' :: cs) = some (',' :: cs) := by
  obtain ⟨c, n, rfl⟩ := List.exists_cons_of_ne_nil hne
  rw [List.cons_append, digits?, if_pos (hn c List.mem_cons_self),
    List.dropWhile_append_of_pos fun x hx => hn x (List.mem_cons_of_mem c hx),
    List.dropWhile_cons_of_neg (by decide)]

theorem digits?_eq_some {cs rest : List Char} (h : digits? cs = some rest) :
    ∃ n, n ≠ [] ∧ (∀ x ∈ n, x.isDigit) ∧ cs = n ++ rest := by
  cases cs with
  | nil => simp [digits?] at h
  | cons c cs =>
    rw [digits?] at h
    split at h
    · rename_i hc
      obtain rfl : cs.dropWhile Char.isDigit = rest := Option.some.inj h
      refine ⟨c :: cs.takeWhile Char.isDigit, List.cons_ne_nil _ _, fun x hx => ?_, ?_⟩
      · rcases List.mem_cons.1 hx with rfl | hx
        · exact hc
        · exact List.all_eq_true.1 List.all_takeWhile x hx
      · rw [List.cons_append, List.takeWhile_append_dropWhile]
    · simp at h

/-- The arguments of a call for a count. -/
def PluralWord (w : List Char) : Prop :=
  ∃ n v, n ≠ [] ∧ (∀ x ∈ n, x.isDigit) ∧ ArgumentWord (ArgumentWord FurtherWord) v ∧ w = n ++ v

theorem readsShortest_twoLiterals :
    ReadsShortest (quotedArgument (quotedArgument furtherArguments))
      (ArgumentWord (ArgumentWord FurtherWord)) := by
  apply readsShortest_quotedArgument
  · exact readsShortest_quotedArgument readsShortest_furtherArguments eager_furtherArguments
  · exact eager_quotedArgument readsShortest_furtherArguments eager_furtherArguments

theorem readsShortest_lazyPlural? : ReadsShortest lazyPlural? PluralWord where
  sound cs rest h := by
    obtain ⟨body, hd, hq⟩ := Option.bind_eq_some_iff.1 h
    obtain ⟨n, hne, hn, rfl⟩ := digits?_eq_some hd
    obtain ⟨v, hv, rfl⟩ := readsShortest_twoLiterals.sound body rest hq
    exact ⟨n ++ v, ⟨n, v, hne, hn, hv, rfl⟩, by rw [List.append_assoc]⟩
  reads w more := by
    intro h
    obtain ⟨n, v, hne, hn, hv, rfl⟩ := h
    obtain ⟨rest, h, hle⟩ := readsShortest_twoLiterals.reads v more hv
    refine ⟨rest, ?_, hle⟩
    obtain ⟨blanks, u, _, _, rfl⟩ := hv
    rw [List.append_assoc, lazyPlural?, List.cons_append, List.cons_append, digits?_append hne hn]
    exact h

/-! ### The language of the arguments -/

/-- The arguments of a call in the lazy reading.  Any of the three quotation marks closes a
literal, and what stands in a literal or after the literals is any text. -/
inductive LazyArguments : Shape → List Char → Prop
  | translate {q r : Char} {body : List Char} {further : List (List Char)} :
      isQuote q → isQuote r →
      LazyArguments .translate (q :: body ++ r :: further.flatMap (',' :: ·) ++ [')'])
  | formatPlural {n v w one many rest : List Char} {a b c d : Char} :
      n ≠ [] → (∀ x ∈ n, x.isDigit) →
      (∀ x ∈ v, isScriptBlank x) → (∀ x ∈ w, isScriptBlank x) →
      isQuote a → isQuote b → isQuote c → isQuote d →
      LazyArguments .formatPlural
        (n ++ ',' :: v ++ a :: one ++ b :: ',' :: w ++ c :: many ++ d :: ',' :: rest ++ [')'])

theorem afterLiteralWord_iff {w : List Char} :
    AfterLiteralWord w ↔ ∃ further : List (List Char), w = further.flatMap (',' :: ·) ++ [')'] := by
  constructor
  · intro h
    rcases h with rfl | ⟨x, rfl⟩
    · exact ⟨[], rfl⟩
    · exact ⟨[x], by simp⟩
  · intro h
    obtain ⟨further, rfl⟩ := h
    cases further with
    | nil => exact Or.inl rfl
    | cons x further => exact Or.inr ⟨x ++ further.flatMap (',' :: ·), by simp⟩

theorem lazyArguments_translate_iff {w : List Char} :
    LazyArguments .translate w ↔ QuotedWord AfterLiteralWord w := by
  constructor
  · intro h
    cases h with
    | @translate q r body further hq hr =>
      exact ⟨q, _, hq, ⟨body, r, _, hr, afterLiteralWord_iff.2 ⟨further, rfl⟩, rfl⟩, by simp⟩
  · intro h
    obtain ⟨q, _, hq, ⟨body, r, v, hr, hv, rfl⟩, rfl⟩ := h
    obtain ⟨further, rfl⟩ := afterLiteralWord_iff.1 hv
    have h : LazyArguments .translate (q :: body ++ r :: further.flatMap (',' :: ·) ++ [')']) :=
      .translate hq hr
    simpa using h

theorem lazyArguments_formatPlural_iff {w : List Char} :
    LazyArguments .formatPlural w ↔ PluralWord w := by
  constructor
  · intro h
    cases h with
    | @formatPlural n v w one many rest a b c d hne hn hv hw ha hb hc hd =>
      have hmany : ArgumentWord FurtherWord
          (',' :: w ++ c :: (many ++ d :: (',' :: rest ++ [')']))) :=
        ⟨w, _, hw, ⟨c, _, hc, ⟨many, d, _, hd, ⟨rest, rfl⟩, rfl⟩, rfl⟩, rfl⟩
      exact ⟨n, _, hne, hn, ⟨v, _, hv, ⟨a, _, ha, ⟨one, b, _, hb, hmany, rfl⟩, rfl⟩, rfl⟩, by simp⟩
  · intro h
    obtain ⟨n, _, hne, hn, ⟨v, _, hv, ⟨a, _, ha, ⟨one, b, _, hb, hmany, rfl⟩, rfl⟩, rfl⟩, rfl⟩ := h
    obtain ⟨w, _, hw, ⟨c, _, hc, ⟨many, d, _, hd, ⟨rest, rfl⟩, rfl⟩, rfl⟩, rfl⟩ := hmany
    have h : LazyArguments .formatPlural
        (n ++ ',' :: v ++ a :: one ++ b :: ',' :: w ++ c :: many ++ d :: ',' :: rest ++ [')']) :=
      .formatPlural hne hn hv hw ha hb hc hd
    simpa using h

/-- **The lazy reading takes the shortest arguments.** -/
theorem readsShortest_lazyArguments? (shape : Shape) :
    ReadsShortest (lazyArguments? shape) (LazyArguments shape) := by
  cases shape with
  | translate =>
    rw [funext fun w => propext (@lazyArguments_translate_iff w)]
    exact readsShortest_quoted readsShortest_afterLiteral eager_afterLiteral
  | formatPlural =>
    rw [funext fun w => propext (@lazyArguments_formatPlural_iff w)]
    exact readsShortest_lazyPlural?

end CallHarvest.Call
