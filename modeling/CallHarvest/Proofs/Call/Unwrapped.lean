import CallHarvest.Proofs.Call.Whole
import CallHarvest.Proofs.Text.Replaced
import Mathlib.Data.Bool.AllAny

/-!
# Arguments with a namespace unwrapped

The namespace in parentheses may stand anywhere in the arguments of a call: in a literal, or among
the arguments after the literals.  This file tells what becomes of the arguments when it loses its
parentheses.

* `Inert` — text without the characters by which arguments are told apart.
* `LazyArguments.replaced` — in the lazy reading inert text may be replaced by any other text.
* `Unwrapped` — a text and the same text with one namespace unwrapped.
* `Nested.unwrapped`, `BalancedArguments.unwrapped` — what is balanced stays balanced.
* `Whole.unwrapped` — **whole arguments stay whole**, in either reading, as long as they keep the
  parenthesis that they end with.
-/

namespace CallHarvest.Call

open CallHarvest.Text (Replaced append_eq_append_cases byteLength byteLength_append
  concat_prefix_append_cases isScriptBlank)

variable {shape : Shape}

/-! ### Text that arguments are not divided by -/

/-- The characters by which arguments and their parts are told apart: commas, quotation marks, the
digits of a count, and blanks. -/
def IsDivider (c : Char) : Prop :=
  c = ',' ∨ isQuote c ∨ c.isDigit ∨ isScriptBlank c

instance (c : Char) : Decidable (IsDivider c) :=
  inferInstanceAs (Decidable (c = ',' ∨ isQuote c ∨ c.isDigit ∨ isScriptBlank c))

/-- A text that holds none of these characters. -/
def Inert (t : List Char) : Prop :=
  t ≠ [] ∧ ∀ c ∈ t, ¬ IsDivider c

theorem inert_bareName : Inert bareName.toList :=
  ⟨by decide, List.all_iff_forall_prop.1 (by decide)⟩

theorem inert_wrappedName : Inert wrappedName.toList :=
  ⟨by decide, List.all_iff_forall_prop.1 (by decide)⟩

namespace Inert

variable {part new cs w : List Char}

theorem not_mem (h : Inert part) {c : Char} (hc : IsDivider c) : c ∉ part :=
  fun hmem => h.2 c hmem hc

theorem replaced_of_append (h : Inert part) {x : List Char} (hx : ∀ c ∈ x, IsDivider c)
    (hr : Replaced part new (x ++ cs) w) : ∃ ds, Replaced part new cs ds ∧ w = x ++ ds :=
  hr.of_append h.1 fun c hc => h.not_mem (hx c hc)

theorem replaced_comma_cons (h : Inert part) (hr : Replaced part new (',' :: cs) w) :
    ∃ ds, Replaced part new cs ds ∧ w = ',' :: ds :=
  h.replaced_of_append (x := [',']) (List.forall_mem_singleton.2 (Or.inl rfl)) hr

end Inert

theorem isDivider_of_blanks {v : List Char} (hv : ∀ x ∈ v, isScriptBlank x) :
    ∀ c ∈ ',' :: v, IsDivider c :=
  List.forall_mem_cons.2 ⟨Or.inl rfl, fun c hc => Or.inr (Or.inr (Or.inr (hv c hc)))⟩

theorem isDivider_of_count {n v : List Char} (hn : ∀ x ∈ n, x.isDigit)
    (hv : ∀ x ∈ v, isScriptBlank x) : ∀ c ∈ n ++ ',' :: v, IsDivider c :=
  List.forall_mem_append.2 ⟨fun c hc => Or.inr (Or.inr (Or.inl (hn c hc))), isDivider_of_blanks hv⟩

/-! ### Lazy arguments -/

/-- Inert text is inside of a literal or after it. -/
theorem Inert.replaced_quoted {part new body cs w : List Char} {q r : Char} (h : Inert part)
    (hq : isQuote q) (hr : isQuote r) (hrep : Replaced part new (q :: (body ++ r :: cs)) w) :
    (∃ body', w = q :: (body' ++ r :: cs)) ∨
      ∃ ds, Replaced part new cs ds ∧ w = q :: (body ++ r :: ds) := by
  have hq' : ∀ c ∈ [q], IsDivider c := List.forall_mem_singleton.2 (Or.inr (Or.inl hq))
  obtain ⟨w, hw, rfl⟩ := h.replaced_of_append hq' hrep
  rcases hw.append_cons (h.not_mem (Or.inr (Or.inl hr))) with ⟨body', -, rfl⟩ | ⟨ds, hds, rfl⟩
  · exact Or.inl ⟨body', rfl⟩
  · exact Or.inr ⟨ds, hds, rfl⟩

/-- **In the lazy reading inert text may be replaced by any other.** -/
theorem LazyArguments.replaced {part new args x y : List Char} (hpart : Inert part)
    (h : LazyArguments shape args) (hx : args = x ++ [')']) (hr : Replaced part new x y) :
    LazyArguments shape (y ++ [')']) := by
  cases h with
  | @translate q r body further hq hr' =>
    obtain rfl := List.append_cancel_right hx
    rw [List.cons_append] at hr
    rcases hpart.replaced_quoted hq hr' hr with ⟨body', rfl⟩ | ⟨w, hw, rfl⟩
    · exact .translate hq hr'
    · cases further with
      | nil => exact absurd hw (Replaced.not_nil hpart.1)
      | cons f fs =>
        rw [List.flatMap_cons, List.cons_append] at hw
        obtain ⟨g, -, rfl⟩ := hpart.replaced_comma_cons hw
        have h : LazyArguments .translate (q :: body ++ r :: [g].flatMap (',' :: ·) ++ [')']) :=
          .translate hq hr'
        simpa using h
  | @formatPlural n v w one many rest a b c d hne hn hv hw ha hb hc hd =>
    obtain rfl := List.append_cancel_right hx
    have hcut : n ++ ',' :: v ++ a :: one ++ b :: ',' :: w ++ c :: many ++ d :: ',' :: rest =
        (n ++ ',' :: v) ++ a :: (one ++ b :: ((',' :: w) ++ c :: (many ++ d :: ',' :: rest))) := by
      simp
    have hlazy : ∀ one many rest, LazyArguments .formatPlural ((n ++ ',' :: v) ++
        a :: (one ++ b :: ((',' :: w) ++ c :: (many ++ d :: ',' :: rest))) ++ [')']) := by
      intro one many rest
      have h : LazyArguments .formatPlural
          (n ++ ',' :: v ++ a :: one ++ b :: ',' :: w ++ c :: many ++ d :: ',' :: rest ++ [')']) :=
        .formatPlural hne hn hv hw ha hb hc hd
      simpa using h
    rw [hcut] at hr
    obtain ⟨_, hone, rfl⟩ := hpart.replaced_of_append (isDivider_of_count hn hv) hr
    rcases hpart.replaced_quoted ha hb hone with ⟨one', rfl⟩ | ⟨_, hafter, rfl⟩
    · exact hlazy one' many rest
    · obtain ⟨_, hmany, rfl⟩ := hpart.replaced_of_append (isDivider_of_blanks hw) hafter
      rcases hpart.replaced_quoted hc hd hmany with ⟨many', rfl⟩ | ⟨_, hend, rfl⟩
      · exact hlazy one many' rest
      · obtain ⟨rest', -, rfl⟩ := hpart.replaced_comma_cons hend
        exact hlazy one many rest'

/-! ### Balanced text -/

/-- A text and the same text with one namespace unwrapped. -/
abbrev Unwrapped (cs ds : List Char) : Prop :=
  Replaced wrappedName.toList bareName.toList cs ds

theorem LiteralText.of_cons {mark c : Char} {cs : List Char} (h : LiteralText mark (c :: cs))
    (hb : c ≠ '\\') : LiteralText mark cs := by
  cases h with
  | plain _ _ h => exact h
  | escaped _ => exact absurd rfl hb

/-- Ordinary characters may be put in front of the text of a literal and taken away from it. -/
theorem LiteralText.plain_append_iff {mark : Char} {xs cs : List Char}
    (hxs : ∀ c ∈ xs, c ≠ mark ∧ c ≠ '\\') : LiteralText mark (xs ++ cs) ↔ LiteralText mark cs := by
  induction xs with
  | nil => exact Iff.rfl
  | cons c xs ih =>
    obtain ⟨⟨hc, hb⟩, hxs⟩ := List.forall_mem_cons.1 hxs
    exact ⟨fun h => (ih hxs).1 (h.of_cons hb), fun h => .plain hc hb ((ih hxs).2 h)⟩

theorem LiteralText.unwrapped {mark : Char} {cs ds : List Char} (hmark : isQuote mark)
    (h : LiteralText mark cs) (hr : Unwrapped cs ds) : LiteralText mark ds := by
  -- the letters of the namespace and its parentheses are ordinary characters of a literal
  have hplain : ∀ c ∈ wrappedName.toList, c ≠ mark ∧ c ≠ '\\' := by
    intro c hc
    have hchars : ∀ c ∈ wrappedName.toList, ¬ isQuote c ∧ c ≠ '\\' :=
      List.all_iff_forall_prop.1 (by decide)
    exact ⟨fun h => (hchars c hc).1 (h ▸ hmark), (hchars c hc).2⟩
  have hletters : ∀ c ∈ bareName.toList, c ≠ mark ∧ c ≠ '\\' := fun c hc =>
    hplain c (List.mem_cons_of_mem '(' (List.mem_append_left [')'] hc))
  induction h generalizing ds with
  | nil => exact absurd hr (Replaced.not_nil (by decide))
  | @plain c cs hc hb hcs ih =>
    obtain ⟨u, v, hu, rfl⟩ := hr
    cases u with
    | nil =>
      have htext : LiteralText mark (wrappedName.toList ++ v) := hu ▸ .plain hc hb hcs
      exact (plain_append_iff hletters).2 ((plain_append_iff hplain).1 htext)
    | cons d u =>
      obtain ⟨rfl, rfl⟩ := List.cons.inj hu
      exact .plain hc hb (ih (Replaced.mk u v))
  | @escaped c cs hcs ih =>
    obtain ⟨u, v, hu, rfl⟩ := hr
    match u with
    | [] => exact absurd (List.cons.inj hu).1 (by decide)
    | [d] =>
      -- the backslash loses the parenthesis and takes the first letter instead
      obtain ⟨rfl, htail⟩ := List.cons.inj hu
      obtain ⟨-, rfl⟩ := List.cons.inj htail
      have hrest : ∀ c ∈ bareName.toList ++ [')'], c ≠ mark ∧ c ≠ '\\' := fun c hc =>
        hplain c (List.mem_cons_of_mem '(' hc)
      have hfurther : ∀ c ∈ bareName.toList.tail, c ≠ mark ∧ c ≠ '\\' := fun c hc =>
        hletters c (List.mem_of_mem_tail hc)
      exact .escaped ((plain_append_iff hfurther).2 ((plain_append_iff hrest).1 hcs))
    | d :: e :: u =>
      obtain ⟨rfl, htail⟩ := List.cons.inj hu
      obtain ⟨rfl, rfl⟩ := List.cons.inj htail
      exact .escaped (ih (Replaced.mk u v))

theorem Literal.unwrapped {l l' : List Char} (hl : Literal l) (hr : Unwrapped l l') :
    Literal l' := by
  obtain ⟨mark, text, hq, htext, rfl⟩ := hl
  have hmark : ∀ c ∈ [mark], IsDivider c := List.forall_mem_singleton.2 (Or.inr (Or.inl hq))
  obtain ⟨_, hafter, rfl⟩ := inert_wrappedName.replaced_of_append (x := [mark]) hmark hr
  rcases hafter.append_cons (inert_wrappedName.not_mem (Or.inr (Or.inl hq))) with
    ⟨text', hr', rfl⟩ | ⟨_, hr', -⟩
  · exact ⟨mark, text', hq, htext.unwrapped hq hr', rfl⟩
  · exact absurd hr' (Replaced.not_nil (by decide))

/-- The namespace is unwrapped in the literal or after it. -/
theorem Literal.unwrapped_append {l cs w : List Char} (hl : Literal l)
    (hr : Unwrapped (l ++ cs) w) :
    (∃ l', Literal l' ∧ w = l' ++ cs) ∨ ∃ ds, Unwrapped cs ds ∧ w = l ++ ds := by
  obtain ⟨mark, text, hq, htext, rfl⟩ := hl
  have hcut : mark :: (text ++ [mark]) ++ cs = (mark :: text) ++ mark :: cs := by simp
  rw [hcut] at hr
  rcases hr.append_cons (inert_wrappedName.not_mem (Or.inr (Or.inl hq))) with
    ⟨front, hfront, rfl⟩ | ⟨ds, hds, rfl⟩
  · have hl : Literal (mark :: text ++ [mark]) := ⟨mark, text, hq, htext, rfl⟩
    exact Or.inl ⟨front ++ [mark], hl.unwrapped (hfront.append_right [mark]), by simp⟩
  · exact Or.inr ⟨ds, hds, by simp⟩

theorem Nested.plain_append {commas : Bool} {xs cs : List Char}
    (hxs : ∀ c ∈ xs, IsPlain c ∧ c ≠ ',') (h : Nested commas cs) : Nested commas (xs ++ cs) := by
  induction xs with
  | nil => exact h
  | cons c xs ih =>
    obtain ⟨⟨hc, hcomma⟩, hxs⟩ := List.forall_mem_cons.1 hxs
    exact .plain hc (fun he => absurd he hcomma) (ih hxs)

/-- A closing bracket after plain characters closes nothing. -/
theorem not_nested_plain_closer {commas : Bool} {xs cs : List Char} {d : Char}
    (hxs : ∀ c ∈ xs, IsPlain c) (hd : isCloser d) : ¬ Nested commas (xs ++ d :: cs) := by
  intro h
  generalize hw : xs ++ d :: cs = w at h
  induction h generalizing xs with
  | nil => simp at hw
  | plain hc _ _ ih =>
    cases xs with
    | nil =>
      obtain ⟨rfl, -⟩ := List.cons.inj hw
      rw [hc.2.2] at hd
      exact absurd hd (by decide)
    | cons e xs =>
      obtain ⟨-, rfl⟩ := List.cons.inj hw
      exact ih (fun c hc => hxs c (List.mem_cons_of_mem e hc)) rfl
  | literal hl _ _ =>
    obtain ⟨q, text, hq, rfl⟩ := exists_cons_of_literal hl
    cases xs with
    | nil =>
      obtain ⟨rfl, -⟩ := List.cons.inj hw
      exact not_isQuote_of_isCloser hd hq
    | cons e xs =>
      obtain ⟨rfl, -⟩ := List.cons.inj hw
      exact (hxs e List.mem_cons_self).1 hq
  | group ho _ _ _ _ =>
    cases xs with
    | nil =>
      obtain ⟨rfl, -⟩ := List.cons.inj hw
      rw [closer?_of_isCloser hd] at ho
      exact absurd ho (by simp)
    | cons e xs =>
      obtain ⟨rfl, -⟩ := List.cons.inj hw
      rw [(hxs e List.mem_cons_self).2.1] at ho
      exact absurd ho (by simp)

theorem wrappedName_append (v : List Char) :
    wrappedName.toList ++ v = '(' :: (bareName.toList ++ ')' :: v) := by
  have hname : wrappedName.toList = '(' :: bareName.toList ++ [')'] := rfl
  rw [hname, List.append_assoc]
  rfl

theorem isPlain_of_mem_bareName : ∀ c ∈ bareName.toList, IsPlain c ∧ c ≠ ',' := by
  unfold IsPlain
  exact List.all_iff_forall_prop.1 (by decide)

/-- A group that begins like the wrapped namespace ends where it does. -/
theorem eq_of_group_eq_bareName {inner cs v : List Char} (hinner : BalancedText inner)
    (h : inner ++ ')' :: cs = bareName.toList ++ ')' :: v) : cs = v := by
  rcases append_eq_append_cases h with ⟨e, rfl, he⟩ | ⟨e, he, hname, hv⟩
  · cases e with
    | nil => exact (List.cons.inj he).2.symm
    | cons c e =>
      obtain ⟨rfl, -⟩ := List.cons.inj he
      have hletters : ∀ c ∈ bareName.toList, IsPlain c := fun c hc =>
        (isPlain_of_mem_bareName c hc).1
      exact absurd hinner (not_nested_plain_closer hletters rfl)
  · obtain ⟨c, e, rfl⟩ := List.exists_cons_of_ne_nil he
    obtain ⟨rfl, -⟩ := List.cons.inj hv
    have hparen : ')' ∈ bareName.toList := hname ▸ List.mem_append_right inner (by simp)
    exact absurd hparen (by decide)

/-- Balanced text does not end with a namespace whose parenthesis is still open. -/
theorem not_open_bareName_suffix {commas : Bool} {b : List Char} (h : Nested commas b) :
    ¬ '(' :: bareName.toList <:+ b := by
  intro hs
  obtain ⟨z, hz⟩ := hs
  obtain ⟨c, hc, hclose⟩ := h.exists_of_open hz.symm
  have hno : ∀ c ∈ bareName.toList, ¬ (isQuote c ∨ isCloser c) :=
    List.all_iff_forall_prop.1 (by decide)
  exact hno c hc hclose

/-- The only closing bracket of the wrapped namespace is its last character. -/
theorem eq_of_wrappedName_eq {p q : List Char} {d : Char} (hd : isCloser d)
    (h : wrappedName.toList = p ++ d :: q) : p = '(' :: bareName.toList := by
  rcases append_eq_append_cases (c := '(' :: bareName.toList) (d := [')']) h.symm with
    ⟨e, rfl, he⟩ | ⟨e, he, hp, hq⟩
  · cases e with
    | nil => rw [List.append_nil]
    | cons c e => simp at he
  · obtain ⟨c, e, rfl⟩ := List.exists_cons_of_ne_nil he
    obtain ⟨rfl, -⟩ := List.cons.inj hq
    have hno : ∀ c ∈ '(' :: bareName.toList, ¬ isCloser c :=
      List.all_iff_forall_prop.1 (by decide)
    exact absurd hd (hno d (hp ▸ List.mem_append_right p List.mem_cons_self))

/-- **Balanced text stays balanced.** -/
theorem Nested.unwrapped {commas : Bool} {b b' : List Char} (h : Nested commas b)
    (hr : Unwrapped b b') : Nested commas b' := by
  induction h generalizing b' with
  | nil => exact absurd hr (Replaced.not_nil (by decide))
  | @plain _ c cs hc hcomma _ ih =>
    obtain ⟨u, v, hu, rfl⟩ := hr
    cases u with
    | nil =>
      obtain ⟨rfl, -⟩ := List.cons.inj hu
      exact absurd hc.2.1 (by decide)
    | cons d u =>
      obtain ⟨rfl, rfl⟩ := List.cons.inj hu
      exact .plain hc hcomma (ih (Replaced.mk u v))
  | literal hl hcs ih =>
    rcases hl.unwrapped_append hr with ⟨l', hl', rfl⟩ | ⟨ds, hds, rfl⟩
    · exact .literal hl' hcs
    · exact .literal hl (ih hds)
  | @group _ o d inner cs ho hinner hcs ihinner ih =>
    obtain ⟨u, v, hu, rfl⟩ := hr
    cases u with
    | nil =>
      -- the brackets of the group are those that the namespace loses
      rw [List.nil_append, wrappedName_append] at hu
      obtain ⟨rfl, hgroup⟩ := List.cons.inj hu
      obtain rfl : ')' = d := Option.some.inj ho
      rw [List.nil_append, ← eq_of_group_eq_bareName hinner hgroup]
      exact hcs.plain_append isPlain_of_mem_bareName
    | cons c u =>
      obtain ⟨rfl, hgroup⟩ := List.cons.inj hu
      have hr : Unwrapped (inner ++ d :: cs) (u ++ (bareName.toList ++ v)) := ⟨u, v, hgroup, rfl⟩
      rcases hr.append_cons_cases with ⟨inner', hr', hw⟩ | ⟨cs', hr', hw⟩ | ⟨p, q, hname, hp⟩
      · rw [List.cons_append, hw]
        exact .group ho (ihinner hr') hcs
      · rw [List.cons_append, hw]
        exact .group ho hinner (ih hr')
      · rw [eq_of_wrappedName_eq (isCloser_of_closer? ho) hname] at hp
        exact absurd hp (not_open_bareName_suffix hinner)

/-! ### Balanced arguments -/

theorem joined_cons (p q : List Char) (ps : List (List Char)) :
    joined p (q :: ps) = p ++ ',' :: joined q ps := by
  simp [joined]

/-- The namespace is unwrapped in one of the pieces. -/
theorem joined_unwrapped {p w : List Char} {ps : List (List Char)}
    (hr : Unwrapped (joined p ps) w) :
    (∃ p', Unwrapped p p' ∧ w = joined p' ps) ∨
      ∃ front q q' back, ps = front ++ q :: back ∧ Unwrapped q q' ∧
        w = joined p (front ++ q' :: back) := by
  induction ps generalizing p w with
  | nil => exact Or.inl ⟨w, by simpa [joined] using hr, by simp [joined]⟩
  | cons q ps ih =>
    rw [joined_cons] at hr
    rcases hr.append_cons (inert_wrappedName.not_mem (Or.inl rfl)) with
      ⟨p', hr', rfl⟩ | ⟨_, hr', rfl⟩
    · exact Or.inl ⟨p', hr', by rw [joined_cons]⟩
    · rcases ih hr' with ⟨q', hq, rfl⟩ | ⟨front, a, a', back, rfl, ha, rfl⟩
      · exact Or.inr ⟨[], q, q', ps, rfl, hq, by rw [List.nil_append, joined_cons]⟩
      · exact Or.inr ⟨q :: front, a, a', back, rfl, ha, by rw [List.cons_append, joined_cons]⟩

/-- A piece that holds a namespace is not blank. -/
theorem not_blank_of_unwrapped {p p' : List Char} (hr : Unwrapped p p') :
    (∃ c ∈ p, ¬ isScriptBlank c) ∧ ∃ c ∈ p', ¬ isScriptBlank c :=
  ⟨⟨'(', hr.mem_of_mem_part (by decide), by decide⟩,
    ⟨'D', hr.mem_of_mem_new (by decide), by decide⟩⟩

/-- Few pieces stay few, and the blank one, which holds no namespace, stays blank. -/
theorem few_pieces_of_unwrapped {q q' : List Char} {front back : List (List Char)}
    (hq : Unwrapped q q')
    (h : (front ++ q :: back).length ≤ 1 ∨
      ∃ a r, front ++ q :: back = [a, r] ∧ ∀ c ∈ r, isScriptBlank c) :
    (front ++ q' :: back).length ≤ 1 ∨
      ∃ a r, front ++ q' :: back = [a, r] ∧ ∀ c ∈ r, isScriptBlank c := by
  rcases h with hlen | ⟨a, r, he, hempty⟩
  · exact Or.inl (by simpa using hlen)
  · match front, he with
    | [], he =>
      obtain ⟨-, rfl⟩ := List.cons.inj he
      exact Or.inr ⟨q', r, rfl, hempty⟩
    | [b], he =>
      obtain ⟨-, he⟩ := List.cons.inj he
      obtain ⟨rfl, -⟩ := List.cons.inj he
      obtain ⟨c, hc, hnot⟩ := (not_blank_of_unwrapped hq).1
      exact absurd (hempty c hc) hnot
    | b :: c :: front, he => simp at he

/-- **Balanced arguments stay balanced**, as long as they keep their parenthesis. -/
theorem BalancedArguments.unwrapped {args x x' : List Char} (h : BalancedArguments shape args)
    (hx : args = x ++ [')']) (hr : Unwrapped x x') : BalancedArguments shape (x' ++ [')']) := by
  have hinert := inert_wrappedName
  cases h with
  | @literal l hl =>
    obtain rfl := List.append_cancel_right hx
    exact .literal (hl.unwrapped hr)
  | @further l b hl hb =>
    have hcut : l ++ ',' :: b ++ [')'] = x ++ [')'] := by simpa using hx
    obtain rfl := List.append_cancel_right hcut
    rcases hl.unwrapped_append hr with ⟨l', hl', rfl⟩ | ⟨_, hrest, rfl⟩
    · simpa using BalancedArguments.further hl' hb
    · obtain ⟨b', hr', rfl⟩ := hinert.replaced_comma_cons hrest
      simpa using BalancedArguments.further hl (hb.unwrapped hr')
  | @formatPlural n v w one many p ps hne hn hv hw hone hmany hp hps hblank hfew =>
    have hcut : (n ++ ',' :: v) ++ (one ++ ((',' :: w) ++ (many ++ ',' :: joined p ps))) ++ [')'] =
        x ++ [')'] := by simpa using hx
    obtain rfl := List.append_cancel_right hcut
    obtain ⟨_, hone', rfl⟩ := hinert.replaced_of_append (isDivider_of_count hn hv) hr
    rcases hone.unwrapped_append hone' with ⟨one', hl', rfl⟩ | ⟨_, hafter, rfl⟩
    · simpa using BalancedArguments.formatPlural hne hn hv hw hl' hmany hp hps hblank hfew
    · obtain ⟨_, hmany', rfl⟩ := hinert.replaced_of_append (isDivider_of_blanks hw) hafter
      rcases hmany.unwrapped_append hmany' with ⟨many', hl', rfl⟩ | ⟨_, hend, rfl⟩
      · simpa using BalancedArguments.formatPlural hne hn hv hw hone hl' hp hps hblank hfew
      · obtain ⟨_, hpieces, rfl⟩ := hinert.replaced_comma_cons hend
        rcases joined_unwrapped hpieces with
          ⟨p', hp', rfl⟩ | ⟨front, q, q', back, rfl, hq, rfl⟩
        · have hblank' := (not_blank_of_unwrapped hp').2
          simpa using BalancedArguments.formatPlural hne hn hv hw hone hmany (hp.unwrapped hp') hps
            hblank' hfew
        · have hq' := (hps q (by simp)).unwrapped hq
          have hps' : ∀ a ∈ front ++ q' :: back, Piece a := by
            intro a ha
            rcases List.mem_append.1 ha with ha | ha
            · exact hps a (List.mem_append_left _ ha)
            · rcases List.mem_cons.1 ha with rfl | ha
              · exact hq'
              · exact hps a (List.mem_append_right _ (List.mem_cons_of_mem q ha))
          have hfew' := few_pieces_of_unwrapped hq hfew
          simpa using BalancedArguments.formatPlural hne hn hv hw hone hmany hp hps' hblank hfew'

/-! ### Whole arguments -/

/-- Lazy arguments end at the same place without the parentheses: arguments that end earlier would
be, with the parentheses put back, arguments that end earlier there. -/
theorem Whole.unwrapped_lazy {x x' : List Char} (h : Whole .lazy shape (x ++ [')']))
    (hr : Unwrapped x x') : Whole .lazy shape (x' ++ [')']) := by
  have hwhole := whole_lazy_iff.1 h
  refine whole_lazy_iff.2 ⟨List.prefix_rfl, hwhole.word.replaced inert_wrappedName rfl hr, ?_⟩
  obtain ⟨u, v, rfl, rfl⟩ := hr
  have hbefore : ∀ y, y <+: u → ¬ LazyArguments shape y := by
    intro y hy hword
    have hbegins : y <+: u ++ (wrappedName.toList ++ v) ++ [')'] := by
      rw [List.append_assoc]
      exact hy.trans (List.prefix_append u _)
    have hleast := hwhole.least y hbegins hword
    have hlen := hy.length_le
    simp only [List.length_append, List.length_singleton] at hleast
    omega
  intro y hy hword
  by_contra hlt
  have hlen : y.length ≤ (u ++ (bareName.toList ++ v)).length := by
    rw [List.length_append] at hlt
    exact Nat.lt_succ_iff.1 (Nat.lt_of_not_le hlt)
  have hproper := List.prefix_of_prefix_length_le hy (List.prefix_append _ [')']) hlen
  obtain ⟨y, rfl⟩ := hword.exists_paren
  rcases concat_prefix_append_cases hproper with hu | ⟨f, rfl, hf⟩
  · exact hbefore _ hu hword
  · rcases concat_prefix_append_cases hf with hname | ⟨f, rfl, hv⟩
    · -- the letters of the namespace hold no parenthesis
      have hparen : ')' ∈ bareName.toList := hname.subset (List.mem_append_right f (by simp))
      exact absurd hparen (by decide)
    · have hback : LazyArguments shape (u ++ (wrappedName.toList ++ f) ++ [')']) :=
        hword.replaced inert_bareName rfl (Replaced.mk u f)
      have hbegins : u ++ (wrappedName.toList ++ f) ++ [')'] <+:
          u ++ (wrappedName.toList ++ v) ++ [')'] := by
        obtain ⟨t, rfl⟩ := hv
        simp
      have hleast := hwhole.least _ hbegins hback
      have hshort := hv.length_le
      simp only [List.length_append, List.length_singleton] at hleast hshort
      omega

/-- **Whole arguments stay whole**, as long as they keep their parenthesis. -/
theorem Whole.unwrapped {mode : Mode} {x x' : List Char} (h : Whole mode shape (x ++ [')']))
    (hr : Unwrapped x x') : Whole mode shape (x' ++ [')']) := by
  cases mode with
  | lazy => exact h.unwrapped_lazy hr
  | balanced =>
    obtain ⟨hargs, hlen⟩ := whole_balanced_iff.1 h
    refine whole_balanced_iff.2 ⟨hargs.unwrapped rfl hr, Nat.le_trans ?_ hlen⟩
    obtain ⟨u, v, rfl, rfl⟩ := hr
    have hname : byteLength bareName.toList ≤ byteLength wrappedName.toList := by decide
    simp only [byteLength_append]
    omega

end CallHarvest.Call
