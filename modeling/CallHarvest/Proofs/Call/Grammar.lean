import CallHarvest.Call.Balanced
import CallHarvest.Proofs.Call.Shortest
import Mathlib.Data.List.TakeWhile

/-!
# The grammar of balanced arguments

The balanced reading walks through the arguments of a call with a stack of the brackets that are
still open.  This file gives the grammar of what it accepts, which knows of no stack.

* `Literal` — a quotation mark, characters other than that mark, where a backslash takes the next
  character with it, and the same mark.
* `Nested` — literals, characters that are neither quotation marks nor brackets, and such text in
  matching brackets.  `BalancedText` may have commas everywhere, a `Piece` has none of its own.
* `tail?_eq_some_iff` — the reader of a tail cuts a balanced text into its pieces.
* `BalancedArguments` — the arguments of a call (`balancedArguments?_eq_some_iff`).
-/

namespace CallHarvest.Call

open CallHarvest.Text (append_eq_append_cases isScriptBlank mem_of_concat_eq_append trim trimEnd)

/-! ### Literals -/

/-- What may stand between the marks of a literal. -/
inductive LiteralText (mark : Char) : List Char → Prop
  | nil : LiteralText mark []
  | plain {c : Char} {cs : List Char} :
      c ≠ mark → c ≠ '\\' → LiteralText mark cs → LiteralText mark (c :: cs)
  | escaped {c : Char} {cs : List Char} : LiteralText mark cs → LiteralText mark ('\\' :: c :: cs)

/-- A literal with its marks. -/
def Literal (l : List Char) : Prop :=
  ∃ mark text, isQuote mark ∧ LiteralText mark text ∧ l = mark :: (text ++ [mark])

theorem ne_backslash_of_isQuote {c : Char} (h : isQuote c) : c ≠ '\\' := by
  intro hc
  rw [hc] at h
  exact absurd h (by decide)

/-- A character that is no backslash at the end of a text, nor one in front of another character. -/
theorem ne_backslash {c : Char} {cs : List Char} (hend : c = '\\' → cs = [] → False)
    (hesc : ∀ d ds, c = '\\' → cs = d :: ds → False) : c ≠ '\\' := by
  intro hc
  cases cs with
  | nil => exact hend hc rfl
  | cons d ds => exact hesc d ds hc rfl

theorem literalBody?_cons {mark c : Char} (hc : c ≠ '\\') (cs : List Char) :
    literalBody? mark (c :: cs) =
      if c = mark then some ([c], cs) else (literalBody? mark cs).map (extend [c]) := by
  rw [literalBody?]
  · intro he
    exact absurd he hc
  · intro _ _ he
    exact absurd he hc

/-- The text of a literal is read up to its mark. -/
theorem literalBody?_append_mark {mark : Char} (hm : mark ≠ '\\') {text : List Char}
    (h : LiteralText mark text) (cs : List Char) :
    literalBody? mark (text ++ mark :: cs) = some (text ++ [mark], cs) := by
  induction h with
  | nil =>
    rw [List.nil_append, literalBody?_cons hm, if_pos rfl]
    rfl
  | plain hc hb _ ih =>
    rw [List.cons_append, literalBody?_cons hb, if_neg hc, ih]
    rfl
  | escaped _ ih =>
    rw [List.cons_append, List.cons_append, literalBody?, ih]
    rfl

theorem exists_of_literalBody? {mark : Char} {cs body rest : List Char}
    (h : literalBody? mark cs = some (body, rest)) :
    ∃ text, LiteralText mark text ∧ body = text ++ [mark] := by
  fun_induction literalBody? mark cs generalizing body with
  | case1 => simp at h
  | case2 => simp at h
  | case3 c cs ih =>
    obtain ⟨p, hp, he⟩ := Option.map_eq_some_iff.1 h
    obtain ⟨rfl, rfl⟩ := Prod.mk.inj he
    obtain ⟨text, ht, hbody⟩ := ih hp
    exact ⟨'\\' :: c :: text, .escaped ht, by rw [hbody]; rfl⟩
  | case4 cs =>
    simp only [Option.some.injEq, Prod.mk.injEq] at h
    exact ⟨[], .nil, h.1.symm⟩
  | case5 c cs hend hesc hc ih =>
    obtain ⟨p, hp, he⟩ := Option.map_eq_some_iff.1 h
    obtain ⟨rfl, rfl⟩ := Prod.mk.inj he
    obtain ⟨text, ht, hbody⟩ := ih hp
    exact ⟨c :: text, .plain hc (ne_backslash hend hesc) ht, by rw [hbody]; rfl⟩

/-- **The reader of literals.** -/
theorem literal?_eq_some_iff {cs rest : List Char} :
    literal? cs = some rest ↔ ∃ l, Literal l ∧ cs = l ++ rest := by
  constructor
  · intro h
    cases cs with
    | nil => simp [literal?] at h
    | cons c cs =>
      rw [literal?] at h
      split at h
      · rename_i hq
        obtain ⟨⟨body, rest'⟩, hp, he⟩ := Option.map_eq_some_iff.1 h
        obtain rfl : rest' = rest := he
        obtain ⟨text, ht, hbody⟩ := exists_of_literalBody? hp
        refine ⟨c :: body, ⟨c, text, hq, ht, by rw [hbody]⟩, ?_⟩
        rw [List.cons_append, literalBody?_append hp]
      · simp at h
  · intro h
    obtain ⟨l, ⟨mark, text, hq, ht, rfl⟩, rfl⟩ := h
    rw [List.cons_append, literal?, if_pos hq, List.append_assoc, List.singleton_append,
      literalBody?_append_mark (ne_backslash_of_isQuote hq) ht]
    rfl

/-! ### Text with matching brackets -/

/-- A character that is neither a quotation mark nor a bracket. -/
def IsPlain (c : Char) : Prop :=
  ¬ isQuote c ∧ closer? c = none ∧ isCloser c = false

/-- Text in which brackets match and literals are closed.  `commas` tells whether commas may stand
outside of all brackets and literals. -/
inductive Nested : (commas : Bool) → List Char → Prop
  | nil {commas : Bool} : Nested commas []
  | plain {commas : Bool} {c : Char} {cs : List Char} :
      IsPlain c → (c = ',' → commas) → Nested commas cs → Nested commas (c :: cs)
  | literal {commas : Bool} {l cs : List Char} :
      Literal l → Nested commas cs → Nested commas (l ++ cs)
  | group {commas : Bool} {o d : Char} {inner cs : List Char} :
      closer? o = some d → Nested true inner → Nested commas cs →
      Nested commas (o :: (inner ++ d :: cs))

/-- Text with matching brackets. -/
abbrev BalancedText : List Char → Prop := Nested true

/-- Text with matching brackets that has no comma outside of them and of all literals. -/
abbrev Piece : List Char → Prop := Nested false

theorem Nested.append {commas : Bool} {a b : List Char} (ha : Nested commas a)
    (hb : Nested commas b) : Nested commas (a ++ b) := by
  induction ha with
  | nil => exact hb
  | plain hc hcomma _ ih => exact .plain hc hcomma (ih hb)
  | literal hl _ ih =>
    rw [List.append_assoc]
    exact .literal hl (ih hb)
  | group ho hinner _ _ ih =>
    rw [List.cons_append, List.append_assoc, List.cons_append]
    exact .group ho hinner (ih hb)

theorem isPlain_comma : IsPlain ',' := by
  refine ⟨?_, ?_, ?_⟩ <;> decide

theorem Nested.balanced {commas : Bool} {b : List Char} (h : Nested commas b) : BalancedText b := by
  induction h with
  | nil => exact .nil
  | plain hc _ _ ih => exact .plain hc (fun _ => rfl) ih
  | literal hl _ ih => exact .literal hl ih
  | group ho hinner _ _ ih => exact .group ho hinner ih

/-- Pieces with commas between them. -/
def joined (p : List Char) (ps : List (List Char)) : List Char :=
  p ++ ps.flatMap (',' :: ·)

/-- **A balanced text is cut at its own commas into pieces.** -/
theorem balancedText_iff {b : List Char} :
    BalancedText b ↔ ∃ p ps, Piece p ∧ (∀ q ∈ ps, Piece q) ∧ b = joined p ps := by
  constructor
  · intro h
    have key : ∀ commas b, Nested commas b →
        ∃ p ps, Piece p ∧ (∀ q ∈ ps, Piece q) ∧ b = joined p ps := by
      intro commas b h
      induction h with
      | nil => exact ⟨[], [], .nil, by simp, rfl⟩
      | @plain _ c cs hc _ _ ih =>
        obtain ⟨p, ps, hp, hps, rfl⟩ := ih
        by_cases hcomma : c = ','
        · subst hcomma
          refine ⟨[], p :: ps, .nil, ?_, by simp [joined]⟩
          intro q hq
          rcases List.mem_cons.1 hq with rfl | hq
          · exact hp
          · exact hps q hq
        · exact ⟨c :: p, ps, .plain hc (fun he => absurd he hcomma) hp, hps, rfl⟩
      | literal hl _ ih =>
        obtain ⟨p, ps, hp, hps, rfl⟩ := ih
        exact ⟨_ ++ p, ps, .literal hl hp, hps, by rw [joined, joined, List.append_assoc]⟩
      | group ho hinner _ _ ih =>
        obtain ⟨p, ps, hp, hps, rfl⟩ := ih
        exact ⟨_, ps, .group ho hinner hp, hps, by simp [joined]⟩
    exact key true b h
  · intro h
    obtain ⟨p, ps, hp, hps, rfl⟩ := h
    refine hp.balanced.append ?_
    induction ps with
    | nil => exact .nil
    | cons q ps ih =>
      have hq := (hps q List.mem_cons_self).balanced
      rw [List.flatMap_cons, List.cons_append]
      refine .plain isPlain_comma (fun _ => rfl) (hq.append (ih ?_))
      intro r hr
      exact hps r (List.mem_cons_of_mem q hr)

/-! ### Brackets -/

/-- The three pairs of brackets. -/
theorem closer?_eq_some_iff {o d : Char} :
    closer? o = some d ↔
      (o = '(' ∧ d = ')') ∨ (o = '[' ∧ d = ']') ∨ (o = '\x7b' ∧ d = '\x7d') := by
  constructor
  · intro h
    unfold closer? at h
    split at h
    · exact Or.inl ⟨rfl, (Option.some.inj h).symm⟩
    · exact Or.inr (Or.inl ⟨rfl, (Option.some.inj h).symm⟩)
    · exact Or.inr (Or.inr ⟨rfl, (Option.some.inj h).symm⟩)
    · exact absurd h (by simp)
  · intro h
    rcases h with ⟨rfl, rfl⟩ | ⟨rfl, rfl⟩ | ⟨rfl, rfl⟩ <;> rfl

theorem not_isQuote_of_closer? {o d : Char} (h : closer? o = some d) : ¬ isQuote o := by
  rcases closer?_eq_some_iff.1 h with ⟨rfl, rfl⟩ | ⟨rfl, rfl⟩ | ⟨rfl, rfl⟩ <;> decide

theorem isCloser_of_closer? {o d : Char} (h : closer? o = some d) : isCloser d := by
  rcases closer?_eq_some_iff.1 h with ⟨rfl, rfl⟩ | ⟨rfl, rfl⟩ | ⟨rfl, rfl⟩ <;> rfl

theorem isCloser_iff {d : Char} : isCloser d ↔ d = ')' ∨ d = ']' ∨ d = '\x7d' := by
  simp only [isCloser, Bool.or_eq_true, beq_iff_eq, or_assoc]

theorem not_isQuote_of_isCloser {d : Char} (h : isCloser d) : ¬ isQuote d := by
  rcases isCloser_iff.1 h with rfl | rfl | rfl <;> decide

theorem closer?_of_isCloser {d : Char} (h : isCloser d) : closer? d = none := by
  rcases isCloser_iff.1 h with rfl | rfl | rfl <;> rfl

/-- Brackets that are opened in nested text are closed in it: after an opening parenthesis there
is a closing bracket, or the quotation mark of a literal that it is a part of. -/
theorem Nested.exists_of_open {commas : Bool} {b z y : List Char} (h : Nested commas b)
    (hb : b = z ++ '(' :: y) : ∃ c ∈ y, isQuote c ∨ isCloser c := by
  induction h generalizing z y with
  | nil => simp at hb
  | @plain _ c cs hc _ _ ih =>
    cases z with
    | nil =>
      obtain ⟨rfl, -⟩ := List.cons.inj hb
      exact absurd hc.2.1 (by decide)
    | cons _ z => exact ih (List.cons.inj hb).2
  | @literal _ l cs hl _ ih =>
    rcases append_eq_append_cases hb with ⟨e, hl', hy⟩ | ⟨e, _, -, hcs⟩
    · obtain ⟨mark, text, hq, -, rfl⟩ := hl
      cases e with
      | nil =>
        -- the parenthesis comes right after the literal
        exact ih (z := []) (by simpa using hy.symm)
      | cons o e =>
        obtain ⟨rfl, rfl⟩ := List.cons.inj hy
        have hlast : mark ∈ '(' :: e := mem_of_concat_eq_append (z := mark :: text) hl' (by simp)
        rcases List.mem_cons.1 hlast with rfl | hmem
        · exact absurd hq (by decide)
        · exact ⟨mark, List.mem_append_left cs hmem, Or.inl hq⟩
    · exact ih hcs
  | @group _ o d inner cs ho _ _ ihinner ih =>
    have hd := isCloser_of_closer? ho
    cases z with
    | nil =>
      obtain ⟨-, rfl⟩ := List.cons.inj hb
      exact ⟨d, by simp, Or.inr hd⟩
    | cons _ z =>
      rcases append_eq_append_cases (List.cons.inj hb).2 with ⟨e, hinner, hy⟩ | ⟨e, hne, -, hcs⟩
      · cases e with
        | nil =>
          obtain ⟨rfl, -⟩ := List.cons.inj hy
          exact absurd hd (by decide)
        | cons _ e =>
          obtain ⟨-, rfl⟩ := List.cons.inj hy
          exact ⟨d, by simp, Or.inr hd⟩
      · cases e with
        | nil => exact absurd rfl hne
        | cons _ e => exact ih (List.cons.inj hcs).2

/-! ### One step of the reader of a tail -/

@[simp] theorem Tail.prepend_nil (t : Tail) : t.prepend [] = t := rfl

@[simp] theorem Tail.prepend_prepend (a b : List Char) (t : Tail) :
    (t.prepend b).prepend a = t.prepend (a ++ b) := by
  simp [Tail.prepend]

theorem map_prepend_prepend (a b : List Char) (t : Option Tail) :
    (t.map (Tail.prepend b)).map (Tail.prepend a) = t.map (Tail.prepend (a ++ b)) := by
  cases t with
  | none => rfl
  | some t => simp

theorem tail?_literal {l : List Char} (hl : Literal l) (closers cs : List Char) :
    tail? closers (l ++ cs) = (tail? closers cs).map (Tail.prepend l) := by
  obtain ⟨mark, text, hq, ht, rfl⟩ := hl
  have hbody := literalBody?_append_mark (ne_backslash_of_isQuote hq) ht cs
  rw [List.cons_append, List.append_assoc, List.singleton_append, tail?.eq_def]
  simp only []
  rw [if_pos hq]
  split
  · rename_i hnone
    rw [hbody] at hnone
    exact absurd hnone (by simp)
  · rename_i hsome
    rw [hbody] at hsome
    obtain ⟨rfl, rfl⟩ := Prod.mk.inj (Option.some.inj hsome)
    rfl

theorem tail?_open {o d : Char} (ho : closer? o = some d) (closers cs : List Char) :
    tail? closers (o :: cs) = (tail? (d :: closers) cs).map (Tail.prepend [o]) := by
  rw [tail?.eq_def]
  simp only []
  rw [if_neg (not_isQuote_of_closer? ho), ho]

theorem tail?_close {d : Char} (hd : isCloser d) (closers cs : List Char) :
    tail? (d :: closers) (d :: cs) = (tail? closers cs).map (Tail.prepend [d]) := by
  rw [tail?, if_neg (not_isQuote_of_isCloser hd), closer?_of_isCloser hd]
  simp [hd]

theorem tail?_paren (cs : List Char) : tail? [] (')' :: cs) = some ⟨[], [], cs⟩ := by
  rw [tail?, if_neg (by decide)]
  rfl

theorem tail?_comma (cs : List Char) :
    tail? [] (',' :: cs) = (tail? [] cs).map Tail.afterComma := by
  rw [tail?, if_neg (by decide)]
  rfl

theorem tail?_plain {c : Char} (hc : IsPlain c) {closers : List Char}
    (hcomma : c = ',' → closers ≠ []) (cs : List Char) :
    tail? closers (c :: cs) = (tail? closers cs).map (Tail.prepend [c]) := by
  obtain ⟨hq, ho, hd⟩ := hc
  rw [tail?.eq_def]
  simp only [ho, hd]
  rw [if_neg hq, if_neg Bool.false_ne_true, if_neg fun h => hcomma h.1 h.2]

/-! ### What the reader of a tail accepts -/

/-- **Nested text is read to its end**, whatever brackets are open around it. -/
theorem tail?_nested {commas : Bool} {b : List Char} (h : Nested commas b) {closers : List Char}
    (hc : commas → closers ≠ []) (cs : List Char) :
    tail? closers (b ++ cs) = (tail? closers cs).map (Tail.prepend b) := by
  induction h generalizing closers cs with
  | nil =>
    show tail? closers cs = (tail? closers cs).map id
    rw [Option.map_id, id]
  | @plain _ c b hplain hcomma _ ih =>
    rw [List.cons_append, tail?_plain hplain fun he => hc (hcomma he), ih hc, map_prepend_prepend]
    rfl
  | literal hl _ ih =>
    rw [List.append_assoc, tail?_literal hl, ih hc, map_prepend_prepend]
  | @group _ o d inner b ho _ _ ihinner ih =>
    rw [List.cons_append, List.append_assoc, List.cons_append, tail?_open ho,
      ihinner fun _ => List.cons_ne_nil d closers, tail?_close (isCloser_of_closer? ho), ih hc,
      map_prepend_prepend, map_prepend_prepend, map_prepend_prepend]
    simp

theorem tail?_further {ps : List (List Char)} (hps : ∀ q ∈ ps, Piece q) (rest : List Char) :
    tail? [] (ps.flatMap (',' :: ·) ++ ')' :: rest) = some ⟨[], ps, rest⟩ := by
  induction ps with
  | nil => exact tail?_paren rest
  | cons q ps ih =>
    have hq := hps q List.mem_cons_self
    rw [List.flatMap_cons, List.cons_append, List.cons_append, List.append_assoc, tail?_comma,
      tail?_nested hq fun h => absurd h Bool.false_ne_true,
      ih fun r hr => hps r (List.mem_cons_of_mem q hr)]
    simp [Tail.prepend, Tail.afterComma]

/-- What the first piece of a tail is inside open brackets: balanced text up to the innermost
closing one, and so on outwards, and a piece after the last. -/
def Closes : (closers : List Char) → List Char → Prop
  | [], w => Piece w
  | d :: closers, w => ∃ b v, BalancedText b ∧ Closes closers v ∧ w = b ++ d :: v

theorem Closes.literal {closers l w : List Char} (hl : Literal l) (h : Closes closers w) :
    Closes closers (l ++ w) := by
  cases closers with
  | nil => exact Nested.literal hl h
  | cons d closers =>
    obtain ⟨b, v, hb, hv, rfl⟩ := h
    exact ⟨l ++ b, v, .literal hl hb, hv, by rw [List.append_assoc]⟩

theorem Closes.plain {closers w : List Char} {c : Char} (hc : IsPlain c)
    (hcomma : ¬ (c = ',' ∧ closers = [])) (h : Closes closers w) : Closes closers (c :: w) := by
  cases closers with
  | nil => exact Nested.plain hc (fun he => absurd ⟨he, rfl⟩ hcomma) h
  | cons d closers =>
    obtain ⟨b, v, hb, hv, rfl⟩ := h
    exact ⟨c :: b, v, .plain hc (fun _ => rfl) hb, hv, rfl⟩

/-- Text that closes one more bracket closes the others with that bracket's group in front. -/
theorem Closes.group {closers w : List Char} {o d : Char} (ho : closer? o = some d)
    (h : Closes (d :: closers) w) : Closes closers (o :: w) := by
  obtain ⟨inner, v, hinner, hv, rfl⟩ := h
  cases closers with
  | nil => exact Nested.group ho hinner hv
  | cons d' closers =>
    obtain ⟨b, u, hb, hu, rfl⟩ := hv
    exact ⟨o :: (inner ++ d :: b), u, .group ho hinner hb, hu, by simp⟩

/-- The invariant of the reader: what it has read, in terms of the brackets that were open. -/
def ReadsTail (closers cs : List Char) (t : Tail) : Prop :=
  Closes closers t.first ∧ (∀ p ∈ t.further, Piece p) ∧
    cs = joined t.first t.further ++ ')' :: t.rest

theorem ReadsTail.prepend {closers closers' a cs : List Char} {t : Tail}
    (h : ReadsTail closers cs t) (hc : Closes closers t.first → Closes closers' (a ++ t.first)) :
    ReadsTail closers' (a ++ cs) (t.prepend a) := by
  obtain ⟨hfirst, hfurther, rfl⟩ := h
  exact ⟨hc hfirst, hfurther, by simp [joined, Tail.prepend]⟩

theorem readsTail_of_tail? {closers cs : List Char} {t : Tail} (h : tail? closers cs = some t) :
    ReadsTail closers cs t := by
  fun_induction tail? closers cs generalizing t with
  | case1 => simp at h
  | case2 => simp at h
  | case3 closers c cs hq body rest hbody ih =>
    obtain ⟨t', ht, rfl⟩ := Option.map_eq_some_iff.1 h
    obtain ⟨text, htext, rfl⟩ := exists_of_literalBody? hbody
    have hl : Literal (c :: (text ++ [c])) := ⟨c, text, hq, htext, rfl⟩
    have hread := (ih ht).prepend (fun hc => Closes.literal hl hc)
    rwa [List.cons_append, literalBody?_append hbody] at hread
  | case4 closers c cs hq d ho ih =>
    obtain ⟨t', ht, rfl⟩ := Option.map_eq_some_iff.1 h
    exact (ih ht).prepend fun hc => Closes.group ho hc
  | case5 cs _ _ _ =>
    obtain rfl := Option.some.inj h
    exact ⟨Nested.nil, by simp, rfl⟩
  | case6 => simp at h
  | case7 cs d outer hq hd _ ih =>
    obtain ⟨t', ht, rfl⟩ := Option.map_eq_some_iff.1 h
    exact (ih ht).prepend fun hc => ⟨[], t'.first, .nil, hc, rfl⟩
  | case8 => simp at h
  | case9 closers c cs hq hd hcomma _ ih =>
    obtain ⟨t', ht, rfl⟩ := Option.map_eq_some_iff.1 h
    obtain ⟨rfl, rfl⟩ := hcomma
    obtain ⟨hfirst, hfurther, rfl⟩ := ih ht
    refine ⟨Nested.nil, ?_, by simp [joined, Tail.afterComma]⟩
    intro p hp
    rcases List.mem_cons.1 hp with rfl | hp
    · exact hfirst
    · exact hfurther p hp
  | case10 closers c cs hq hd hcomma ho ih =>
    obtain ⟨t', ht, rfl⟩ := Option.map_eq_some_iff.1 h
    have hplain : IsPlain c :=
      ⟨hq, Option.eq_none_iff_forall_ne_some.2 ho, Bool.eq_false_iff.2 hd⟩
    exact (ih ht).prepend fun hc => Closes.plain hplain hcomma hc

/-- **The reader of a tail cuts a balanced text into its pieces**, and ends after the parenthesis
that closes the call. -/
theorem tail?_eq_some_iff {cs : List Char} {t : Tail} :
    tail? [] cs = some t ↔
      Piece t.first ∧ (∀ p ∈ t.further, Piece p) ∧
        cs = joined t.first t.further ++ ')' :: t.rest := by
  constructor
  · exact readsTail_of_tail?
  · intro h
    obtain ⟨hfirst, hfurther, rfl⟩ := h
    rw [joined, List.append_assoc, tail?_nested hfirst fun h => absurd h Bool.false_ne_true,
      tail?_further hfurther]
    simp [Tail.prepend]

/-! ### How many arguments -/

theorem trim_eq_nil_iff {p : Char → Bool} {cs : List Char} :
    trim p cs = [] ↔ ∀ c ∈ cs, p c := by
  rw [trim, trimEnd, List.reverse_eq_nil_iff, List.dropWhile_eq_nil_iff]
  constructor
  · intro h c hc
    rw [← List.takeWhile_append_dropWhile (p := p) (l := cs), List.mem_append] at hc
    rcases hc with hc | hc
    · exact List.all_eq_true.1 List.all_takeWhile c hc
    · exact h c (List.mem_reverse.2 hc)
  · intro h c hc
    exact h c ((List.dropWhile_sublist p).subset (List.mem_reverse.1 hc))

theorem Tail.not_isPlural {t : Tail} (h : 3 ≤ t.arguments.length) : ¬ t.isPlural := by
  unfold Tail.isPlural
  split
  · exact Bool.false_ne_true
  · rename_i replacements more hargs
    rw [hargs, List.length_cons] at h
    have hmore : ¬ more.length ≤ 1 := by omega
    simp [hmore]

/-- **A tail that is fit for a count**: something stands before its first own comma, and it has at
most two pieces, or a blank third one. -/
theorem Tail.isPlural_iff {t : Tail} :
    t.isPlural ↔ (∃ c ∈ t.first, ¬ isScriptBlank c) ∧
      (t.further.length ≤ 1 ∨ ∃ q r, t.further = [q, r] ∧ ∀ c ∈ r, isScriptBlank c) := by
  obtain ⟨first, further, rest⟩ := t
  have hfirst : (∃ c ∈ first, ¬ isScriptBlank c) ↔ trim isScriptBlank first ≠ [] := by
    rw [Ne, trim_eq_nil_iff]
    simp
  rw [hfirst]
  match further with
  | [] => simp [Tail.isPlural, Tail.arguments, Tail.pieces]
  | [q] =>
    by_cases hq : trim isScriptBlank q = []
    · simp [Tail.isPlural, Tail.arguments, Tail.pieces, hq]
    · simp [Tail.isPlural, Tail.arguments, Tail.pieces, hq]
  | [q, r] =>
    have hr : (∃ q' r', [q, r] = [q', r'] ∧ ∀ c ∈ r', isScriptBlank c) ↔
        trim isScriptBlank r = [] := by
      rw [trim_eq_nil_iff]
      constructor
      · intro h
        obtain ⟨q', r', he, hblank⟩ := h
        obtain ⟨-, hlast⟩ := List.cons.inj he
        rw [(List.cons.inj hlast).1]
        exact hblank
      · intro hblank
        exact ⟨q, r, rfl, hblank⟩
    rw [hr]
    by_cases hblank : trim isScriptBlank r = []
    · simp [Tail.isPlural, Tail.arguments, Tail.pieces, hblank]
    · simp [Tail.isPlural, Tail.arguments, Tail.pieces, hblank]
  | q :: r :: s :: more =>
    -- four pieces or more: even without the last there are too many
    have hmany : ¬ (Tail.mk first (q :: r :: s :: more) rest).isPlural := by
      apply Tail.not_isPlural
      unfold Tail.arguments
      split <;> simp [Tail.pieces]
    simp [hmany]

/-! ### The arguments of a call -/

/-- The arguments of a call in the balanced reading. -/
inductive BalancedArguments : Shape → List Char → Prop
  | literal {l : List Char} : Literal l → BalancedArguments .translate (l ++ [')'])
  | further {l b : List Char} :
      Literal l → BalancedText b → BalancedArguments .translate (l ++ ',' :: (b ++ [')']))
  | formatPlural {n v w one many p : List Char} {ps : List (List Char)} :
      n ≠ [] → (∀ x ∈ n, x.isDigit) →
      (∀ x ∈ v, isScriptBlank x) → (∀ x ∈ w, isScriptBlank x) →
      Literal one → Literal many → Piece p → (∀ q ∈ ps, Piece q) →
      (∃ c ∈ p, ¬ isScriptBlank c) →
      (ps.length ≤ 1 ∨ ∃ q r, ps = [q, r] ∧ ∀ c ∈ r, isScriptBlank c) →
      BalancedArguments .formatPlural
        (n ++ ',' :: (v ++ (one ++ ',' :: (w ++ (many ++ ',' :: (joined p ps ++ [')']))))))

/-- Arguments end with a literal and a parenthesis, or with a comma, balanced text and a
parenthesis. -/
theorem BalancedArguments.exists_end {shape : Shape} {args : List Char}
    (h : BalancedArguments shape args) :
    (∃ l, Literal l ∧ args = l ++ [')']) ∨
      ∃ z b, BalancedText b ∧ args = z ++ [','] ++ b ++ [')'] := by
  cases h with
  | literal hl => exact Or.inl ⟨_, hl, rfl⟩
  | @further l b _ hb => exact Or.inr ⟨l, b, hb, by simp⟩
  | @formatPlural n v w one many p ps _ _ _ _ _ _ hp hps _ _ =>
    have hb : BalancedText (joined p ps) := balancedText_iff.2 ⟨p, ps, hp, hps, rfl⟩
    exact Or.inr ⟨n ++ ',' :: (v ++ (one ++ ',' :: (w ++ many))), joined p ps, hb, by simp⟩

theorem furtherTail?_eq_some_iff {cs : List Char} {t : Tail} :
    furtherTail? cs = some t ↔
      Piece t.first ∧ (∀ p ∈ t.further, Piece p) ∧
        cs = ',' :: (joined t.first t.further ++ ')' :: t.rest) := by
  constructor
  · intro h
    unfold furtherTail? at h
    split at h
    · obtain ⟨hfirst, hfurther, rfl⟩ := tail?_eq_some_iff.1 h
      exact ⟨hfirst, hfurther, rfl⟩
    · simp at h
  · intro h
    obtain ⟨hfirst, hfurther, rfl⟩ := h
    exact tail?_eq_some_iff.2 ⟨hfirst, hfurther, rfl⟩

theorem exists_cons_of_literal {l : List Char} (hl : Literal l) :
    ∃ q text, isQuote q ∧ l = q :: text := by
  obtain ⟨mark, text, hq, _, rfl⟩ := hl
  exact ⟨mark, text ++ [mark], hq, rfl⟩

theorem literalArgument?_eq_some_iff {cs rest : List Char} :
    literalArgument? cs = some rest ↔
      ∃ blanks l, (∀ x ∈ blanks, isScriptBlank x) ∧ Literal l ∧
        cs = ',' :: (blanks ++ (l ++ rest)) := by
  constructor
  · intro h
    unfold literalArgument? at h
    split at h
    · rename_i cs
      obtain ⟨l, hl, he⟩ := literal?_eq_some_iff.1 h
      refine ⟨cs.takeWhile isScriptBlank, l, ?_, hl, ?_⟩
      · intro x hx
        exact List.all_eq_true.1 List.all_takeWhile x hx
      · rw [← he, List.takeWhile_append_dropWhile]
    · simp at h
  · intro h
    obtain ⟨blanks, l, hb, hl, rfl⟩ := h
    obtain ⟨q, text, hq, hql⟩ := exists_cons_of_literal hl
    show literal? ((blanks ++ (l ++ rest)).dropWhile isScriptBlank) = some rest
    rw [hql, List.cons_append, dropWhile_blanks hb hq, ← List.cons_append, ← hql]
    exact literal?_eq_some_iff.2 ⟨l, hl, rfl⟩

theorem balancedTranslate?_eq_some_iff {cs rest : List Char} :
    balancedTranslate? cs = some rest ↔ ∃ w, BalancedArguments .translate w ∧ cs = w ++ rest := by
  constructor
  · intro h
    obtain ⟨more, hmore, hend⟩ := Option.bind_eq_some_iff.1 h
    obtain ⟨l, hl, rfl⟩ := literal?_eq_some_iff.1 hmore
    split at hend
    · obtain rfl := Option.some.inj hend
      exact ⟨l ++ [')'], .literal hl, by simp⟩
    · obtain ⟨t, ht, rfl⟩ := Option.map_eq_some_iff.1 hend
      obtain ⟨hfirst, hfurther, rfl⟩ := furtherTail?_eq_some_iff.1 ht
      have hb : BalancedText (joined t.first t.further) :=
        balancedText_iff.2 ⟨t.first, t.further, hfirst, hfurther, rfl⟩
      exact ⟨_, .further hl hb, by simp⟩
  · intro h
    obtain ⟨w, hw, rfl⟩ := h
    rw [balancedTranslate?, Option.bind_eq_some_iff]
    cases hw with
    | @literal l hl =>
      exact ⟨')' :: rest, literal?_eq_some_iff.2 ⟨l, hl, by simp⟩, rfl⟩
    | @further l b hl hb =>
      obtain ⟨p, ps, hp, hps, rfl⟩ := balancedText_iff.1 hb
      refine ⟨',' :: (joined p ps ++ ')' :: rest), literal?_eq_some_iff.2 ⟨l, hl, by simp⟩, ?_⟩
      have ht := furtherTail?_eq_some_iff (t := ⟨p, ps, rest⟩).2 ⟨hp, hps, rfl⟩
      exact Option.map_eq_some_iff.2 ⟨_, ht, rfl⟩

theorem balancedPlural?_eq_some_iff {cs rest : List Char} :
    balancedPlural? cs = some rest ↔
      ∃ w, BalancedArguments .formatPlural w ∧ cs = w ++ rest := by
  constructor
  · intro h
    obtain ⟨more, hmore, hend⟩ := Option.bind_eq_some_iff.1 h
    obtain ⟨afterOne, hcountOne, hreadMany⟩ := Option.bind_eq_some_iff.1 hmore
    obtain ⟨afterCount, hcount, hreadOne⟩ := Option.bind_eq_some_iff.1 hcountOne
    obtain ⟨n, hne, hn, rfl⟩ := digits?_eq_some hcount
    obtain ⟨v, one, hv, hone, rfl⟩ := literalArgument?_eq_some_iff.1 hreadOne
    obtain ⟨w, many, hw, hmany, rfl⟩ := literalArgument?_eq_some_iff.1 hreadMany
    obtain ⟨t, hfilter, rfl⟩ := Option.map_eq_some_iff.1 hend
    obtain ⟨ht, hplural⟩ := Option.filter_eq_some_iff.1 hfilter
    obtain ⟨hfirst, hfurther, rfl⟩ := furtherTail?_eq_some_iff.1 ht
    obtain ⟨hblank, hcut⟩ := Tail.isPlural_iff.1 hplural
    exact ⟨_, .formatPlural hne hn hv hw hone hmany hfirst hfurther hblank hcut, by simp⟩
  · intro h
    obtain ⟨w, hw, rfl⟩ := h
    cases hw with
    | @formatPlural n v w one many p ps hne hn hv hw hone hmany hp hps hblank hcut =>
      have ht := furtherTail?_eq_some_iff (t := ⟨p, ps, rest⟩).2 ⟨hp, hps, rfl⟩
      have hplural : (Tail.mk p ps rest).isPlural := Tail.isPlural_iff.2 ⟨hblank, hcut⟩
      have hcs :
          n ++ ',' :: (v ++ (one ++ ',' :: (w ++ (many ++ ',' :: (joined p ps ++ [')']))))) ++ rest =
          n ++ ',' :: (v ++ (one ++ ',' :: (w ++ (many ++
            ',' :: (joined p ps ++ ')' :: rest))))) := by simp
      rw [balancedPlural?, hcs, digits?_append hne hn, Option.bind_some,
        literalArgument?_eq_some_iff.2 ⟨v, one, hv, hone, rfl⟩, Option.bind_some,
        literalArgument?_eq_some_iff.2 ⟨w, many, hw, hmany, rfl⟩, Option.bind_some, ht,
        Option.filter_some, if_pos hplural]
      rfl

/-- **The balanced reading accepts exactly its grammar.** -/
theorem balancedArguments?_eq_some_iff {shape : Shape} {cs rest : List Char} :
    balancedArguments? shape cs = some rest ↔ ∃ w, BalancedArguments shape w ∧ cs = w ++ rest := by
  cases shape with
  | translate => exact balancedTranslate?_eq_some_iff
  | formatPlural => exact balancedPlural?_eq_some_iff

end CallHarvest.Call
