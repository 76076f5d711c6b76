import CallHarvest.Proofs.Call.Limit

/-!
# The commas at which a tail is cut

The tail of a call for a count is cut at its own commas, and how many pieces there are decides
whether the call is complete.  The grammar of the pieces says where they end; this file says which
commas these are: exactly the ones that stand in no literal and in no brackets.

* `IsCut` — the pieces of a text; a text with matching brackets has one cut (`existsUnique_isCut`).
* `Enclosed`, `Inside` — literals and groups in brackets, and the commas inside of them.
* `BalancedText.of_append` — what follows a text with matching brackets is told by itself.
* `balancedText_iff_not_inside` — a comma is in no literal and no brackets exactly if the text in
  front of it has matching brackets, and `IsCut.cuts_iff` — then it is one of those that cut.
* `limitedArguments?_plural_iff` — which calls for a count are accepted.
-/

namespace CallHarvest.Call

open CallHarvest.Text (append_eq_append_cases byteLength isScriptBlank)

/-! ### Beginnings of balanced text -/

/-- A closing bracket can be told from some other one. -/
theorem exists_other_closer (d : Char) : ∃ e, isCloser e ∧ e ≠ d := by
  by_cases h : d = ')'
  · exact ⟨']', rfl, by rw [h]; decide⟩
  · exact ⟨')', rfl, fun he => h he.symm⟩

theorem tail?_close_of_ne {d e : Char} (hd : isCloser d) (hne : d ≠ e) (closers cs : List Char) :
    tail? (e :: closers) (d :: cs) = none := by
  rw [tail?, if_neg (not_isQuote_of_isCloser hd), closer?_of_isCloser hd]
  simp [hd, hne]

/-- Balanced text is read to its end inside of brackets that are then closed. -/
theorem tail?_balanced_close {b : List Char} (h : BalancedText b) {e : Char} (he : isCloser e) :
    tail? [e] (b ++ e :: [')']) = some ⟨b ++ [e], [], []⟩ := by
  rw [tail?_nested h fun _ => List.cons_ne_nil e [], tail?_close he, tail?_paren]
  simp [Tail.prepend]

/-- A closing bracket after balanced text closes nothing. -/
theorem BalancedText.not_append_closer {a cs : List Char} {d : Char} (ha : BalancedText a)
    (hd : isCloser d) : ¬ BalancedText (a ++ d :: cs) := by
  intro h
  -- inside of other brackets the reader would stop at the closing one
  obtain ⟨e, he, hne⟩ := exists_other_closer d
  have hread := tail?_balanced_close h he
  rw [List.append_assoc, List.cons_append, tail?_nested ha fun _ => List.cons_ne_nil e [],
    tail?_close_of_ne hd hne.symm] at hread
  exact absurd hread (by simp)

/-- **What follows balanced text in balanced text is balanced.** -/
theorem BalancedText.of_append {a cs : List Char} (ha : BalancedText a)
    (h : BalancedText (a ++ cs)) : BalancedText cs := by
  have hparen : isCloser ')' := rfl
  have hread := tail?_balanced_close h hparen
  rw [List.append_assoc, tail?_nested ha fun _ => List.cons_ne_nil ')' []] at hread
  obtain ⟨t, ht, hprepend⟩ := Option.map_eq_some_iff.1 hread
  obtain ⟨⟨b, v, hb, -, hfirst⟩, -, hcs⟩ := readsTail_of_tail? ht
  obtain ⟨htake, hfurther, hrest⟩ := Tail.mk.inj hprepend
  rw [hfurther, hrest, hfirst] at hcs
  have hcut : cs ++ [')'] = b ++ ')' :: v := by
    have hlast : (cs ++ [')']) ++ [')'] = (b ++ ')' :: v) ++ [')'] := by simpa [joined] using hcs
    exact List.append_cancel_right hlast
  rcases append_eq_append_cases hcut with ⟨e, rfl, he⟩ | ⟨e, hne, rfl, he⟩
  · cases e with
    | nil => rwa [List.append_nil]
    | cons c e =>
      obtain ⟨rfl, -⟩ := List.cons.inj he
      rw [← List.append_assoc] at h
      exact absurd h (BalancedText.not_append_closer (ha.append hb) hparen)
  · obtain ⟨c, e, rfl⟩ := List.exists_cons_of_ne_nil hne
    exact absurd (congrArg List.length he) (by simp)

/-! ### Commas inside of literals and brackets -/

/-- A literal, or a group in brackets. -/
def Enclosed (u : List Char) : Prop :=
  Literal u ∨ ∃ o d inner, closer? o = some d ∧ BalancedText inner ∧ u = o :: (inner ++ [d])

/-- Whether the comma between two parts of a text stands in a literal or in brackets: one of these
begins after balanced text, and takes in the comma. -/
def Inside (x y : List Char) : Prop :=
  ∃ a u v z, BalancedText a ∧ Enclosed (u ++ ',' :: v) ∧ x = a ++ u ∧ y = v ++ z

theorem Inside.append_left {a x y : List Char} (ha : BalancedText a) (h : Inside x y) :
    Inside (a ++ x) y := by
  obtain ⟨b, u, v, z, hb, hu, rfl, rfl⟩ := h
  exact ⟨a ++ b, u, v, z, ha.append hb, hu, (List.append_assoc a b u).symm, rfl⟩

theorem isQuote_of_literal_cons {c : Char} {cs : List Char} (h : Literal (c :: cs)) :
    isQuote c := by
  obtain ⟨q, text, hq, hql⟩ := exists_cons_of_literal h
  rwa [(List.cons.inj hql).1]

/-- A literal is no proper beginning of a literal. -/
theorem Literal.eq_nil_of_append {l cs : List Char} (hl : Literal l) (h : Literal (l ++ cs)) :
    cs = [] := by
  have hread : literal? (l ++ cs) = some cs := literal?_eq_some_iff.2 ⟨l, hl, rfl⟩
  have hread' : literal? (l ++ cs) = some [] :=
    literal?_eq_some_iff.2 ⟨l ++ cs, h, (List.append_nil _).symm⟩
  rw [hread] at hread'
  exact Option.some.inj hread'

/-- The brackets that close two balanced texts at one place are the same. -/
theorem eq_of_closers {a b x y : List Char} {d e : Char} (ha : BalancedText a)
    (hb : BalancedText b) (hd : isCloser d) (he : isCloser e) (h : a ++ d :: x = b ++ e :: y) :
    a = b := by
  have key : ∀ {a b x y : List Char} {d e : Char}, BalancedText a → BalancedText b →
      isCloser e → a ++ d :: x = b ++ e :: y → a <+: b := by
    intro a b x y d e ha hb he h
    rcases append_eq_append_cases h with ⟨f, rfl, hf⟩ | ⟨f, -, rfl, -⟩
    · cases f with
      | nil => exact (List.append_nil _).symm ▸ List.prefix_rfl
      | cons c f =>
        obtain ⟨rfl, -⟩ := List.cons.inj hf
        exact absurd ha (BalancedText.not_append_closer hb he)
    · exact List.prefix_append a f
  have hab := key ha hb he h
  have hba := key hb ha hd h.symm
  exact hab.eq_of_length_le hba.length_le

/-- **What a literal or a group begins with is not balanced** before its end. -/
theorem Enclosed.not_balanced {u v : List Char} {c : Char} (h : Enclosed (u ++ c :: v))
    (hu : u ≠ []) : ¬ BalancedText u := by
  intro hb
  rcases h with hl | ⟨o, d, inner, ho, hinner, heq⟩
  · cases hb with
    | nil => exact hu rfl
    | plain hc _ _ => exact hc.1 (isQuote_of_literal_cons hl)
    | @literal _ l cs hl' _ =>
      rw [List.append_assoc] at hl
      exact absurd (hl'.eq_nil_of_append hl) (by simp)
    | group ho _ _ => exact not_isQuote_of_closer? ho (isQuote_of_literal_cons hl)
  · cases hb with
    | nil => exact hu rfl
    | plain hc _ _ =>
      obtain ⟨rfl, -⟩ := List.cons.inj heq
      rw [hc.2.1] at ho
      exact absurd ho (by simp)
    | @literal _ l cs hl _ =>
      obtain ⟨q, text, hq, rfl⟩ := exists_cons_of_literal hl
      obtain ⟨rfl, -⟩ := List.cons.inj heq
      exact not_isQuote_of_closer? ho hq
    | @group _ o' d' inner' cs ho' hinner' _ =>
      -- both groups end where the first of them does, with nothing after it
      have hcut : inner' ++ d' :: (cs ++ c :: v) = inner ++ d :: [] := by
        simpa using (List.cons.inj heq).2
      have hsame := eq_of_closers hinner' hinner (isCloser_of_closer? ho')
        (isCloser_of_closer? ho) hcut
      rw [hsame] at hcut
      have hend := (List.cons.inj (List.append_cancel_left hcut)).2
      exact absurd hend (by simp)

/-- A comma of balanced text has balanced text in front of it, or is inside. -/
theorem balanced_or_inside {commas : Bool} {b x y : List Char} (h : Nested commas b)
    (hb : b = x ++ ',' :: y) : BalancedText x ∨ Inside x y := by
  induction h generalizing x with
  | nil => exact absurd hb (by simp)
  | @plain _ c cs hc hcomma _ ih =>
    cases x with
    | nil => exact Or.inl .nil
    | cons d x =>
      obtain ⟨rfl, hcs⟩ := List.cons.inj hb
      rcases ih hcs with hx | hx
      · exact Or.inl (.plain hc (fun _ => rfl) hx)
      · exact Or.inr (hx.append_left (a := [c]) (.plain hc (fun _ => rfl) .nil))
  | @literal _ l cs hl _ ih =>
    rcases append_eq_append_cases hb with ⟨e, hcut, hy⟩ | ⟨e, -, rfl, hcs⟩
    · cases e with
      | nil =>
        obtain rfl : l = x := by rw [hcut, List.append_nil]
        exact Or.inl (by simpa using Nested.literal hl .nil)
      | cons d e =>
        obtain ⟨rfl, rfl⟩ := List.cons.inj hy
        rw [hcut] at hl
        exact Or.inr ⟨[], x, e, cs, .nil, Or.inl hl, rfl, rfl⟩
    · have hlb : BalancedText l := List.append_nil l ▸ Nested.literal hl .nil
      rcases ih hcs with hx | hx
      · exact Or.inl (hlb.append hx)
      · exact Or.inr (hx.append_left hlb)
  | @group _ o d inner cs ho hinner _ _ ih =>
    have hg : o :: (inner ++ d :: cs) = (o :: (inner ++ [d])) ++ cs := by simp
    have hgb : BalancedText (o :: (inner ++ [d])) := .group ho hinner .nil
    rw [hg] at hb
    rcases append_eq_append_cases hb with ⟨e, hcut, hy⟩ | ⟨e, -, rfl, hcs⟩
    · cases e with
      | nil =>
        rw [List.append_nil] at hcut
        exact Or.inl (hcut ▸ hgb)
      | cons c e =>
        obtain ⟨rfl, rfl⟩ := List.cons.inj hy
        have henclosed : Enclosed (x ++ ',' :: e) := Or.inr ⟨o, d, inner, ho, hinner, hcut.symm⟩
        exact Or.inr ⟨[], x, e, cs, .nil, henclosed, rfl, rfl⟩
    · rcases ih hcs with hx | hx
      · exact Or.inl (hgb.append hx)
      · exact Or.inr (hx.append_left hgb)

/-- Neither a literal nor a group begins with a comma. -/
theorem Enclosed.ne_nil {u v : List Char} (h : Enclosed (u ++ ',' :: v)) : u ≠ [] := by
  rintro rfl
  rcases h with hl | ⟨o, d, inner, ho, -, heq⟩
  · exact absurd (isQuote_of_literal_cons hl) (by decide)
  · rw [← (List.cons.inj heq).1, isPlain_comma.2.1] at ho
    exact absurd ho (by simp)

/-- **A comma of balanced text is in no literal and no brackets** exactly if the text in front of it
is balanced. -/
theorem balancedText_iff_not_inside {x y : List Char} (h : BalancedText (x ++ ',' :: y)) :
    BalancedText x ↔ ¬ Inside x y := by
  constructor
  · intro hx hinside
    obtain ⟨a, u, v, z, ha, hu, rfl, rfl⟩ := hinside
    exact hu.not_balanced hu.ne_nil (ha.of_append hx)
  · intro hinside
    exact (balanced_or_inside h rfl).resolve_right hinside

/-! ### Cuts -/

/-- The pieces of a text: its parts between the commas that are in no literal and no brackets. -/
structure IsCut (b p : List Char) (ps : List (List Char)) : Prop where
  first : Piece p
  further : ∀ q ∈ ps, Piece q
  joined : b = joined p ps

/-- **A balanced text has one cut.** -/
theorem existsUnique_isCut {b : List Char} (h : BalancedText b) :
    ∃! cut : List Char × List (List Char), IsCut b cut.1 cut.2 := by
  obtain ⟨p, ps, hp, hps, hb⟩ := balancedText_iff.1 h
  refine ⟨(p, ps), ⟨hp, hps, hb⟩, ?_⟩
  rintro ⟨p', ps'⟩ ⟨hp', hps', hb'⟩
  have hread : tail? [] (b ++ [')']) = some ⟨p, ps, []⟩ :=
    tail?_eq_some_iff.2 ⟨hp, hps, by rw [hb]⟩
  have hread' : tail? [] (b ++ [')']) = some ⟨p', ps', []⟩ :=
    tail?_eq_some_iff.2 ⟨hp', hps', by rw [← hb']⟩
  rw [hread] at hread'
  obtain ⟨rfl, rfl, -⟩ := Tail.mk.inj (Option.some.inj hread')
  rfl

theorem IsCut.balanced {b p : List Char} {ps : List (List Char)} (h : IsCut b p ps) :
    BalancedText b :=
  balancedText_iff.2 ⟨p, ps, h.first, h.further, h.joined⟩

/-- **The commas that cut a text** are those with balanced text in front of them. -/
theorem IsCut.cuts_iff {b p x y : List Char} {ps : List (List Char)} (h : IsCut b p ps)
    (hb : b = x ++ ',' :: y) :
    (∃ before q after, ps = before ++ q :: after ∧ x = Call.joined p before ∧
      y = Call.joined q after) ↔ BalancedText x := by
  constructor
  · intro hcut
    obtain ⟨before, q, after, rfl, rfl, -⟩ := hcut
    have hbefore : ∀ r ∈ before, Piece r := fun r hr =>
      h.further r (List.mem_append_left _ hr)
    exact balancedText_iff.2 ⟨p, before, h.first, hbefore, rfl⟩
  · intro hx
    have hrest : BalancedText (',' :: y) := hx.of_append (hb ▸ h.balanced)
    have hcomma : BalancedText [','] := .plain isPlain_comma (fun _ => rfl) .nil
    have hy : BalancedText y := hcomma.of_append hrest
    obtain ⟨p', before, hp', hbefore, rfl⟩ := balancedText_iff.1 hx
    obtain ⟨q, after, hq, hafter, rfl⟩ := balancedText_iff.1 hy
    have hcut : IsCut b p' (before ++ q :: after) := by
      refine ⟨hp', ?_, by rw [hb]; simp [Call.joined]⟩
      intro r hr
      rcases List.mem_append.1 hr with hr | hr
      · exact hbefore r hr
      · rcases List.mem_cons.1 hr with rfl | hr
        · exact hq
        · exact hafter r hr
    obtain ⟨_, -, honly⟩ := existsUnique_isCut h.balanced
    have hsame := (honly (p, ps) h).trans (honly (p', before ++ q :: after) hcut).symm
    obtain ⟨rfl, rfl⟩ := Prod.mk.inj hsame
    exact ⟨before, q, after, rfl, rfl, rfl⟩

/-! ### Calls for a count -/

/-- A tail that is fit for a count: its first piece is not blank, and it has at most two pieces, or
three of which the last is blank. -/
def FitsCount (b : List Char) : Prop :=
  ∃ p ps, IsCut b p ps ∧ (∃ c ∈ p, ¬ isScriptBlank c) ∧
    ((p :: ps).length ≤ 2 ∨ ∃ q r, ps = [q, r] ∧ ∀ c ∈ r, isScriptBlank c)

/-- The arguments of a call for a count: digits, two literals, and a balanced tail that is fit. -/
def CountArguments (args : List Char) : Prop :=
  ∃ n v one w many b, n ≠ [] ∧ (∀ x ∈ n, x.isDigit) ∧
    (∀ x ∈ v, isScriptBlank x) ∧ (∀ x ∈ w, isScriptBlank x) ∧ Literal one ∧ Literal many ∧
    BalancedText b ∧ FitsCount b ∧
    args = n ++ ',' :: (v ++ (one ++ ',' :: (w ++ (many ++ ',' :: (b ++ [')'])))))

theorem balancedArguments_formatPlural_iff {args : List Char} :
    BalancedArguments .formatPlural args ↔ CountArguments args := by
  constructor
  · intro h
    cases h with
    | @formatPlural n v w one many p ps hne hn hv hw hone hmany hp hps hblank hfew =>
      have hcut : IsCut (joined p ps) p ps := ⟨hp, hps, rfl⟩
      have hfits : FitsCount (joined p ps) := ⟨p, ps, hcut, hblank, hfew.imp_left Nat.succ_le_succ⟩
      exact ⟨n, v, one, w, many, _, hne, hn, hv, hw, hone, hmany, hcut.balanced, hfits, rfl⟩
  · intro h
    obtain ⟨n, v, one, w, many, _, hne, hn, hv, hw, hone, hmany, -, hfits, rfl⟩ := h
    obtain ⟨p, ps, ⟨hp, hps, rfl⟩, hblank, hfew⟩ := hfits
    exact .formatPlural hne hn hv hw hone hmany hp hps hblank (hfew.imp_left Nat.le_of_succ_le_succ)

/-- **The balanced reading of a call for a count.**  It accepts the arguments of at most 4096 bytes
that consist of digits, two literals, a balanced tail that is fit for a count, and a closing
parenthesis; at most one beginning of a text is of this form.  A balanced tail has one cut, and the
commas that cut it are those in no literal and no brackets. -/
theorem limitedArguments?_plural_iff :
    (∀ cs rest, limitedArguments? .formatPlural cs = some rest ↔
      ∃ args, cs = args ++ rest ∧ byteLength args ≤ 4096 ∧ CountArguments args) ∧
    (∀ cs args args', CountArguments args → CountArguments args' → args <+: cs → args' <+: cs →
      args = args') ∧
    ∀ b, BalancedText b → (∃! cut : List Char × List (List Char), IsCut b cut.1 cut.2) ∧
      ∀ p ps x y, IsCut b p ps → b = x ++ ',' :: y →
        ((∃ before q after, ps = before ++ q :: after ∧ x = joined p before ∧ y = joined q after) ↔
          ¬ Inside x y) := by
  refine ⟨?_, ?_, ?_⟩
  · intro cs rest
    rw [limitedArguments?_eq_some_iff]
    simp only [balancedArguments_formatPlural_iff, callLimit]
  · intro cs args args' h h' hp hp'
    rw [← balancedArguments_formatPlural_iff] at h h'
    exact h.unique h' hp hp'
  · intro b hb
    refine ⟨existsUnique_isCut hb, ?_⟩
    intro p ps x y hcut hxy
    rw [hcut.cuts_iff hxy]
    exact balancedText_iff_not_inside (hxy ▸ hb)

example :
    limitedArguments? .formatPlural "2,'a','b',\x7bx: [1, 2], y: ','\x7d, f(3, 4),) + 1".toList =
      some " + 1".toList := by
  decide +kernel

end CallHarvest.Call
