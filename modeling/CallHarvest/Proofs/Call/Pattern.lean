import CallHarvest.Proofs.Call.Head

/-!
# Patterns with preferences

The lazy reading answers as a backtracking search for a pattern does.  Of the ends to which a
pattern leads from a place, some are preferred to others: those of the first branch to those of the
second, more rounds of a greedy repetition to fewer, and fewer rounds of a lazy one to more.  A
search takes the end that it prefers.

* `Pattern`, `Pattern.ends` — patterns, and the ends that they lead to, the preferred ones first.
* `Pattern.search` — what a continuation answers at the first end from which it can go on, which is
  how a pattern behaves at the beginning of a longer one.
* `callPattern` — the pattern of the calls of a shape.
* `head?_ends_callPattern` — the end that a search prefers is the end of the call that is read.
-/

namespace CallHarvest.Call

open CallHarvest.Text (after? after?_eq_some_iff isScriptBlank)

/-- A pattern for the beginning of a text. -/
inductive Pattern
  /-- One character of a class. -/
  | one (p : Char → Bool)
  | empty
  | seq (a b : Pattern)
  /-- Either of two, the first one preferred. -/
  | either (a b : Pattern)
  /-- Any number of rounds: a greedy repetition prefers more of them, a lazy one fewer. -/
  | many (greedy : Bool) (a : Pattern)

namespace Pattern

/-- The ends of a repetition, given those of one round.  A round takes at least a character. -/
def repeated (greedy : Bool) (round : List Char → List (List Char)) (cs : List Char) :
    List (List Char) :=
  let further := (round cs).flatMap fun rest =>
    if _shorter : rest.length < cs.length then repeated greedy round rest else []
  if greedy then further ++ [cs] else cs :: further
termination_by cs.length

/-- What may be left of a text after a pattern, in the order of preference. -/
def ends : Pattern → List Char → List (List Char)
  | .one _, [] => []
  | .one p, c :: cs => if p c then [cs] else []
  | .empty, cs => [cs]
  | .seq a b, cs => (a.ends cs).flatMap b.ends
  | .either a b, cs => a.ends cs ++ b.ends cs
  | .many greedy a, cs => repeated greedy a.ends cs

/-- The answer of `next` at the first end of a pattern from which it has one. -/
def search (a : Pattern) (next : List Char → Option (List Char)) (cs : List Char) :
    Option (List Char) :=
  (a.ends cs).findSome? next

/-! ### Searching for the parts of a pattern -/

theorem findSome?_flatMap {α β γ : Type} (f : α → List β) (g : β → Option γ) (l : List α) :
    (l.flatMap f).findSome? g = l.findSome? fun a => (f a).findSome? g := by
  induction l with
  | nil => rfl
  | cons a l ih =>
    rw [List.flatMap_cons, List.findSome?_append, ih, List.findSome?_cons]
    cases (f a).findSome? g <;> rfl

@[simp] theorem search_empty (next : List Char → Option (List Char)) :
    Pattern.empty.search next = next := by
  funext cs
  simp [search, ends]

@[simp] theorem search_seq (a b : Pattern) (next : List Char → Option (List Char)) :
    (a.seq b).search next = a.search (b.search next) :=
  funext fun cs => findSome?_flatMap b.ends next (a.ends cs)

@[simp] theorem search_either (a b : Pattern) (next : List Char → Option (List Char))
    (cs : List Char) : (a.either b).search next cs = (a.search next cs).or (b.search next cs) :=
  List.findSome?_append

@[simp] theorem search_one_nil (p : Char → Bool) (next : List Char → Option (List Char)) :
    (Pattern.one p).search next [] = none := rfl

theorem search_one_cons (p : Char → Bool) (next : List Char → Option (List Char)) (c : Char)
    (cs : List Char) : (Pattern.one p).search next (c :: cs) = if p c then next cs else none := by
  rw [search, ends]
  split
  · exact List.findSome?_singleton
  · rfl

/-- One round at least, or none. -/
theorem search_many (greedy : Bool) (a : Pattern) (next : List Char → Option (List Char))
    (cs : List Char) :
    (Pattern.many greedy a).search next cs =
      let further := a.search (fun rest =>
        if rest.length < cs.length then (Pattern.many greedy a).search next rest else none) cs
      if greedy then further.or (next cs) else (next cs).or further := by
  have hfurther : ((a.ends cs).flatMap fun rest =>
        if _h : rest.length < cs.length then repeated greedy a.ends rest else []).findSome? next =
      a.search (fun rest =>
        if rest.length < cs.length then (Pattern.many greedy a).search next rest else none) cs := by
    rw [findSome?_flatMap]
    refine congrArg (fun f => (a.ends cs).findSome? f) (funext fun rest => ?_)
    split <;> rfl
  rw [search, ends, repeated]
  cases greedy with
  | true =>
    rw [if_pos rfl, List.findSome?_append, hfurther, List.findSome?_singleton]
    rfl
  | false =>
    rw [if_neg Bool.false_ne_true, List.findSome?_cons, hfurther]
    cases next cs <;> rfl

/-! ### Repetitions of characters -/

theorem search_many_one_nil (greedy : Bool) (p : Char → Bool)
    (next : List Char → Option (List Char)) :
    (Pattern.many greedy (.one p)).search next [] = next [] := by
  rw [search_many]
  cases greedy <;> simp

theorem search_many_one_cons (greedy : Bool) (p : Char → Bool)
    (next : List Char → Option (List Char)) (c : Char) (cs : List Char) :
    (Pattern.many greedy (.one p)).search next (c :: cs) =
      let further := if p c then (Pattern.many greedy (.one p)).search next cs else none
      if greedy then further.or (next (c :: cs)) else (next (c :: cs)).or further := by
  rw [search_many, search_one_cons]
  simp only [List.length_cons, Nat.lt_add_one, if_true]

/-- A greedy repetition before something that none of its characters may begin takes all of
them. -/
theorem search_many_greedy {p : Char → Bool} {next : List Char → Option (List Char)}
    (hn : ∀ c cs, p c → next (c :: cs) = none) (cs : List Char) :
    (Pattern.many true (.one p)).search next cs = next (cs.dropWhile p) := by
  induction cs with
  | nil => exact search_many_one_nil true p next
  | cons c cs ih =>
    rw [search_many_one_cons]
    by_cases hc : p c
    · simp [hc, hn c cs hc, ih]
    · simp [hc]

/-- A given text. -/
def text (s : List Char) : Pattern :=
  s.foldr (fun c a => .seq (.one (· == c)) a) .empty

theorem search_text (s : List Char) (next : List Char → Option (List Char)) (cs : List Char) :
    (text s).search next cs = (after? s cs).bind next := by
  induction s generalizing cs with
  | nil => exact congrFun (search_empty next) cs
  | cons b s ih =>
    show ((Pattern.one (· == b)).seq (text s)).search next cs = _
    rw [search_seq]
    cases cs with
    | nil => rfl
    | cons c cs =>
      rw [search_one_cons, after?]
      by_cases h : b = c
      · rw [if_pos (by simp [h]), if_pos h, ih]
      · rw [if_neg (by simp [Ne.symm h]), if_neg h]
        rfl

end Pattern

/-! ### The patterns of the calls -/

/-- Any text, as little of it as will do. -/
def anyText : Pattern := .many false (.one fun _ => true)

/-- A given character. -/
def sign (c : Char) : Pattern := .one (· == c)

/-- Blanks, as many as there are. -/
def blanks : Pattern := .many true (.one isScriptBlank)

/-- A literal, and what has to follow it. -/
def literalThen (next : Pattern) : Pattern :=
  .seq (.one isQuote) (.seq anyText (.seq (.one isQuote) next))

/-- The head of a call in either spelling. -/
def headPattern (shape : Shape) : Pattern :=
  .seq (.either (.text wrappedName.toList) (.text bareName.toList))
    (.text ('.' :: shape.method.toList ++ ['(']))

/-- The arguments of a call: for one text, a literal and any number of further arguments; for a
count, digits, two literals, one more argument, and possibly another. -/
def argumentsPattern : Shape → Pattern
  | .translate =>
    literalThen (.seq (.many false (.seq (sign ',') anyText)) (sign ')'))
  | .formatPlural =>
    .seq (.seq (.one Char.isDigit) (.many true (.one Char.isDigit))) <|
      .seq (sign ',') <| .seq blanks <| literalThen <|
      .seq (sign ',') <| .seq blanks <| literalThen <|
      .seq (sign ',') <| .seq blanks <| .seq anyText <|
      .seq (.either (.seq (sign ',') (.seq blanks anyText)) .empty) (sign ')')

/-- A call. -/
def callPattern (shape : Shape) : Pattern :=
  .seq (headPattern shape) (argumentsPattern shape)

/-! ### The search for a call is its lazy reading -/

theorem search_sign_cons (d : Char) (next : List Char → Option (List Char)) (c : Char)
    (cs : List Char) : (sign d).search next (c :: cs) = if c = d then next cs else none := by
  rw [sign, Pattern.search_one_cons]
  simp only [beq_iff_eq]

theorem search_anyText_nil (next : List Char → Option (List Char)) :
    anyText.search next [] = next [] :=
  Pattern.search_many_one_nil false _ next

theorem search_anyText_cons (next : List Char → Option (List Char)) (c : Char) (cs : List Char) :
    anyText.search next (c :: cs) = (next (c :: cs)).or (anyText.search next cs) :=
  Pattern.search_many_one_cons false _ next c cs

theorem search_anyText_congr {next next' : List Char → Option (List Char)} {cs : List Char}
    (h : ∀ xs, xs <:+ cs → next xs = next' xs) :
    anyText.search next cs = anyText.search next' cs := by
  induction cs with
  | nil => rw [search_anyText_nil, search_anyText_nil, h [] List.suffix_rfl]
  | cons c cs ih =>
    rw [search_anyText_cons, search_anyText_cons, h _ List.suffix_rfl,
      ih fun xs hx => h xs (hx.trans (List.suffix_cons c cs))]

/-- The first end of a literal that will do. -/
theorem search_literalThen (a : Pattern) (next : List Char → Option (List Char)) :
    (literalThen a).search next = quoted (a.search next) := by
  have hclose : anyText.search ((Pattern.one isQuote).search (a.search next)) =
      closing (a.search next) := by
    funext cs
    induction cs with
    | nil => exact search_anyText_nil _
    | cons c cs ih =>
      rw [search_anyText_cons, Pattern.search_one_cons, ih, closing]
      by_cases hc : isQuote c
      · rw [if_pos hc, if_pos hc]
        cases a.search next cs <;> rfl
      · rw [if_neg hc, if_neg hc, Option.none_or]
  funext cs
  rw [literalThen, Pattern.search_seq, Pattern.search_seq, Pattern.search_seq, hclose]
  cases cs with
  | nil => rfl
  | cons c cs => rw [Pattern.search_one_cons, quoted]

/-- Blanks before a literal are passed over. -/
theorem search_comma_blanks_quoted (next : List Char → Option (List Char)) :
    (sign ',').search (blanks.search (quoted next)) = quotedArgument next := by
  funext cs
  cases cs with
  | nil => rfl
  | cons c cs =>
    rw [search_sign_cons]
    split
    · rename_i hc
      subst hc
      rw [blanks, Pattern.search_many_greedy]
      · rfl
      · intro c cs hc
        rw [quoted, if_neg fun hq => not_isScriptBlank_of_isQuote hq hc]
    · rename_i hc
      unfold quotedArgument
      split
      · rename_i he
        exact absurd (List.cons.inj he).1 hc
      · rfl

theorem search_digits {next : List Char → Option (List Char)}
    (hn : ∀ c cs, c.isDigit → next (c :: cs) = none) (cs : List Char) :
    ((Pattern.one Char.isDigit).seq (.many true (.one Char.isDigit))).search next cs =
      (digits? cs).bind next := by
  rw [Pattern.search_seq]
  cases cs with
  | nil => rfl
  | cons c cs =>
    rw [Pattern.search_one_cons, digits?, Pattern.search_many_greedy hn]
    split <;> rfl

/-- What follows the literal of a call for one text reaches from there to the first closing
parenthesis, and so does any text before it. -/
theorem search_anyText_afterLiteral (cs : List Char) :
    anyText.search afterLiteral cs = throughParen cs := by
  induction cs with
  | nil => exact search_anyText_nil _
  | cons c cs ih =>
    rw [search_anyText_cons, ih]
    by_cases hp : c = ')'
    · subst hp
      rfl
    · rw [throughParen_cons_of_ne hp]
      by_cases hc : c = ','
      · subst hc
        exact Option.or_self
      · have hnone : afterLiteral (c :: cs) = none := by
          simp [afterLiteral, furtherArguments, hp, hc]
        rw [hnone, Option.none_or]

theorem afterLiteral_eq (cs : List Char) :
    afterLiteral cs = ((sign ')').search some cs).or ((sign ',').search throughParen cs) := by
  cases cs with
  | nil => rfl
  | cons c cs =>
    rw [search_sign_cons, search_sign_cons]
    by_cases hp : c = ')'
    · subst hp
      rfl
    · by_cases hc : c = ','
      · subst hc
        rfl
      · simp [afterLiteral, furtherArguments, hp, hc]

/-- Rounds of a comma and any text, up to a closing parenthesis. -/
theorem search_further (cs : List Char) :
    ((Pattern.many false ((sign ',').seq anyText)).seq (sign ')')).search some cs =
      afterLiteral cs := by
  rw [Pattern.search_seq]
  induction h : cs.length using Nat.strongRecOn generalizing cs with
  | ind n ih =>
    subst h
    rw [Pattern.search_many, Pattern.search_seq, afterLiteral_eq]
    cases cs with
    | nil => rfl
    | cons c cs =>
      -- a round leaves a suffix of what is after its comma, of which the claim holds already
      have hround : anyText.search (fun rest =>
          if rest.length < (c :: cs).length then
            (Pattern.many false ((sign ',').seq anyText)).search ((sign ')').search some) rest
          else none) cs = throughParen cs := by
        rw [← search_anyText_afterLiteral]
        apply search_anyText_congr
        intro xs hx
        have hlt : xs.length < (c :: cs).length := Nat.lt_succ_of_le hx.length_le
        rw [if_pos hlt, ih xs.length hlt xs rfl]
      show Option.or _ _ = _
      rw [search_sign_cons ',', hround, search_sign_cons ',']

theorem search_blanks_throughParen (cs : List Char) :
    blanks.search throughParen cs = throughParen cs := by
  induction cs with
  | nil => exact Pattern.search_many_one_nil true _ _
  | cons c cs ih =>
    rw [blanks, Pattern.search_many_one_cons, ← blanks, ih]
    show Option.or _ _ = _
    split
    · rename_i hc
      have hp : c ≠ ')' := by
        rintro rfl
        exact absurd hc (by decide)
      rw [throughParen_cons_of_ne hp, Option.or_self]
    · exact Option.none_or

theorem search_anyText_paren : anyText.search ((sign ')').search some) = throughParen := by
  funext cs
  induction cs with
  | nil => exact search_anyText_nil _
  | cons c cs ih =>
    rw [search_anyText_cons, ih, search_sign_cons, throughParen]
    split
    · rfl
    · exact Option.none_or

/-- One argument, and possibly another, up to a closing parenthesis. -/
theorem search_plural_further (cs : List Char) :
    ((sign ',').seq (blanks.seq (anyText.seq
      (((sign ',').seq (blanks.seq anyText)).either .empty |>.seq (sign ')'))))).search some cs =
      furtherArguments cs := by
  have hlast : (((sign ',').seq (blanks.seq anyText)).either .empty).search
      ((sign ')').search some) = afterLiteral := by
    funext cs
    rw [Pattern.search_either, Pattern.search_seq, Pattern.search_seq, search_anyText_paren,
      funext search_blanks_throughParen, Pattern.search_empty, afterLiteral_eq]
    cases cs with
    | nil => rfl
    | cons c cs =>
      rw [search_sign_cons, search_sign_cons]
      by_cases hc : c = ','
      · subst hc
        simp
      · simp [hc]
  rw [Pattern.search_seq, Pattern.search_seq, Pattern.search_seq, Pattern.search_seq, hlast,
    funext search_anyText_afterLiteral, funext search_blanks_throughParen]
  cases cs with
  | nil => rfl
  | cons c cs =>
    rw [search_sign_cons]
    by_cases hc : c = ','
    · subst hc
      rfl
    · simp [furtherArguments, hc]

theorem search_argumentsPattern (shape : Shape) (cs : List Char) :
    (argumentsPattern shape).search some cs = lazyArguments? shape cs := by
  cases shape with
  | translate =>
    rw [argumentsPattern, search_literalThen, funext search_further]
    rfl
  | formatPlural =>
    have hcomma : ∀ (next : List Char → Option (List Char)) (c : Char) (cs : List Char),
        c.isDigit → quotedArgument next (c :: cs) = none := by
      intro next c cs hc
      unfold quotedArgument
      split
      · rename_i he
        rw [(List.cons.inj he).1] at hc
        exact absurd hc (by decide)
      · rfl
    rw [argumentsPattern, Pattern.search_seq]
    simp only [Pattern.search_seq (sign ',') (blanks.seq (literalThen _)),
      Pattern.search_seq blanks (literalThen _), search_literalThen, search_comma_blanks_quoted]
    rw [search_digits (hcomma _), funext search_plural_further]
    rfl

theorem after?_append (r s cs : List Char) :
    after? (r ++ s) cs = (after? r cs).bind (after? s) := by
  induction r generalizing cs with
  | nil => rfl
  | cons b r ih =>
    cases cs with
    | nil => rfl
    | cons c cs =>
      rw [List.cons_append, after?, after?]
      split
      · exact ih cs
      · rfl

theorem search_headPattern (shape : Shape) (next : List Char → Option (List Char))
    (cs : List Char) : (headPattern shape).search next cs = (afterHead? shape cs).bind next := by
  have hspelling : ∀ name : String, (Pattern.text name.toList).search
      ((Pattern.text ('.' :: shape.method.toList ++ ['('])).search next) cs =
      (after? (head name shape) cs).bind next := by
    intro name
    rw [Pattern.search_text, funext (Pattern.search_text _ next), head, List.append_assoc,
      after?_append, Option.bind_assoc]
  rw [headPattern, Pattern.search_seq, Pattern.search_either, hspelling, hspelling, afterHead?]
  cases hw : after? (head wrappedName shape) cs with
  | none => rfl
  | some body =>
    -- a text with a wrapped head has no bare one, so that the second spelling adds nothing
    have hbare : after? (head bareName shape) cs = none := by
      rw [after?_eq_some_iff.1 hw]
      simp [head, wrappedName, bareName, after?]
    rw [hbare]
    exact Option.or_none

/-- **The search for the pattern of a call is its lazy reading.**  The end that is preferred of all
to which the pattern leads is the end that the reading comes to. -/
theorem head?_ends_callPattern (shape : Shape) (cs : List Char) :
    ((callPattern shape).ends cs).head? = call? .lazy shape cs := by
  have hsome : ∀ l : List (List Char), l.head? = l.findSome? some := by
    intro l
    cases l <;> rfl
  rw [hsome]
  show (callPattern shape).search some cs = _
  rw [callPattern, Pattern.search_seq, search_headPattern, funext (search_argumentsPattern shape)]
  rfl

end CallHarvest.Call
