import CallHarvest.Call.Lazy
import CallHarvest.Text.Utf8

/-!
# Balanced calls

The balanced reading of a call follows literals with their escapes and brackets with their nesting.
It looks at no more than a bounded part of the source after the head, so that a call which is never
closed costs little.

* `literalBody?`, `literal?` — a literal, closed by the mark that opened it; a backslash takes the
  next character with it.
* `Tail` — the arguments after the literals, cut at their own commas, and `tail?`, their reader.
* `balancedArguments?` — the arguments of a call, up to its closing parenthesis.
* `callLimit`, `reach` — how far a call may extend.
-/

namespace CallHarvest.Call

open CallHarvest.Text (before isScriptBlank trim)

/-- Puts characters in front of a text that was read; the other text is what is left. -/
def extend (cs : List Char) : List Char × List Char → List Char × List Char
  | (text, rest) => (cs ++ text, rest)

/-- Reads up to the mark that closes an open literal. -/
def literalBody? (mark : Char) : List Char → Option (List Char × List Char)
  | [] => none
  | '\\' :: [] => none
  | '\\' :: c :: cs => (literalBody? mark cs).map (extend ['\\', c])
  | c :: cs => if c = mark then some ([c], cs) else (literalBody? mark cs).map (extend [c])

/-- Reads past a literal. -/
def literal? : List Char → Option (List Char)
  | [] => none
  | c :: cs => if isQuote c then (literalBody? c cs).map Prod.snd else none

theorem literalBody?_append {mark : Char} {cs body rest : List Char}
    (h : literalBody? mark cs = some (body, rest)) : body ++ rest = cs := by
  fun_induction literalBody? mark cs generalizing body with
  | case1 => simp at h
  | case2 => simp at h
  | case3 c cs ih =>
    obtain ⟨p, hp, he⟩ := Option.map_eq_some_iff.1 h
    obtain ⟨rfl, rfl⟩ := Prod.mk.inj he
    exact congrArg (fun r => '\\' :: c :: r) (ih hp)
  | case4 cs =>
    simp only [Option.some.injEq, Prod.mk.injEq] at h
    obtain ⟨rfl, rfl⟩ := h
    rfl
  | case5 c cs _ _ _ ih =>
    obtain ⟨p, hp, he⟩ := Option.map_eq_some_iff.1 h
    obtain ⟨rfl, rfl⟩ := Prod.mk.inj he
    exact congrArg (c :: ·) (ih hp)

theorem literalBody?_suffix {mark : Char} {cs body rest : List Char}
    (h : literalBody? mark cs = some (body, rest)) : rest <:+ cs :=
  ⟨body, literalBody?_append h⟩

/-! ### The arguments after the literals -/

/-- The bracket that closes an opening one. -/
def closer? : Char → Option Char
  | '(' => some ')'
  | '[' => some ']'
  | '\x7b' => some '\x7d'
  | _ => none

/-- Whether a character is a closing bracket. -/
def isCloser (c : Char) : Bool :=
  c == ')' || c == ']' || c == '\x7d'

/-- The arguments after the literals of a call, with the text after its closing parenthesis: the
text up to the first comma that is in no literal and no bracket, and the texts after such commas. -/
structure Tail where
  first : List Char
  further : List (List Char)
  rest : List Char

/-- A tail with characters put in front. -/
def Tail.prepend (cs : List Char) (t : Tail) : Tail :=
  { t with first := cs ++ t.first }

/-- A tail after a comma of its own. -/
def Tail.afterComma (t : Tail) : Tail :=
  { t with first := [], further := t.first :: t.further }

/-- Reads arguments up to the closing parenthesis of the call, inside the brackets that the given
ones close, the innermost first. -/
def tail? (closers : List Char) : List Char → Option Tail
  | [] => none
  | c :: cs =>
    if isQuote c then
      match _closed : literalBody? c cs with
      | none => none
      | some (body, rest) => (tail? closers rest).map (Tail.prepend (c :: body))
    else if let some d := closer? c then
      (tail? (d :: closers) cs).map (Tail.prepend [c])
    else if isCloser c then
      match closers with
      | [] => if c = ')' then some ⟨[], [], cs⟩ else none
      | d :: outer => if c = d then (tail? outer cs).map (Tail.prepend [c]) else none
    else if c = ',' ∧ closers = [] then
      (tail? closers cs).map Tail.afterComma
    else
      (tail? closers cs).map (Tail.prepend [c])
termination_by cs => cs.length
decreasing_by
  all_goals simp only [List.length_cons]
  · have := (literalBody?_suffix _closed).length_le
    omega
  all_goals omega

/-- The pieces of a tail without the blanks around them. -/
def Tail.pieces (t : Tail) : List (List Char) :=
  (t.first :: t.further).map (trim isScriptBlank)

/-- The pieces of a tail, less an empty last one that only a trailing comma makes. -/
def Tail.arguments (t : Tail) : List (List Char) :=
  if t.further ≠ [] ∧ t.pieces.getLast? = some [] then t.pieces.dropLast else t.pieces

/-- Whether a tail holds replacements and at most one more argument. -/
def Tail.isPlural (t : Tail) : Bool :=
  match t.arguments with
  | [] => false
  | replacements :: more => !replacements.isEmpty && more.length ≤ 1

/-! ### Calls -/

/-- Reads a comma, blanks and a literal. -/
def literalArgument? : List Char → Option (List Char)
  | ',' :: cs => literal? (cs.dropWhile isScriptBlank)
  | _ => none

/-- Reads a comma and the arguments after it. -/
def furtherTail? : List Char → Option Tail
  | ',' :: cs => tail? [] cs
  | _ => none

/-- Reads the arguments of a call for one text: a literal, and further ones after a comma. -/
def balancedTranslate? (cs : List Char) : Option (List Char) :=
  (literal? cs).bind fun
    | ')' :: rest => some rest
    | more => (furtherTail? more).map Tail.rest

/-- Reads the arguments of a call for a count: digits, two literals, replacements, and possibly
options. -/
def balancedPlural? (cs : List Char) : Option (List Char) :=
  (((digits? cs).bind literalArgument?).bind literalArgument?).bind fun more =>
    ((furtherTail? more).filter Tail.isPlural).map Tail.rest

/-- Reads the arguments of a call. -/
def balancedArguments? : Shape → List Char → Option (List Char)
  | .translate => balancedTranslate?
  | .formatPlural => balancedPlural?

/-- The most bytes that a call takes up after its head. -/
def callLimit : Nat := 4096

/-- The characters of a text that begin within its first bytes. -/
def reach : Nat → List Char → List Char
  | 0, _ => []
  | _, [] => []
  | limit, c :: cs => c :: reach (limit - c.utf8Size) cs

/-- Reads the arguments of a call that ends within its limit. -/
def limitedArguments? (shape : Shape) (cs : List Char) : Option (List Char) :=
  let near := reach callLimit cs
  (balancedArguments? shape near).map fun rest => cs.drop (before near rest).length

end CallHarvest.Call
