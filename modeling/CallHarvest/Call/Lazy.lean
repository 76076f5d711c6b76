import CallHarvest.Call.Basic
import CallHarvest.Text.Blank

/-!
# Lazy calls

The lazy reading of a call knows neither escapes nor brackets.  A literal opens at a quotation mark
and closes at a later one of any of the three kinds: at the first from which the rest of the call
can be read.  Arguments after the literals end at the first closing parenthesis.

Each reader gets the text at a place and answers with the text after the part that it read.

* `closing` — the end of an open literal, given what has to follow it.
* `lazyTranslate?`, `lazyPlural?` — the arguments of a call, up to its closing parenthesis.
-/

namespace CallHarvest.Call

open CallHarvest.Text (isScriptBlank)

/-- Reads up to the first quotation mark from which `next` can go on. -/
def closing (next : List Char → Option (List Char)) : List Char → Option (List Char)
  | [] => none
  | c :: cs =>
    if isQuote c then
      match next cs with
      | some rest => some rest
      | none => closing next cs
    else closing next cs

/-- Reads a literal and what has to follow it. -/
def quoted (next : List Char → Option (List Char)) : List Char → Option (List Char)
  | [] => none
  | c :: cs => if isQuote c then closing next cs else none

/-- Reads a comma, blanks, a literal, and what has to follow it. -/
def quotedArgument (next : List Char → Option (List Char)) : List Char → Option (List Char)
  | ',' :: cs => quoted next (cs.dropWhile isScriptBlank)
  | _ => none

/-- Reads up to the first closing parenthesis. -/
def throughParen : List Char → Option (List Char)
  | [] => none
  | c :: cs => if c = ')' then some cs else throughParen cs

/-- Reads a comma and up to the first closing parenthesis after it. -/
def furtherArguments : List Char → Option (List Char)
  | ',' :: cs => throughParen cs
  | _ => none

/-- Reads what follows the literal of a call for one text: the closing parenthesis, or further
arguments. -/
def afterLiteral : List Char → Option (List Char)
  | ')' :: cs => some cs
  | cs => furtherArguments cs

/-- Reads one or more decimal digits. -/
def digits? : List Char → Option (List Char)
  | c :: cs => if c.isDigit then some (cs.dropWhile Char.isDigit) else none
  | [] => none

/-- Reads the arguments of a call for one text. -/
def lazyTranslate? (cs : List Char) : Option (List Char) :=
  quoted afterLiteral cs

/-- Reads the arguments of a call for a count: digits, two literals, and at least one more
argument. -/
def lazyPlural? (cs : List Char) : Option (List Char) :=
  (digits? cs).bind (quotedArgument (quotedArgument furtherArguments))

/-- Reads the arguments of a call. -/
def lazyArguments? : Shape → List Char → Option (List Char)
  | .translate => lazyTranslate?
  | .formatPlural => lazyPlural?

/-! ### A reader answers with an end of its text -/

theorem closing_suffix {next : List Char → Option (List Char)}
    (hn : ∀ {xs rest}, next xs = some rest → rest <:+ xs) {cs rest : List Char}
    (h : closing next cs = some rest) : rest <:+ cs := by
  induction cs with
  | nil => simp [closing] at h
  | cons c cs ih =>
    rw [closing] at h
    split at h
    · cases hx : next cs with
      | some r =>
        rw [hx] at h
        obtain rfl : r = rest := by simpa using h
        exact (hn hx).trans (List.suffix_cons c cs)
      | none =>
        rw [hx] at h
        exact (ih h).trans (List.suffix_cons c cs)
    · exact (ih h).trans (List.suffix_cons c cs)

theorem quoted_suffix {next : List Char → Option (List Char)}
    (hn : ∀ {xs rest}, next xs = some rest → rest <:+ xs) {cs rest : List Char}
    (h : quoted next cs = some rest) : rest <:+ cs := by
  cases cs with
  | nil => simp [quoted] at h
  | cons c cs =>
    rw [quoted] at h
    split at h
    · exact (closing_suffix hn h).trans (List.suffix_cons c cs)
    · simp at h

theorem quotedArgument_suffix {next : List Char → Option (List Char)}
    (hn : ∀ {xs rest}, next xs = some rest → rest <:+ xs) {cs rest : List Char}
    (h : quotedArgument next cs = some rest) : rest <:+ cs := by
  unfold quotedArgument at h
  split at h
  · rename_i cs
    exact ((quoted_suffix hn h).trans (List.dropWhile_suffix _)).trans (List.suffix_cons ',' cs)
  · simp at h

theorem throughParen_suffix {cs rest : List Char} (h : throughParen cs = some rest) :
    rest <:+ cs := by
  induction cs with
  | nil => simp [throughParen] at h
  | cons c cs ih =>
    rw [throughParen] at h
    split at h
    · obtain rfl : cs = rest := by simpa using h
      exact List.suffix_cons c cs
    · exact (ih h).trans (List.suffix_cons c cs)

theorem furtherArguments_suffix {cs rest : List Char} (h : furtherArguments cs = some rest) :
    rest <:+ cs := by
  unfold furtherArguments at h
  split at h
  · rename_i cs
    exact (throughParen_suffix h).trans (List.suffix_cons ',' cs)
  · simp at h

theorem afterLiteral_suffix {cs rest : List Char} (h : afterLiteral cs = some rest) :
    rest <:+ cs := by
  unfold afterLiteral at h
  split at h
  · rename_i cs
    obtain rfl : cs = rest := by simpa using h
    exact List.suffix_cons ')' cs
  · exact furtherArguments_suffix h

theorem digits?_suffix {cs rest : List Char} (h : digits? cs = some rest) : rest <:+ cs := by
  cases cs with
  | nil => simp [digits?] at h
  | cons c cs =>
    rw [digits?] at h
    split at h
    · obtain rfl : cs.dropWhile Char.isDigit = rest := by simpa using h
      exact (List.dropWhile_suffix _).trans (List.suffix_cons c cs)
    · simp at h

theorem lazyArguments?_suffix {shape : Shape} {cs rest : List Char}
    (h : lazyArguments? shape cs = some rest) : rest <:+ cs := by
  cases shape with
  | translate => exact quoted_suffix afterLiteral_suffix h
  | formatPlural =>
    obtain ⟨body, hd, hq⟩ := Option.bind_eq_some_iff.1 h
    exact (quotedArgument_suffix (quotedArgument_suffix furtherArguments_suffix) hq).trans
      (digits?_suffix hd)

end CallHarvest.Call
