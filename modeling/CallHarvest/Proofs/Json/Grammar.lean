import CallHarvest.Json.Value

/-!
# The grammar of JSON

A JSON text is a tree of words, texts, arrays and objects.  Spaces may stand before each of its
tokens and at its end; everything else is in the tree, so that two writings of a tree differ in
their spaces only.

* `IsText`, `Denotes` — what may stand between the quotes of a text, and what it stands for.
* `IsNumber`, `IsWord` — the numbers and the other words.
* `Tree` — a value as it is written, but for its spaces.
* `Written`, `ElementsWritten`, `MembersWritten` — a tree and its writings.
* `IsDocument` — a tree and the whole texts that it is written as.
-/

namespace CallHarvest.Json

/-! ### Texts -/

/-- Whether characters may stand between the quotes of a text. -/
inductive IsText : List Char → Prop
  | nil : IsText []
  | plain {c raw} : c ≠ '\x22' → c ≠ '\\' → 0x20 ≤ c.toNat → IsText raw → IsText (c :: raw)
  | letter {e c raw} : escapes.lookup e = some c → IsText raw → IsText ('\\' :: e :: raw)
  | numbered {a b c d n raw} : hexValue? [a, b, c, d] = some n → IsText raw →
      IsText ('\\' :: 'u' :: a :: b :: c :: d :: raw)

/-- What the characters between the quotes of a text stand for.  A surrogate stands for a character
only with the other one of its pair. -/
inductive Denotes : List Char → List Char → Prop
  | nil : Denotes [] []
  | plain {c raw text} : c ≠ '\x22' → c ≠ '\\' → 0x20 ≤ c.toNat → Denotes raw text →
      Denotes (c :: raw) (c :: text)
  | letter {e c raw text} : escapes.lookup e = some c → Denotes raw text →
      Denotes ('\\' :: e :: raw) (c :: text)
  | numbered {a b c d n raw text} : hexValue? [a, b, c, d] = some n →
      isHighSurrogate n = false → isLowSurrogate n = false → Denotes raw text →
      Denotes ('\\' :: 'u' :: a :: b :: c :: d :: raw) (Char.ofNat n :: text)
  | pair {a b c d a' b' c' d' high low raw text} : hexValue? [a, b, c, d] = some high →
      isHighSurrogate high = true → hexValue? [a', b', c', d'] = some low →
      isLowSurrogate low = true → Denotes raw text →
      Denotes ('\\' :: 'u' :: a :: b :: c :: d :: '\\' :: 'u' :: a' :: b' :: c' :: d' :: raw)
        (Char.ofNat (0x10000 + (high - 0xD800) * 0x400 + (low - 0xDC00)) :: text)

/-! ### Words -/

/-- Whether a text is made of one or more digits. -/
def IsDigits (cs : List Char) : Prop :=
  cs ≠ [] ∧ ∀ c ∈ cs, c.isDigit = true

/-- Whether digits may stand before the point: a zero only alone. -/
def IsWhole (cs : List Char) : Prop :=
  IsDigits cs ∧ (cs.head? = some '0' → cs = ['0'])

/-- A point with digits after it, or nothing. -/
inductive IsFraction : List Char → Prop
  | none : IsFraction []
  | some {digits} : IsDigits digits → IsFraction ('.' :: digits)

/-- The exponent of a number, or nothing. -/
inductive IsExponent : List Char → Prop
  | none : IsExponent []
  | some {e sign digits} : e = 'e' ∨ e = 'E' → sign = [] ∨ sign = ['+'] ∨ sign = ['-'] →
      IsDigits digits → IsExponent (e :: (sign ++ digits))

/-- A number as it is written. -/
inductive IsNumber : List Char → Prop
  | mk {sign whole fraction exponent} : sign = [] ∨ sign = ['-'] → IsWhole whole →
      IsFraction fraction → IsExponent exponent →
      IsNumber (sign ++ (whole ++ (fraction ++ exponent)))

/-- The word for nothing. -/
def nullWord : List Char := ['n', 'u', 'l', 'l']

/-- The values that are written as a word. -/
inductive IsWord : List Char → Prop
  | null : IsWord nullWord
  | yes : IsWord ['t', 'r', 'u', 'e']
  | no : IsWord ['f', 'a', 'l', 's', 'e']
  | number {raw} : IsNumber raw → IsWord raw

/-- Whether a word ends before a text. -/
def IsBreak (rest : List Char) : Prop :=
  ∀ c, rest.head? = some c → isSpace c = true ∨ c = ',' ∨ c = ']' ∨ c = '\x7d'

/-! ### Trees -/

/-- A value as it is written, but for its spaces.  Texts and the names of members are kept without
their quotes. -/
inductive Tree
  | word (raw : List Char)
  | text (raw : List Char)
  | array (elements : List Tree)
  | object (members : List (List Char × Tree))

/-- A member of an object: what stands between the quotes of its name, and its value. -/
abbrev Member : Type := List Char × Tree

/-- Whether a text begins with the given name of a member and a colon, before the given rest. -/
def NameWritten (raw cs rest : List Char) : Prop :=
  IsText raw ∧ ∃ mid, skipSpace cs = '\x22' :: (raw ++ '\x22' :: mid) ∧ skipSpace mid = ':' :: rest

mutual

/-- Whether a text begins with a writing of a tree, before the given rest. -/
inductive Written : Tree → List Char → List Char → Prop
  | word {raw cs rest} : IsWord raw → skipSpace cs = raw ++ rest → IsBreak rest →
      Written (.word raw) cs rest
  | text {raw cs rest} : IsText raw → skipSpace cs = '\x22' :: (raw ++ '\x22' :: rest) →
      Written (.text raw) cs rest
  | emptyArray {cs inside rest} : skipSpace cs = '[' :: inside → skipSpace inside = ']' :: rest →
      Written (.array []) cs rest
  | array {ts cs inside rest} : skipSpace cs = '[' :: inside → ElementsWritten ts inside rest →
      Written (.array ts) cs rest
  | emptyObject {cs inside rest} : skipSpace cs = '\x7b' :: inside →
      skipSpace inside = '\x7d' :: rest → Written (.object []) cs rest
  | object {ms cs inside rest} : skipSpace cs = '\x7b' :: inside → MembersWritten ms inside rest →
      Written (.object ms) cs rest

/-- Whether a text begins with writings of one or more elements, with commas between them, and a
closing bracket. -/
inductive ElementsWritten : List Tree → List Char → List Char → Prop
  | last {t cs mid rest} : Written t cs mid → skipSpace mid = ']' :: rest →
      ElementsWritten [t] cs rest
  | more {t ts cs mid next rest} : Written t cs mid → skipSpace mid = ',' :: next →
      ElementsWritten ts next rest → ElementsWritten (t :: ts) cs rest

/-- Whether a text begins with writings of one or more members, with commas between them, and a
closing brace. -/
inductive MembersWritten : List Member → List Char → List Char → Prop
  | last {raw t cs value mid rest} : NameWritten raw cs value → Written t value mid →
      skipSpace mid = '\x7d' :: rest → MembersWritten [(raw, t)] cs rest
  | more {raw t ms cs value mid next rest} : NameWritten raw cs value → Written t value mid →
      skipSpace mid = ',' :: next → MembersWritten ms next rest →
      MembersWritten ((raw, t) :: ms) cs rest

end

/-- Whether a whole text is a writing of a tree. -/
def IsDocument (t : Tree) (text : String) : Prop :=
  ∃ rest, Written t text.toList rest ∧ skipSpace rest = []

end CallHarvest.Json
