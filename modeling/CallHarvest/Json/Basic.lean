import CallHarvest.Except

/-!
# JSON values

* `Value` — a value; its numbers are kept as they are written.
* `Fault` — why a text is not the value that is read.
* `Care` — how carefully a value is read.
-/

namespace CallHarvest.Json

/-- A number as it is written: its sign, the digits before and after the point, and the sign and
the digits of its exponent. -/
structure Numeral where
  negative : Bool
  whole : List Char
  fraction : Option (List Char)
  exponent : Option (Bool × List Char)
deriving DecidableEq, Repr

/-- A value. -/
inductive Value
  | null
  | bool (b : Bool)
  | number (n : Numeral)
  | text (s : String)
  | array (elements : List Value)
  | object (members : List (String × Value))

/-- Why a text is not the value that is read. -/
inductive Fault
  /-- The text ends too early. -/
  | ended
  /-- The text goes on with what cannot stand there. -/
  | malformed
deriving DecidableEq, Repr

/-- How carefully a value is read.  Of a value that is used, the numbers have to be in range, the
characters of texts have to exist, and arrays and objects may be nested only so deep.  A value of
no account is only skimmed. -/
inductive Care
  | skim
  | use (depth : Nat)
deriving DecidableEq, Repr

/-- How carefully the inside of an array or object is read; nothing, if it is nested too deep. -/
def Care.inside? : Care → Option Care
  | .skim => some .skim
  | .use 0 => none
  | .use (depth + 1) => some (.use depth)

/-- Whether a value is used. -/
def Care.isUse : Care → Bool
  | .skim => false
  | .use _ => true

/-- Whether a character may stand between the parts of a text. -/
def isSpace (c : Char) : Bool :=
  c == ' ' || c == '\t' || c == '\n' || c == '\r'

/-- A text without the spaces at its beginning. -/
def skipSpace (cs : List Char) : List Char :=
  cs.dropWhile isSpace

theorem skipSpace_length (cs : List Char) : (skipSpace cs).length ≤ cs.length :=
  (List.dropWhile_suffix _).length_le

theorem length_lt_of_skipSpace {cs rest : List Char} {c : Char} (h : skipSpace cs = c :: rest) :
    rest.length < cs.length := by
  have hle := skipSpace_length cs
  rw [h, List.length_cons] at hle
  omega

/-! ### Readers

A reader answers with what it read and with the rest of the text. -/

/-- What is wrong where another character is needed. -/
def faultAt : List Char → Fault
  | [] => .ended
  | _ :: _ => .malformed

/-- Reads the given characters; the answer is the text after them. -/
def readWord : (word cs : List Char) → Except Fault (List Char)
  | [], cs => .ok cs
  | _ :: _, [] => .error .ended
  | w :: ws, c :: cs => if w = c then readWord ws cs else .error .malformed

theorem readWord_length {word cs rest : List Char} (h : readWord word cs = .ok rest) :
    rest.length ≤ cs.length := by
  induction word generalizing cs with
  | nil =>
    obtain rfl : cs = rest := by simpa [readWord] using h
    exact Nat.le_refl _
  | cons w ws ih =>
    cases cs with
    | nil => exact nomatch h
    | cons c cs =>
      rw [readWord] at h
      split at h
      · have := ih h
        rw [List.length_cons]
        omega
      · exact nomatch h

end CallHarvest.Json
