import CallHarvest.Text.Parts

/-!
# Localization calls

A module asks for a text in the language of its reader with a call on the namespace `Drupal`, which
may stand in parentheses: `Drupal.t(…)` for one text, `Drupal.formatPlural(…)` for a text with a
count.

* `Shape` — which of the two calls; `Shape.method` is the name it is called by.
* `Mode` — how the extent of a call is told: by the first closing parenthesis that will do, or by
  balanced brackets.
* `Match` — a call in a source, with its place in bytes.
* `afterHead?` — what follows the part of a call up to its opening parenthesis.
-/

namespace CallHarvest.Call

open CallHarvest.Text (after?)

/-- The namespace that calls are made on. -/
def bareName : String := "Drupal"

/-- The namespace in parentheses. -/
def wrappedName : String := "(Drupal)"

/-- The two calls that ask for a localized text. -/
inductive Shape
  /-- One text. -/
  | translate
  /-- A count, a singular and a plural text. -/
  | formatPlural
deriving DecidableEq, Repr

/-- The name of the method that is called. -/
def Shape.method : Shape → String
  | .translate => "t"
  | .formatPlural => "formatPlural"

/-- All shapes, in the order in which they are searched. -/
def Shape.all : List Shape := [.translate, .formatPlural]

/-- How the end of a call is found. -/
inductive Mode
  /-- At the first closing parenthesis that leaves a possible call. -/
  | lazy
  /-- At the closing parenthesis that balances the opening one. -/
  | balanced
deriving DecidableEq, Repr

instance : Inhabited Mode := ⟨.lazy⟩

/-- A call found in a source: its text, and the bytes of the source it takes up. -/
structure Match where
  shape : Shape
  text : String
  start : Nat
  stop : Nat
deriving DecidableEq, Repr

/-- The text before the arguments of a call on the given namespace. -/
def head (name : String) (shape : Shape) : List Char :=
  name.toList ++ '.' :: shape.method.toList ++ ['(']

/-- What follows the head of a call, if the text begins with one. -/
def afterHead? (shape : Shape) (cs : List Char) : Option (List Char) :=
  (after? (head wrappedName shape) cs).or (after? (head bareName shape) cs)

/-- Whether a character opens and closes a literal. -/
def isQuote (c : Char) : Bool :=
  c == '\x27' || c == '\x22' || c == '\x60'

end CallHarvest.Call
