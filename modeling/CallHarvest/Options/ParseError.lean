import CallHarvest.Json.Numeral
import CallHarvest.Options.Basic
import CallHarvest.Text.Parts
import CallHarvest.Text.Quoted
import CallHarvest.Text.Utf8

/-!
# Why options cannot be read

A text may fail to be JSON, or be JSON that does not describe options.  In the second case the
error says what does not fit, and mostly where.

* `Field` — the fields of the options.
* `Misfit` — what does not fit; `Misfit.message` is the wording.
* `Position` — a place in a text, by lines and bytes.
* `ParseError` — why a text cannot be read; `ParseError.message?` is the wording.
-/

namespace CallHarvest

/-! ### Fields -/

/-- The fields of the options. -/
inductive Field
  | patterns (list : PatternList)
  | baseDir
  | mode
deriving DecidableEq, Repr

namespace Field

/-- The name of a field. -/
def key : Field → String
  | .patterns list => list.key
  | .baseDir => "baseDir"
  | .mode => "matchMode"

/-- All fields, in the order in which they are written. -/
def all : List Field := [.patterns .included, .patterns .excluded, .baseDir, .mode]

/-- The field of a name. -/
def ofKey? (key : String) : Option Field :=
  all.find? fun f => f.key == key

theorem ofKey?_key (f : Field) : ofKey? f.key = some f := by
  rcases f with (_ | _) | _ | _ <;> rfl

end Field

/-- The name of a mode. -/
def Call.Mode.name : Call.Mode → String
  | .lazy => "lazy"
  | .balanced => "balanced"

/-- All modes. -/
def Call.Mode.all : List Call.Mode := [.lazy, .balanced]

/-- The mode of a name. -/
def Call.Mode.ofName? (name : String) : Option Call.Mode :=
  Call.Mode.all.find? fun m => m.name == name

theorem Call.Mode.ofName?_name (m : Call.Mode) : Call.Mode.ofName? m.name = some m := by
  cases m <;> rfl

/-! ### What does not fit -/

/-- What was found in the place of something else. -/
inductive Found
  | null
  | bool (b : Bool)
  | number (n : Json.Number)
  | text (s : String)
  | array
  | object
deriving DecidableEq, Repr

/-- What was expected. -/
inductive Expected
  | options
  | path
  | nothing
deriving DecidableEq, Repr

/-- What does not fit. -/
inductive Misfit
  | wrongType (found : Found) (expected : Expected)
  | unknownMode (name : String)
  | repeated (field : Field)
  | noPatterns
deriving DecidableEq, Repr

/-- The wording of what was found. -/
def Found.name : Found → String
  | .null => "null"
  | .bool b => "boolean `" ++ (if b then "true" else "false") ++ "`"
  | .number (.whole n) => "integer `" ++ String.ofList (Json.Number.whole n).render ++ "`"
  | .number x => "floating point `" ++ String.ofList x.render ++ "`"
  | .text s => "string " ++ Text.quoted s
  | .array => "sequence"
  | .object => "map"

/-- The wording of what was expected. -/
def Expected.name : Expected → String
  | .options => "struct ExtractOptions"
  | .path => "path string"
  | .nothing => "unit"

/-- The names of the modes, each in its marks. -/
def modeNames : String :=
  String.intercalate " or " (Call.Mode.all.map fun m => "`" ++ m.name ++ "`")

/-- The wording of what does not fit. -/
def Misfit.message : Misfit → String
  | .wrongType found expected => "invalid type: " ++ found.name ++ ", expected " ++ expected.name
  | .unknownMode name => "unknown variant `" ++ name ++ "`, expected " ++ modeNames
  | .repeated field => "duplicate field `" ++ field.key ++ "`"
  | .noPatterns => "data did not match any variant of untagged enum Patterns"

/-! ### Where it does not fit -/

/-- A place in a text: its line, counted from one, and the number of bytes of the line before it. -/
structure Position where
  line : Nat
  column : Nat
deriving DecidableEq, Repr

/-- The place after the given text. -/
def Position.after (cs : List Char) : Position where
  line := cs.count '\n' + 1
  column := Text.byteLength (cs.reverse.takeWhile (· != '\n'))

/-- The place in a text at which the given rest of it begins. -/
def Position.before (text rest : List Char) : Position :=
  .after (Text.before text rest)

/-- Why a text does not give options. -/
inductive ParseError
  /-- It is no JSON. -/
  | fault (f : Json.Fault)
  /-- It does not describe options. -/
  | misfit (m : Misfit) (place : Option Position)
deriving DecidableEq, Repr

/-- The wording of an error, for a text that is JSON as far as it was read. -/
def ParseError.message? : ParseError → Option String
  | .fault _ => none
  | .misfit m none => some ("Failed to parse configuration: " ++ m.message)
  | .misfit m (some p) =>
    some ("Failed to parse configuration: " ++ m.message ++ " at line " ++ Nat.repr p.line ++
      " column " ++ Nat.repr p.column)

end CallHarvest
