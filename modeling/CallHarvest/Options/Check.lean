import CallHarvest.Glob.Parse
import CallHarvest.Options.Basic

/-!
# Checking the options

Every pattern has to be a glob and must not be empty, and the base directory must not be empty.
All errors are told, in the order of the fields.

* `PatternPlace` — where a pattern is in the options.
* `OptionsError` — what is wrong and where; `OptionsError.message` is the wording.
* `Options.errors` — all that is wrong with the options.
-/

namespace CallHarvest

/-- Where a pattern is in the options: in which of the lists, and, unless it stands alone, at
which place of it. -/
structure PatternPlace where
  list : PatternList
  index : Option Nat
deriving DecidableEq, Repr

/-- The path of a pattern in the options. -/
def PatternPlace.path (p : PatternPlace) : String :=
  match p.index with
  | none => p.list.key
  | some i => p.list.key ++ "[" ++ Nat.repr i ++ "]"

/-- What is wrong with the options. -/
inductive OptionsError
  | emptyPattern (place : PatternPlace)
  | badPattern (place : PatternPlace) (error : GlobError)
  | emptyBaseDir
deriving DecidableEq, Repr

namespace OptionsError

/-- The path of the field that is wrong. -/
def path : OptionsError → String
  | .emptyPattern place => place.path
  | .badPattern place _ => place.path
  | .emptyBaseDir => "baseDir"

/-- What is wrong with the field. -/
def message : OptionsError → String
  | .emptyPattern _ => "The pattern cannot be empty. Example: \"**/*.js\""
  | .badPattern _ error => "Invalid glob pattern '" ++ error.pattern ++ "': " ++ error.message
  | .emptyBaseDir => "The directory cannot be empty. Please specify a path, or remove this field"

/-- The wording of an error that is told alone. -/
def display (e : OptionsError) : String :=
  "Configuration error in '" ++ e.path ++ "': " ++ e.message

/-- The lines of a numbered list of errors. -/
def numbered (errors : List OptionsError) : List String :=
  errors.mapIdx fun i e => "  " ++ Nat.repr (i + 1) ++ ". " ++ e.path ++ " - " ++ e.message

/-- The wording of all errors together. -/
def summary (errors : List OptionsError) : String :=
  "Configuration validation failed:\n" ++ String.intercalate "\n" (numbered errors)

end OptionsError

/-- What is wrong with a pattern. -/
def patternErrors (place : PatternPlace) (pattern : String) : List OptionsError :=
  if pattern = "" then [.emptyPattern place]
  else
    match Glob.parse pattern with
    | .ok _ => []
    | .error e => [.badPattern place e]

/-- What is wrong with the patterns of a list. -/
def Patterns.errors (l : PatternList) : Patterns → List OptionsError
  | .single pattern => patternErrors ⟨l, none⟩ pattern
  | .list patterns => (patterns.mapIdx fun i pattern => patternErrors ⟨l, some i⟩ pattern).flatten

namespace Options

/-- What is wrong with a list of patterns that may be absent. -/
def listErrors (o : Options) (l : PatternList) : List OptionsError :=
  ((o.patterns? l).map (Patterns.errors l)).getD []

/-- All that is wrong with the options. -/
def errors (o : Options) : List OptionsError :=
  o.listErrors .included ++ o.listErrors .excluded ++
    if o.baseDir = some "" then [.emptyBaseDir] else []

end Options

end CallHarvest
