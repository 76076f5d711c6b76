import CallHarvest.Call.Basic

/-!
# Options

The options say which modules are scanned, and how.

* `PatternList` — the two lists of patterns, and the names they go by.
* `Patterns` — one pattern, or a list of them.
* `Options` — the options; what is absent has the least effect.
-/

namespace CallHarvest

/-- The lists of patterns in the options. -/
inductive PatternList
  /-- The patterns of the modules to scan. -/
  | included
  /-- The patterns of the modules not to scan. -/
  | excluded
deriving DecidableEq, Repr

/-- The name of a list in the options. -/
def PatternList.key : PatternList → String
  | .included => "include"
  | .excluded => "exclude"

/-- One pattern, or an ordered list of them. -/
inductive Patterns
  | single (pattern : String)
  | list (patterns : List String)
deriving DecidableEq, Repr

/-- The patterns in their order. -/
def Patterns.toList : Patterns → List String
  | .single pattern => [pattern]
  | .list patterns => patterns

/-- The patterns that may be absent, in their order. -/
def Patterns.ofOption (patterns : Option Patterns) : List String :=
  (patterns.map Patterns.toList).getD []

/-- Which modules are scanned, and how calls are told in them. -/
structure Options where
  /-- The modules to scan; all, if absent. -/
  included : Option Patterns := none
  /-- The modules not to scan, even if they are among those to scan. -/
  excluded : Option Patterns := none
  /-- The directory to which paths are relative when they are held against the patterns. -/
  baseDir : Option String := none
  /-- How the end of a call is found. -/
  mode : Call.Mode := .lazy
deriving DecidableEq, Repr

namespace Options

instance : Inhabited Options := ⟨{}⟩

/-- The patterns of a list, if they are given. -/
def patterns? (o : Options) : PatternList → Option Patterns
  | .included => o.included
  | .excluded => o.excluded

/-- The patterns of a list. -/
def patterns (o : Options) (l : PatternList) : List String :=
  Patterns.ofOption (o.patterns? l)

end Options

end CallHarvest
