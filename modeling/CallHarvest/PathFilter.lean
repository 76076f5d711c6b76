import CallHarvest.Glob.Matches
import CallHarvest.Glob.Parse
import CallHarvest.Options.Basic
import CallHarvest.Path

/-!
# Which modules are scanned

A filter holds the globs of the options.  A path passes if it matches one of those to scan, or if
there are none of these, and matches none of those not to scan.  The id of a module is first turned
into a path, relative to the base directory if it lies there.

* `PathFilter` — the globs and the base directory.
* `PathFilter.ofOptions` — the filter for options, or the first pattern that is no glob.
* `PathFilter.accepts` — whether a path passes.
* `PathFilter.shouldScan` — whether the module with an id is scanned.
-/

namespace CallHarvest

/-- Decides which modules are scanned. -/
structure PathFilter where
  baseDir : Option String := none
  included : List Glob := []
  excluded : List Glob := []

/-- A pattern for which there is no filter. -/
structure FilterError where
  list : PatternList
  error : GlobError
deriving DecidableEq, Repr

/-- The wording of an error. -/
def FilterError.message (e : FilterError) : String :=
  "Invalid " ++ e.list.key ++ " pattern '" ++ e.error.pattern ++ "': " ++ e.error.message

/-- Reads the patterns of a list. -/
def readGlobs (l : PatternList) (patterns : List String) : Except FilterError (List Glob) :=
  patterns.mapM fun pattern =>
    match Glob.parse pattern with
    | .ok g => .ok g
    | .error e => .error ⟨l, e⟩

namespace PathFilter

instance : Inhabited PathFilter := ⟨{}⟩

/-- The filter for options. -/
def ofOptions (o : Options) : Except FilterError PathFilter := do
  let included ← readGlobs .included (o.patterns .included)
  let excluded ← readGlobs .excluded (o.patterns .excluded)
  return { baseDir := o.baseDir, included, excluded }

/-- Whether a path passes: it is among those to scan, if any are named, and not excluded. -/
def accepts (f : PathFilter) (path : String) : Bool :=
  (f.included.isEmpty || f.included.any (·.accepts path)) && !f.excluded.any (·.accepts path)

/-- An id with a separator in the place of each backslash. -/
def pathOfId (id : String) : String :=
  id.map fun c => if c = '\\' then '/' else c

/-- Whether the module with an id is scanned.  An id that holds a zero character is no path, and is
never scanned. -/
def shouldScan (f : PathFilter) (id : String) : Bool :=
  if id.toList.contains '\x00' then false
  else
    let path := pathOfId id
    f.accepts ((f.baseDir.bind fun base => Path.strip? base path).getD path)

end PathFilter

end CallHarvest
