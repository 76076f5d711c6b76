import CallHarvest.FileTree.Access
import CallHarvest.Options.Check
import CallHarvest.Options.Read

/-!
# The options of a project

A project keeps its options in a file of a fixed name.  Without that file the defaults are taken.

* `Options.fileName` — the name of the file.
* `LoadError` — why there are no options.
* `Options.load` — the options for a directory, checked.
-/

namespace CallHarvest

/-- Why there are no options for a directory. -/
inductive LoadError
  | unreadable (fault : Fault)
  | unparsable (error : ParseError)
  | invalid (errors : List OptionsError)
deriving DecidableEq, Repr

/-- The wording of the error that a file cannot be read. -/
def LoadError.unreadableMessage (fault : Fault) : String :=
  "Failed to load configuration file: " ++ fault.message

namespace Options

/-- The name of the file with the options of a project. -/
def fileName : String := ".extract-drupal-t.json"

/-- The options in the file of a directory, if there is such a file. -/
def read? (t : FileTree) (directory : String) : Except LoadError (Option Options) :=
  let path := Path.join directory fileName
  if t.hasPath path then
    match t.readText path with
    | .error fault => .error (.unreadable fault)
    | .ok text =>
      match parse text with
      | .error e => .error (.unparsable e)
      | .ok o => .ok (some o)
  else .ok none

/-- Options in which nothing is wrong. -/
def checked (o : Options) : Except LoadError Options :=
  match o.errors with
  | [] => .ok o
  | errors => .error (.invalid errors)

/-- The options for a directory. -/
def load (t : FileTree) (directory : String) : Except LoadError Options := do
  checked ((← read? t directory).getD {})

end Options

end CallHarvest
