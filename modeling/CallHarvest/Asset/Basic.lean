import CallHarvest.FileTree.Locate
import CallHarvest.Text.Quoted

/-!
# Assets

An asset is a file that a build puts out.  What takes assets in is a sink; it may write into the
file tree.

* `Asset` — a name and a text.
* `EmitError` — why an asset is not taken; `EmitError.message` is the wording.
* `Emission` — a computation that emits assets.  What it changed stays if it fails.
* `Sink` — what takes assets in.
-/

namespace CallHarvest

/-- A file that a build puts out. -/
structure Asset where
  name : String
  source : String
deriving DecidableEq, Repr

/-- Why an asset is not taken. -/
inductive EmitError
  /-- Another asset had its name. -/
  | duplicate (name : String)
  /-- A directory or file could not be written. -/
  | unwritable (path : String) (fault : Fault)
deriving DecidableEq, Repr

/-- The wording of an error. -/
def EmitError.message : EmitError → String
  | .duplicate name => "Asset '" ++ name ++ "' was already emitted"
  | .unwritable path fault =>
    "Failed to write asset " ++ Text.quoted path ++ ": " ++ fault.message

/-- A computation that emits assets into a sink and possibly changes the file tree. -/
abbrev Emission (κ α : Type) : Type :=
  ExceptT EmitError (StateM (κ × FileTree)) α

/-- What takes assets in. -/
class Sink (κ : Type) where
  /-- Takes an asset. -/
  emit : Asset → Emission κ Unit

/-- Emits assets one after the other, up to the first that is not taken. -/
def emitAll {κ : Type} [Sink κ] : List Asset → Emission κ Unit
  | [] => pure ()
  | asset :: assets => do
    Sink.emit asset
    emitAll assets

end CallHarvest
