import CallHarvest.Asset.Basic
import CallHarvest.FileTree.Access

/-!
# Assets in a directory

Each asset is written into a file of its name in the output directory, and directories that are
missing are made.  A name can be written once; a name for which this failed can be tried again.
There is no way back: if the disk fails, a file may be left with a part of its asset.

* `OutputDir` — the directory, and the names written so far.
* `OutputDir.place` — makes the directory of a file, and writes the file.
-/

namespace CallHarvest

/-- An output directory, and the names of the assets written into it. -/
structure OutputDir where
  path : String
  written : List String := []
deriving DecidableEq, Repr

/-- Makes the directory that a path is in, and the directories above that. -/
def makeParent (t : FileTree) (path : String) : FileTree × Except EmitError Unit :=
  match Path.parent? path with
  | none => (t, .ok ())
  | some parent =>
    match t.makeDirectories parent with
    | (t', .ok ()) => (t', .ok ())
    | (t', .error fault) => (t', .error (.unwritable parent fault))

/-- Writes the file of an asset.  What was written of it stays if the rest fails. -/
def writeAsset (t : FileTree) (path source : String) : FileTree × Except EmitError Unit :=
  match t.writeText path source with
  | (t', .ok ()) => (t', .ok ())
  | (t', .error fault) => (t', .error (.unwritable path fault))

namespace OutputDir

/-- The path of the file for an asset. -/
def file (d : OutputDir) (name : String) : String :=
  Path.join d.path name

/-- Writes the file of an asset, after the directories above it are made.  What was made stays if
the rest fails. -/
def place (t : FileTree) (path source : String) : FileTree × Except EmitError Unit :=
  match makeParent t path with
  | (t', .ok ()) => writeAsset t' path source
  | (t', .error e) => (t', .error e)

/-- Writes an asset, unless its name was written before. -/
def emit (d : OutputDir) (t : FileTree) (asset : Asset) :
    Except EmitError Unit × (OutputDir × FileTree) :=
  if asset.name ∈ d.written then (.error (.duplicate asset.name), (d, t))
  else
    match place t (d.file asset.name) asset.source with
    | (t', .ok ()) => (.ok (), ({ d with written := asset.name :: d.written }, t'))
    | (t', .error e) => (.error e, (d, t'))

instance : Sink OutputDir where
  emit asset := fun (d, t) => d.emit t asset

end OutputDir

end CallHarvest
