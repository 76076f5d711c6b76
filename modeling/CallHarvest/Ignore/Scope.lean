import CallHarvest.FileTree.Access
import CallHarvest.Ignore.Rule

/-!
# Which paths are ignored

The rules of an ignore file are for all that is below its directory.  There are three kinds of such
files, and the first kind that has a verdict on a path decides; within a kind the nearest directory
does.  Two of the kinds belong to version control: they count only below a directory that is under
version control, and only up to the nearest of these directories.

* `IgnoreFile` — the kinds.
* `FileTree.scopes` — the directories above a place, the nearest first.
* `FileTree.isIgnored` — whether the entry at a place is ignored.
-/

namespace CallHarvest

/-- The kinds of ignore files, in the order in which they are asked. -/
inductive IgnoreFile
  /-- For every tool. -/
  | general
  /-- For version control. -/
  | shared
  /-- For version control, but kept with its data. -/
  | personal
deriving DecidableEq, Repr

namespace IgnoreFile

/-- All kinds. -/
def all : List IgnoreFile := [.general, .shared, .personal]

/-- The names of the entries that show that a directory is under version control. -/
def controlNames : List String := [".git", ".jj"]

/-- The names that lead from a directory to its file of a kind. -/
def names : IgnoreFile → List String
  | .general => [".ignore"]
  | .shared => [".gitignore"]
  | .personal => [".git", "info", "exclude"]

/-- Whether a kind belongs to version control. -/
def isControlled : IgnoreFile → Bool
  | .general => false
  | _ => true

end IgnoreFile

/-- A directory above a place, and the names that lead from it to the place. -/
structure Scope where
  directory : Place
  names : List String

/-- The directories above a place, the nearest first. -/
def scopesOf (place : Place) : List Scope :=
  (List.range place.length).reverse.map fun n => ⟨place.take n, place.drop n⟩

namespace FileTree

/-- Whether a directory is under version control by an entry of its own. -/
def isControlled (t : FileTree) (directory : Place) : Bool :=
  IgnoreFile.controlNames.any fun name =>
    match t.locate true directory { parts := [name] } with
    | .ok (.taken ..) => true
    | _ => false

/-- The rules of a kind in a directory. -/
def rules (t : FileTree) (kind : IgnoreFile) (directory : Place) : List Rule :=
  match t.locate true directory { parts := kind.names } with
  | .ok (.taken _ (.file content)) => Rule.ofContent content
  | _ => []

/-- Scopes up to the first of which the directory is under version control; none, if there is no
such directory. -/
def controlled (t : FileTree) (scopes : List Scope) : List Scope :=
  match scopes.span fun s => !t.isControlled s.directory with
  | (_, []) => []
  | (below, top :: _) => below ++ [top]

/-- The scopes in which a kind of file counts. -/
def scopes (t : FileTree) (kind : IgnoreFile) (place : Place) : List Scope :=
  if kind.isControlled then t.controlled (scopesOf place) else scopesOf place

/-- What the files of a kind say of the entry at a place. -/
def verdictOf? (t : FileTree) (place : Place) (isDir : Bool) (kind : IgnoreFile) :
    Option Verdict :=
  (t.scopes kind place).findSome? fun s =>
    verdict? (t.rules kind s.directory) (String.intercalate "/" s.names) isDir

/-- Whether the entry at a place is ignored. -/
def isIgnored (t : FileTree) (place : Place) (isDir : Bool) : Bool :=
  IgnoreFile.all.findSome? (t.verdictOf? place isDir) == some .ignore

end FileTree

end CallHarvest
