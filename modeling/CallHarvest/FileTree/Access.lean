import CallHarvest.FileTree.Locate

/-!
# Reading and writing file trees

* `FileTree.find` — what a path leads to.
* `FileTree.isDirectory`, `FileTree.hasPath` — whether it leads to a directory, or to anything.
* `FileTree.readText` — the text of a file.
* `FileTree.makeDirectory`, `FileTree.makeDirectories` — new directories.
* `FileTree.emptyFile`, `FileTree.fillFile` — an empty file, and what is written into it.
* `FileTree.writeText` — a file with a new text.
-/

namespace CallHarvest.FileTree

/-! ### Reading -/

/-- The place that a path leads to, and what is there.  A path that ends in a separator leads to a
directory only. -/
def find (t : FileTree) (path : String) : Except Fault (Place × Node) := do
  let route ← Route.ofPath path
  match ← t.locate true [] route with
  | .taken place n => .ok (place, n)
  | .free .. => .error .notFound

/-- The place of the directory that a path leads to, if it leads to one. -/
def directory? (t : FileTree) (path : String) : Option Place :=
  match t.find path with
  | .ok (place, .dir _) => some place
  | _ => none

/-- Whether a path leads to a directory. -/
def isDirectory (t : FileTree) (path : String) : Bool :=
  (t.directory? path).isSome

/-- Whether a path leads to anything. -/
def hasPath (t : FileTree) (path : String) : Bool :=
  (t.find path).isOk

/-- The content of the file that a path leads to. -/
def readFile (t : FileTree) (path : String) : Except Fault ByteArray := do
  match ← t.find path with
  | (_, .file content) => .ok content
  | _ => .error .isDirectory

/-- The text of some content. -/
def textOf (content : ByteArray) : Except Fault String :=
  match String.fromUTF8? content with
  | some text => .ok text
  | none => .error .notText

/-- The text of the file that a path leads to. -/
def readText (t : FileTree) (path : String) : Except Fault String := do
  textOf (← t.readFile path)

/-! ### New directories -/

/-- The place at which a path's directory is to be made.  There must be nothing there yet, not even
a link, and the directory that it is in must be there. -/
def freePlace (t : FileTree) (path : String) : Except Fault Place := do
  let route ← Route.ofPath path
  match ← t.locate false [] { parts := route.parts } with
  | .taken .. => .error .exists
  | .free here name => .ok (here ++ [name])

/-- Makes a new directory, if there is a place for it and the disk does it. -/
def makeDirectory (t : FileTree) (path : String) : FileTree × Except Fault Unit :=
  match t.freePlace path with
  | .error fault => (t, .error fault)
  | .ok place =>
    match t.disk.ask with
    | (disk, .error fault) => (t.onDisk disk, .error fault)
    | (disk, .ok ()) => ((t.onDisk disk).putDir place, .ok ())

/-- Makes the directories of the given paths one after the other.  One that is there already does
no harm. -/
def makeAll (t : FileTree) : List String → FileTree × Except Fault Unit
  | [] => (t, .ok ())
  | path :: paths =>
    match t.makeDirectory path with
    | (t', .ok ()) => makeAll t' paths
    | (t', .error fault) =>
      if fault = .exists ∧ t'.isDirectory path then makeAll t' paths else (t', .error fault)

/-- Makes the directory of the first path, after those of the further ones that are missing: they
are tried upwards until one can be made or is there. -/
def makeUpwards (t : FileTree) (missing : List String) : List String → FileTree × Except Fault Unit
  | [] => makeAll t missing
  | path :: paths =>
    match t.makeDirectory path with
    | (t', .ok ()) => makeAll t' missing
    | (t', .error fault) =>
      if fault = .notFound then makeUpwards t' (path :: missing) paths
      else if fault = .exists ∧ t'.isDirectory path then makeAll t' missing
      else (t', .error fault)

/-- Makes a directory and the directories above it that are missing.  What was made stays if the
rest fails. -/
def makeDirectories (t : FileTree) (path : String) : FileTree × Except Fault Unit :=
  makeUpwards t [] (Path.ancestors path)

/-! ### Writing -/

/-- The place at which a path's file is, or will be. -/
def filePlace (t : FileTree) (path : String) : Except Fault Place := do
  let route ← Route.ofPath path
  match ← t.locateFile [] route with
  | .taken place (.file _) => .ok place
  | .taken .. => .error .isDirectory
  | .free here name => .ok (here ++ [name])

/-- Opens the file that a path leads to, which is made if it is missing and loses what is in it if
it is not. -/
def emptyFile (t : FileTree) (path : String) : FileTree × Except Fault Place :=
  match t.filePlace path with
  | .error fault => (t, .error fault)
  | .ok place =>
    match t.disk.ask with
    | (disk, .error fault) => (t.onDisk disk, .error fault)
    | (disk, .ok ()) => ((t.onDisk disk).putFile place .empty, .ok place)

/-- Writes some bytes into the open file at a place.  What was written stays there if the disk does
not take the rest. -/
def fillFile (t : FileTree) (place : Place) (content : ByteArray) : FileTree × Except Fault Unit :=
  let written := t.disk.write content.size
  ((t.onDisk written.disk).putFile place (content.extract 0 written.bytes), written.result)

/-- Writes a text into the file that a path leads to. -/
def writeText (t : FileTree) (path text : String) : FileTree × Except Fault Unit :=
  match t.emptyFile path with
  | (t', .error fault) => (t', .error fault)
  | (t', .ok place) => t'.fillFile place text.toUTF8

end CallHarvest.FileTree
