import CallHarvest.Ignore.Scope
import CallHarvest.Text.Utf8

/-!
# Walking a directory

A build looks at the files below a directory.  Entries are taken in the order of the bytes of their
names, directories and files alike, and a directory is done before the entry after it.  Links and
ignored entries are passed over.

* `SourceFile` — a file with the names that lead to it.
* `Node.sourceFiles` — the files at or below a node.
* `FileTree.sourceFiles` — the files below a directory of a tree.
-/

namespace CallHarvest

/-- A file below a directory: the names that lead to it from there, and its content. -/
structure SourceFile where
  names : List String
  content : ByteArray

/-- Whether a node is a directory. -/
def Node.isDir : Node → Bool
  | .dir _ => true
  | _ => false

/-- Lists that belong to names, one after the other in the order of the bytes of the names. -/
def inNameOrder {α : Type} (blocks : List (String × List α)) : List α :=
  (blocks.mergeSort fun a b => Text.byteLe a.1 b.1).flatMap Prod.snd

mutual

/-- The files at or below a node that are not passed over.  `names` are those that lead to the
node. -/
def Node.sourceFiles (ignored : List String → Bool → Bool) (names : List String) :
    Node → List SourceFile
  | .file content => [⟨names, content⟩]
  | .link _ => []
  | .dir entries => inNameOrder (sourceBlocks ignored names entries)

/-- The names of entries, each with the files at or below the entry that are not passed over. -/
def sourceBlocks (ignored : List String → Bool → Bool) (names : List String) :
    List (String × Node) → List (String × List SourceFile)
  | [] => []
  | (name, n) :: entries =>
    (name,
      if ignored (names ++ [name]) n.isDir then []
      else n.sourceFiles ignored (names ++ [name])) ::
    sourceBlocks ignored names entries

end

/-- The files below the directory at a place that are not passed over. -/
def FileTree.sourceFiles (t : FileTree) (place : Place) : List SourceFile :=
  match t.get? place with
  | some n => n.sourceFiles (fun names isDir => t.isIgnored (place ++ names) isDir) []
  | none => []

end CallHarvest
