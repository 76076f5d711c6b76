import CallHarvest.FileTree.Access
import CallHarvest.Text.Utf8

/-!
# Listing file trees

* `Node.leaves`, `FileTree.leaves` — the files below a node; a link stands for what the path to it
  leads to.
* `FileTree.texts` — all that is below a directory and is no directory, with its text; links to
  directories are entered.
-/

namespace CallHarvest

/-- A file below a directory: the names that lead to it, and its content. -/
abbrev Leaf : Type := List String × ByteArray

mutual

/-- The files at or below a node.  `names` are those that lead to the node from where the listing
began, and `follow` tells the files that the link at such names stands for. -/
def Node.leaves (follow : List String → List Leaf) (names : List String) : Node → List Leaf
  | .file content => [(names, content)]
  | .link _ => follow names
  | .dir entries => leavesIn follow names entries

/-- The files at or below the entries of a directory. -/
def leavesIn (follow : List String → List Leaf) (names : List String) :
    List (String × Node) → List Leaf
  | [] => []
  | (name, n) :: entries =>
    n.leaves follow (names ++ [name]) ++ leavesIn follow names entries

end

namespace FileTree

/-- The files at or below a node, in links up to the given depth.  A link stands for what the whole
path to it leads to from the directory `path`, and one that leads nowhere for an empty file. -/
def leaves (t : FileTree) (path : String) : Nat → List String → Node → List Leaf
  | 0, names, n => n.leaves (fun names => [(names, .empty)]) names
  | depth + 1, names, n =>
    n.leaves
      (fun names =>
        match t.find (Path.join path (String.intercalate "/" names)) with
        | .ok (_, target) => t.leaves path depth names target
        | .error _ => [(names, .empty)])
      names

/-- All that is below a directory and is no directory: paths relative to it, and texts. -/
def texts (t : FileTree) (path : String) : List (String × String) :=
  match t.find path with
  | .ok (_, .dir entries) =>
    (t.leaves path linkLimit [] (.dir entries)).map fun (names, content) =>
      (String.intercalate "/" names, Text.decodeLossy content)
  | _ => []

end FileTree

end CallHarvest
