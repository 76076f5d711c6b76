import CallHarvest.Text.Blank

/-!
# Paths

A path is a text with separators.  Its parts that say nothing (empty ones, and a single dot that is
not the first part) do not count among its names, but stay in its text; two dots are a name like
any other.

* `Lead`, `split` — how a path begins, and the parts after that.
* `names` — the names in a path.
* `strip?` — a path relative to a directory that it begins with.
* `join`, `parent?`, `ancestors`, `absolute` — paths made of others.
-/

namespace CallHarvest.Path

/-- How a path begins. -/
inductive Lead
  /-- With a separator: it is absolute. -/
  | root
  /-- With a single dot as its first part. -/
  | here
  /-- With a name, or not at all. -/
  | bare
deriving DecidableEq, Repr

/-- The text of a beginning. -/
def Lead.text : Lead → List Char
  | .root => ['/']
  | .here => ['.']
  | .bare => []

/-- How a path begins, and the rest of its text. -/
def lead : List Char → Lead × List Char
  | '/' :: cs => (.root, cs)
  | ['.'] => (.here, [])
  | '.' :: '/' :: cs => (.here, '/' :: cs)
  | cs => (.bare, cs)

/-- Whether a part of a path says nothing. -/
def isVoid (part : List Char) : Bool :=
  part == [] || part == ['.']

/-- How a path begins, and the parts of the rest. -/
def split (path : String) : Lead × List (List Char) :=
  ((lead path.toList).1, (lead path.toList).2.splitOn '/')

/-- The text of parts with separators between them. -/
def joinParts (parts : List (List Char)) : List Char :=
  List.intercalate ['/'] parts

/-- The text of a beginning and parts after it. -/
def ofParts (l : Lead) (parts : List (List Char)) : String :=
  String.ofList (l.text ++ joinParts parts)

/-- Parts without those at the end that say nothing. -/
def dropVoidEnd (parts : List (List Char)) : List (List Char) :=
  (parts.reverse.dropWhile isVoid).reverse

/-- Parts without those at both ends that say nothing. -/
def trimParts (parts : List (List Char)) : List (List Char) :=
  dropVoidEnd (parts.dropWhile isVoid)

/-- The names in a path, without its beginning. -/
def names (path : String) : List String :=
  (((split path).2).filter fun part => !isVoid part).map String.ofList

/-- Whether a path is absolute. -/
def isAbsolute (path : String) : Bool :=
  (split path).1 == .root

/-! ### Relative paths -/

/-- The parts after the given names, if the parts begin with these names. -/
def afterNames? : List (List Char) → List (List Char) → Option (List (List Char))
  | [], parts => some parts
  | name :: rest, parts =>
    match parts.dropWhile isVoid with
    | [] => none
    | part :: more => if part = name then afterNames? rest more else none

/-- A path relative to a directory, if it lies there: if it begins as the directory does and goes
on with the same names.  What is left keeps its text, less what says nothing at its ends.  The
empty directory holds every path, and of these only the end is cut. -/
def strip? (base path : String) : Option String :=
  let (baseLead, baseParts) := split base
  let (pathLead, pathParts) := split path
  let baseNames := baseParts.filter fun part => !isVoid part
  if baseLead = .bare ∧ baseNames = [] then some (ofParts pathLead (dropVoidEnd pathParts))
  else if baseLead = pathLead then
    (afterNames? baseNames pathParts).map fun parts => ofParts .bare (trimParts parts)
  else none

/-! ### Paths made of others -/

/-- The path that a path leads to from a directory.  An absolute path leads to itself. -/
def join (directory path : String) : String :=
  if isAbsolute path || directory == "" then path
  else if directory.toList.getLast? = some '/' then directory ++ path
  else directory ++ "/" ++ path

/-- A path without its last name and what says nothing before that.  The root, and a path that
says nothing, have no parent. -/
def parent? (path : String) : Option String :=
  let (l, parts) := split path
  match dropVoidEnd parts, l with
  | [], .here => some ""
  | [], _ => none
  | parts, l => some (ofParts l (dropVoidEnd parts.dropLast))

/-- The paths of the directories above one with the given parts, the last part first. -/
def above (l : Lead) : List (List Char) → List String
  | [] => []
  | part :: parts =>
    if isVoid part then above l parts
    else ofParts l (parts.dropWhile isVoid).reverse :: above l parts

/-- A path, that of the directory it is in, and so on upwards.  The empty path is none of them. -/
def ancestors (path : String) : List String :=
  (path :: above (split path).1 (split path).2.reverse).filter fun p => p != ""

/-- The separators before the first name of an absolute path.  Two of them stay as they are if no
third follows; any other number stands for one. -/
def rootText (path : String) : String :=
  match path.toList with
  | '/' :: '/' :: '/' :: _ => "/"
  | '/' :: '/' :: _ => "//"
  | _ => "/"

/-- The absolute path of what the given names lead to from the directory of a path.  A path that is
not absolute begins in the root directory. -/
def absolute (path : String) (below : List String) : String :=
  rootText path ++ String.intercalate "/" (names path ++ below)

end CallHarvest.Path
