import CallHarvest.FileTree.Basic
import CallHarvest.Path

/-!
# Finding places by paths

A path is followed name by name from the root of a tree.  Two dots lead back to the directory above,
and a link leads on along the path it holds, from the directory it is in.

* `Route` — the names of a path, dots among them, and whether it ends in a separator.
* `Spot` — where a path leads: to something, or to a free place in a directory.
* `FileTree.walk` — where parts lead from a directory.
* `FileTree.locate`, `FileTree.locateFile` — where a route leads from a directory.
-/

namespace CallHarvest

/-! ### Routes -/

/-- The parts of a path that lead from one place to the next, and whether a separator follows the
last of them. -/
structure Route where
  parts : List String
  slash : Bool := false

/-- The parts of a text that are not empty. -/
def partsOf (path : String) : List String :=
  ((path.toList.splitOn '/').filter fun part => part != []).map String.ofList

/-- Whether a text ends in a separator. -/
def endsInSlash (path : String) : Bool :=
  path.toList.getLast? == some '/'

/-- The most bytes of a path, and of a name in it. -/
def pathLimit : Nat := 4095

/-- The most bytes of a name. -/
def nameLimit : Nat := 255

namespace Route

/-- The route along a text. -/
def ofText (text : String) : Route := ⟨partsOf text, endsInSlash text⟩

/-- The route along a path.  No path holds a zero character, is empty, or is longer than the
limit. -/
def ofPath (path : String) : Except Fault Route :=
  if path.toList.contains '\x00' then .error .zeroInName
  else if path = "" then .error .notFound
  else if pathLimit < path.utf8ByteSize then .error .nameTooLong
  else .ok (ofText path)

/-- The parts of a route, and a dot if it ends in a separator, since such a route leads to a
directory. -/
def steps (r : Route) : List String :=
  r.parts ++ if r.slash then ["."] else []

/-- A route with further parts after it. -/
def onward (r : Route) (parts : List String) : Route :=
  if parts = [] then r else ⟨r.parts ++ parts, false⟩

/-- The route to the directory above the last part. -/
def parent (r : Route) : Route := ⟨r.parts.dropLast, true⟩

end Route

/-! ### Following a route -/

/-- Where a route leads. -/
inductive Spot
  /-- To something. -/
  | taken (place : Place) (n : Node)
  /-- To a name that is free in a directory. -/
  | free (directory : Place) (name : String)

/-- The most links that are followed on one route. -/
def linkLimit : Nat := 40

namespace FileTree

/-- Where parts lead from a directory.  At a link the way goes on as `through` says, which gets the
directory and the route that is left, that of the link first.  A link at the end is followed only if
`follow` says so. -/
def walk (t : FileTree) (follow : Bool) (through : Place → Route → Except Fault Spot)
    (here : Place) : List String → Except Fault Spot
  | [] =>
    match t.get? here with
    | some n => .ok (.taken here n)
    | none => .error .notFound
  | part :: parts =>
    if part = "." then walk t follow through here parts
    else if part = ".." then walk t follow through here.dropLast parts
    else if nameLimit < part.utf8ByteSize then .error .nameTooLong
    else
      match t.get? (here ++ [part]), parts with
      | none, [] => .ok (.free here part)
      | none, _ :: _ => .error .notFound
      | some (.dir _), parts => walk t follow through (here ++ [part]) parts
      | some (.file content), [] => .ok (.taken (here ++ [part]) (.file content))
      | some (.file _), _ :: _ => .error .notDirectory
      | some (.link target), parts =>
        if parts = [] ∧ follow = false then .ok (.taken (here ++ [part]) (.link target))
        else if target = "" then .error .notFound
        else
          through (if Path.isAbsolute target then [] else here) ((Route.ofText target).onward parts)

/-- Where a route leads from a directory, if no more than the given number of links is followed. -/
def locateFrom (t : FileTree) (follow : Bool) : Nat → Place → Route → Except Fault Spot
  | 0, here, route => t.walk follow (fun _ _ => .error .tooManyLinks) here route.steps
  | links + 1, here, route => t.walk follow (t.locateFrom follow links) here route.steps

/-- Where a route leads from a directory. -/
def locate (t : FileTree) (follow : Bool) (here : Place) (route : Route) : Except Fault Spot :=
  t.locateFrom follow linkLimit here route

/-- Where the route to a file that is to be written leads from a directory, if no more than the
given number of links is followed.  A route that ends in a separator, and a link at its end that
does, are for a directory, whether there is one or not. -/
def locateFileFrom (t : FileTree) : Nat → Place → Route → Except Fault Spot
  | links, here, route =>
    if route.slash then do
      let _ ← t.locateFrom true links here route.parent
      .error .isDirectory
    else
      match links with
      | 0 => t.walk true (fun _ _ => .error .tooManyLinks) here route.parts
      | links + 1 => t.walk true (t.locateFileFrom links) here route.parts

/-- Where the route to a file that is to be written leads from a directory. -/
def locateFile (t : FileTree) (here : Place) (route : Route) : Except Fault Spot :=
  t.locateFileFrom linkLimit here route

end FileTree

end CallHarvest
