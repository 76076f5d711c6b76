import CallHarvest.Call.Basic
import CallHarvest.Registry

/-!
# The manifest

The manifest is the file from which the texts to translate are taken.  It holds one comment line
for each call of a registry, in the order of the bytes of the calls as they were found.  A
namespace in parentheses is written without them.

* `normalize` — a call with its first wrapped namespace unwrapped.
* `Manifest.ofRegistry` — the lines for a registry.
* `Manifest.render` — the content of the file.
-/

namespace CallHarvest

/-- Whether the wrapped namespace occurs in a text, so that `normalize` alters it. -/
def isWrapped (text : String) : Bool :=
  (Text.replaceFirst? Call.wrappedName.toList Call.bareName.toList text.toList).isSome

/-- A call text in which the first wrapped namespace is replaced by the bare one. -/
def normalize (text : String) : String :=
  match Text.replaceFirst? Call.wrappedName.toList Call.bareName.toList text.toList with
  | some cs => String.ofList cs
  | none => text

/-- The lines for the calls of a registry. -/
structure Manifest where
  lines : List String
deriving DecidableEq, Repr

namespace Manifest

/-- The name of the file that holds the manifest. -/
def fileName : String := "translations.js"

/-- What each line begins with, so that it is a comment. -/
def lineStart : String := "// "

/-- The lines for a registry, in the order of the bytes of its texts. -/
def ofRegistry (r : Registry) : Manifest where
  lines := r.sorted.map fun text => lineStart ++ normalize text

/-- The number of lines. -/
def size (m : Manifest) : Nat := m.lines.length

/-- Whether there are no lines. -/
def isEmpty (m : Manifest) : Bool := m.lines.isEmpty

/-- The content of the file: the lines with line breaks between them. -/
def render (m : Manifest) : String :=
  String.intercalate "\n" m.lines

end Manifest

end CallHarvest
