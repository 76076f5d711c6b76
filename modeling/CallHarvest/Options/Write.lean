import CallHarvest.Json.Text
import CallHarvest.Options.ParseError

/-!
# Writing options

Options are written as an object without spaces.  The fields stand in their order; those that are
absent are left out, and the mode is never absent.

* `Patterns.write`, `Call.Mode.write` — the values of fields.
* `Options.write` — options.
-/

namespace CallHarvest

open Json (quote)

/-- Texts with commas between them. -/
def withCommas (texts : List (List Char)) : List Char :=
  List.intercalate [','] texts

/-- One pattern as a text, several as an array. -/
def Patterns.write : Patterns → List Char
  | .single pattern => quote pattern
  | .list patterns => '[' :: withCommas (patterns.map quote) ++ [']']

/-- The name of a mode as a text. -/
def Call.Mode.write (m : Call.Mode) : List Char :=
  quote m.name

namespace Options

/-- The value of a field, unless it is absent. -/
def writeField? (o : Options) : Field → Option (List Char)
  | .patterns list => (o.patterns? list).map Patterns.write
  | .baseDir => o.baseDir.map quote
  | .mode => some o.mode.write

/-- The members of the fields that are present. -/
def members (o : Options) : List (List Char) :=
  Field.all.filterMap fun f => (o.writeField? f).map fun value => quote f.key ++ ':' :: value

/-- Options as a text. -/
def write (o : Options) : String :=
  String.ofList ('\x7b' :: withCommas o.members ++ ['\x7d'])

end Options

end CallHarvest
