import CallHarvest.Json.Value
import CallHarvest.Options.ParseError

/-!
# Reading options

Options are an object with a member for each field, in any order; other members are skimmed.  They
may also be an array of the fields in their order, from which the last ones may be missing.  A
field that is absent or null keeps its default, except that the mode cannot be null.

* `Failure` — a fault or a misfit, at a place of the text.
* `readPatterns?`, `readPath?`, `readMode` — the values of the fields.
* `readMembers`, `readElements` — the two forms of options.
* `Options.parse`, `Patterns.parse`, `Call.Mode.parse` — whole texts.
-/

namespace CallHarvest

open Json (Care Value faultAt readColon readName readScalar readValue skipSpace)

/-! ### Failures -/

/-- Why the reading of a text ended: a fault, or a misfit before the given rest. -/
inductive Failure
  | fault (f : Json.Fault)
  | misfit (m : Misfit) (rest : List Char)

/-- What is read as JSON. -/
def ofJson {α : Type} : Except Json.Fault α → Except Failure α
  | .ok a => .ok a
  | .error f => .error (.fault f)

theorem ofJson_eq_ok {α : Type} {x : Except Json.Fault α} {a : α} (h : ofJson x = .ok a) :
    x = .ok a := by
  cases x with
  | error f => exact nomatch h
  | ok b => rw [Except.ok.inj h]

/-- Whether a misfit is told only after the end of what holds it was looked for. -/
def Misfit.isLate : Misfit → Bool
  | .repeated _ => true
  | .noPatterns => true
  | _ => false

/-- The text after an object's closing brace, if the brace comes next. -/
def settleObject (cs : List Char) : List Char :=
  match skipSpace cs with
  | '\x7d' :: rest => rest
  | rest => rest

/-- The text after an array's closing bracket or next comma, if one of these comes next. -/
def settleArray (cs : List Char) : List Char :=
  match skipSpace cs with
  | ']' :: rest => rest
  | ',' :: rest => skipSpace rest
  | rest => rest

/-- A failure inside an object or array, of which the end is looked for. -/
def Failure.settle (find : List Char → List Char) : Failure → Failure
  | .fault f => .fault f
  | .misfit m rest => .misfit m (if m.isLate then find rest else rest)

/-- The error of a failure in the given text. -/
def Failure.toError (text : List Char) : Failure → ParseError
  | .fault f => .fault f
  | .misfit m rest => .misfit m (some (.before text rest))

/-! ### Values of fields -/

/-- The form in which a value is told of when another one was expected. -/
def Found.ofValue : Value → Found
  | .null => .null
  | .bool b => .bool b
  | .number n => .number (n.number?.getD (.whole 0))
  | .text s => .text s
  | .array _ => .array
  | .object _ => .object

/-- Reads a value in a place where no array and no object can stand. -/
def readPlain (expected : Expected) (cs : List Char) : Except Failure (Value × List Char) :=
  match skipSpace cs with
  | '[' :: inside => .error (.misfit (.wrongType .array expected) ('[' :: inside))
  | '\x7b' :: inside => .error (.misfit (.wrongType .object expected) ('\x7b' :: inside))
  | plain => ofJson (readScalar (.use 0) plain)

/-- How deep arrays and objects may be nested, the whole text included. -/
def maxDepth : Nat := 127

/-- The text of a value, if it is one. -/
def text? : Value → Option String
  | .text s => some s
  | _ => none

/-- The patterns that a value describes: a text, or an array of texts. -/
def Patterns.ofValue? : Value → Option Patterns
  | .text s => some (.single s)
  | .array elements => (elements.mapM text?).map .list
  | _ => none

/-- Reads patterns, or null. -/
def readPatterns? (cs : List Char) : Except Failure (Option Patterns × List Char) := do
  let (v, rest) ← ofJson (readValue (.use (maxDepth - 1)) cs)
  match v with
  | .null => return (none, rest)
  | v =>
    match Patterns.ofValue? v with
    | some p => return (some p, rest)
    | none => .error (.misfit .noPatterns rest)

/-- Reads a path, or null. -/
def readPath? (cs : List Char) : Except Failure (Option String × List Char) := do
  let (v, rest) ← readPlain .path cs
  match v with
  | .null => return (none, rest)
  | .text s => return (some s, rest)
  | v => .error (.misfit (.wrongType (.ofValue v) .path) rest)

/-- Reads the name of a mode. -/
def readModeName (cs : List Char) : Except Failure (Call.Mode × List Char) := do
  let (name, rest) ← ofJson (readName (.use 0) cs)
  match Call.Mode.ofName? name with
  | some mode => return (mode, rest)
  | none => .error (.misfit (.unknownMode name) rest)

/-- Reads null. -/
def readNull (cs : List Char) : Except Failure (Unit × List Char) := do
  let (v, rest) ← readPlain .nothing cs
  match v with
  | .null => return ((), rest)
  | v => .error (.misfit (.wrongType (.ofValue v) .nothing) rest)

/-- Reads the end of an object. -/
def readBrace (cs : List Char) : Except Failure (List Char) :=
  match skipSpace cs with
  | '\x7d' :: rest => .ok rest
  | other => .error (.fault (faultAt other))

/-- Reads a mode: its name, or an object with its name as the only member, and null as value. -/
def readMode (cs : List Char) : Except Failure (Call.Mode × List Char) :=
  match skipSpace cs with
  | '\x22' :: inside => readModeName ('\x22' :: inside)
  | '\x7b' :: inside => do
    let (mode, afterName) ← readModeName inside
    let afterColon ← ofJson (readColon afterName)
    let (_, afterNull) ← readNull afterColon
    let rest ← readBrace afterNull
    return (mode, rest)
  | other => .error (.fault (faultAt other))

/-! ### Fields -/

/-- Options that are being read, and the fields that were given so far. -/
structure Draft where
  options : Options := {}
  given : List Field := []

/-- Options with the patterns of a list replaced. -/
def Options.withPatterns (o : Options) (p : Option Patterns) : PatternList → Options
  | .included => { o with included := p }
  | .excluded => { o with excluded := p }

/-- Reads the value of a field of options. -/
def Options.readField (o : Options) (f : Field) (cs : List Char) :
    Except Failure (Options × List Char) :=
  match f with
  | .patterns list => (readPatterns? cs).map fun (p, rest) => (o.withPatterns p list, rest)
  | .baseDir => (readPath? cs).map fun (p, rest) => ({ o with baseDir := p }, rest)
  | .mode => (readMode cs).map fun (m, rest) => ({ o with mode := m }, rest)

/-- Reads the value of a field that was not given before. -/
def Draft.readField (d : Draft) (f : Field) (cs : List Char) :
    Except Failure (Draft × List Char) :=
  (d.options.readField f cs).map fun (o, rest) => (⟨o, f :: d.given⟩, rest)

/-- Reads a member.  A field can be given only once. -/
def Draft.readMember (d : Draft) (cs : List Char) : Except Failure (Draft × List Char) := do
  let (name, afterName) ← ofJson (readName (.use 0) cs)
  match Field.ofKey? name with
  | none =>
    let afterColon ← ofJson (readColon afterName)
    let (_, rest) ← ofJson (readValue .skim afterColon)
    return (d, rest)
  | some f =>
    if f ∈ d.given then .error (.misfit (.repeated f) afterName)
    else
      let afterColon ← ofJson (readColon afterName)
      d.readField f afterColon

/-! ### Lengths -/

theorem readValue_length {care : Care} {cs rest : List Char} {v : Value}
    (h : readValue care cs = .ok (v, rest)) : rest.length < cs.length := by
  obtain ⟨p, _, hp⟩ := map_eq_ok h
  have hlt := p.2
  rw [hp] at hlt
  exact hlt

theorem readPlain_length {expected : Expected} {cs rest : List Char} {v : Value}
    (h : readPlain expected cs = .ok (v, rest)) : rest.length < cs.length := by
  have hskip := Json.skipSpace_length cs
  unfold readPlain at h
  split at h
  · exact nomatch h
  · exact nomatch h
  · have hlt := Json.readScalar_length (ofJson_eq_ok h)
    omega

theorem readPatterns?_length {cs rest : List Char} {p : Option Patterns}
    (h : readPatterns? cs = .ok (p, rest)) : rest.length < cs.length := by
  obtain ⟨⟨v, r⟩, hv, h⟩ := bind_eq_ok h
  have hlt := readValue_length (ofJson_eq_ok hv)
  dsimp only at h
  split at h
  · obtain ⟨_, rfl⟩ := Prod.mk.inj (Except.ok.inj h)
    exact hlt
  · split at h
    · obtain ⟨_, rfl⟩ := Prod.mk.inj (Except.ok.inj h)
      exact hlt
    · exact nomatch h

theorem readPath?_length {cs rest : List Char} {p : Option String}
    (h : readPath? cs = .ok (p, rest)) : rest.length < cs.length := by
  obtain ⟨⟨v, r⟩, hv, h⟩ := bind_eq_ok h
  have hlt := readPlain_length hv
  dsimp only at h
  split at h
  · obtain ⟨_, rfl⟩ := Prod.mk.inj (Except.ok.inj h)
    exact hlt
  · obtain ⟨_, rfl⟩ := Prod.mk.inj (Except.ok.inj h)
    exact hlt
  · exact nomatch h

theorem readModeName_length {cs rest : List Char} {m : Call.Mode}
    (h : readModeName cs = .ok (m, rest)) : rest.length < cs.length := by
  obtain ⟨⟨name, r⟩, hn, h⟩ := bind_eq_ok h
  have hlt := Json.readName_length (ofJson_eq_ok hn)
  dsimp only at h
  split at h
  · obtain ⟨_, rfl⟩ := Prod.mk.inj (Except.ok.inj h)
    exact hlt
  · exact nomatch h

theorem readNull_length {cs rest : List Char} {u : Unit} (h : readNull cs = .ok (u, rest)) :
    rest.length < cs.length := by
  obtain ⟨⟨v, r⟩, hv, h⟩ := bind_eq_ok h
  have hlt := readPlain_length hv
  dsimp only at h
  split at h
  · obtain ⟨_, rfl⟩ := Prod.mk.inj (Except.ok.inj h)
    exact hlt
  · exact nomatch h

theorem readBrace_length {cs rest : List Char} (h : readBrace cs = .ok rest) :
    rest.length < cs.length := by
  unfold readBrace at h
  split at h
  · rename_i hskip
    obtain rfl := Except.ok.inj h
    exact Json.length_lt_of_skipSpace hskip
  · exact nomatch h

theorem readMode_length {cs rest : List Char} {m : Call.Mode} (h : readMode cs = .ok (m, rest)) :
    rest.length < cs.length := by
  have hskip := Json.skipSpace_length cs
  unfold readMode at h
  split at h
  · rename_i hcs
    have hlt := readModeName_length h
    rw [hcs] at hskip
    omega
  · rename_i hcs
    have hin := Json.length_lt_of_skipSpace hcs
    obtain ⟨⟨mode, a⟩, ha, h⟩ := bind_eq_ok h
    obtain ⟨b, hb, h⟩ := bind_eq_ok h
    obtain ⟨⟨_, c⟩, hc, h⟩ := bind_eq_ok h
    obtain ⟨e, he, h⟩ := bind_eq_ok h
    obtain ⟨_, rfl⟩ := Prod.mk.inj (Except.ok.inj h)
    have h1 := readModeName_length ha
    have h2 := Json.readColon_length (ofJson_eq_ok hb)
    have h3 := readNull_length hc
    have h4 := readBrace_length he
    omega
  · exact nomatch h

theorem readField_length {d d' : Draft} {f : Field} {cs rest : List Char}
    (h : d.readField f cs = .ok (d', rest)) : rest.length < cs.length := by
  obtain ⟨⟨options, r⟩, ho, h⟩ := map_eq_ok h
  obtain ⟨_, rfl⟩ := Prod.mk.inj h
  cases f with
  | patterns list =>
    obtain ⟨p, hp, he⟩ := map_eq_ok ho
    obtain ⟨_, rfl⟩ := Prod.mk.inj he
    exact readPatterns?_length hp
  | baseDir =>
    obtain ⟨p, hp, he⟩ := map_eq_ok ho
    obtain ⟨_, rfl⟩ := Prod.mk.inj he
    exact readPath?_length hp
  | mode =>
    obtain ⟨p, hp, he⟩ := map_eq_ok ho
    obtain ⟨_, rfl⟩ := Prod.mk.inj he
    exact readMode_length hp

theorem readMember_length {d d' : Draft} {cs rest : List Char}
    (h : d.readMember cs = .ok (d', rest)) : rest.length < cs.length := by
  obtain ⟨⟨name, a⟩, hn, h⟩ := bind_eq_ok h
  have h1 := Json.readName_length (ofJson_eq_ok hn)
  dsimp only at h
  split at h
  · obtain ⟨b, hb, h⟩ := bind_eq_ok h
    obtain ⟨⟨v, c⟩, hc, h⟩ := bind_eq_ok h
    obtain ⟨_, rfl⟩ := Prod.mk.inj (Except.ok.inj h)
    have h2 := Json.readColon_length (ofJson_eq_ok hb)
    have h3 := readValue_length (ofJson_eq_ok hc)
    show c.length < cs.length
    omega
  · split at h
    · exact nomatch h
    · obtain ⟨b, hb, h⟩ := bind_eq_ok h
      have h2 := Json.readColon_length (ofJson_eq_ok hb)
      have h3 := readField_length h
      omega

/-! ### Options -/

/-- Reads one or more members with commas between them, and the closing brace. -/
def readMembers (d : Draft) (cs : List Char) : Except Failure (Draft × List Char) :=
  match _member : d.readMember cs with
  | .error e => .error e
  | .ok (d', rest) =>
    match _next : skipSpace rest with
    | '\x7d' :: after => .ok (d', after)
    | ',' :: after => readMembers d' after
    | other => .error (.fault (faultAt other))
termination_by cs.length
decreasing_by
  have h1 := readMember_length _member
  have h2 := Json.length_lt_of_skipSpace _next
  omega

/-- Reads values for the given fields, of which the last ones may be missing, and the closing
bracket. -/
def readElements (d : Draft) : List Field → List Char → Except Failure (Draft × List Char)
  | [], cs => .error (.fault (faultAt cs))
  | f :: fields, cs => do
    let (d', rest) ← d.readField f cs
    match skipSpace rest, fields with
    | ']' :: after, _ => return (d', after)
    | ',' :: after, _ :: _ => readElements d' fields after
    | other, _ => .error (.fault (faultAt other))

/-- Reads options: an object or an array. -/
def readOptions (cs : List Char) : Except Failure (Draft × List Char) :=
  match skipSpace cs with
  | '\x7b' :: inside =>
    match skipSpace inside with
    | '\x7d' :: rest => .ok ({}, rest)
    | _ => (readMembers {} inside).mapError (Failure.settle settleObject)
  | '[' :: inside =>
    match skipSpace inside with
    | ']' :: rest => .ok ({}, rest)
    | _ => (readElements {} Field.all inside).mapError (Failure.settle settleArray)
  | other => do
    let (v, rest) ← readPlain .options other
    .error (.misfit (.wrongType (.ofValue v) .options) rest)

/-- A value that was read, if nothing but spaces follows it. -/
def whole {α : Type} : α × List Char → Except Failure α
  | (a, rest) => if skipSpace rest = [] then .ok a else .error (.fault .malformed)

/-- Reads a text as options. -/
def Options.parse (text : String) : Except ParseError Options :=
  ((readOptions text.toList >>= whole).map Draft.options).mapError
    (Failure.toError text.toList)

/-- Reads a text as patterns.  Of a value that is none no place is told. -/
def Patterns.parse (text : String) : Except ParseError Patterns :=
  match readValue (.use maxDepth) text.toList with
  | .error f => .error (.fault f)
  | .ok (v, rest) =>
    match Patterns.ofValue? v with
    | none => .error (.misfit .noPatterns none)
    | some p => (whole (p, rest)).mapError (Failure.toError text.toList)

/-- Reads a text as a mode. -/
def Call.Mode.parse (text : String) : Except ParseError Call.Mode :=
  (readMode text.toList >>= whole).mapError (Failure.toError text.toList)

end CallHarvest
