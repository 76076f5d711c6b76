import CallHarvest.Json.Numeral
import CallHarvest.Json.Text

/-!
# Reading JSON values

The reader takes a value off the beginning of a text.  It goes strictly from left to right, so that
the first fault in the text is the one that is told.

* `Taken` — what was read off a text, with the rest, which is shorter.
* `takeValue`, `takeElements`, `takeMembers` — a value, the elements of an array that is not empty,
  and the members of an object that is not empty.
* `readValue` — a value and the text after it.
-/

namespace CallHarvest.Json

/-- Something that was read off a text, and the rest of it. -/
abbrev Taken (α : Type) (cs : List Char) : Type :=
  Except Fault { p : α × List Char // p.2.length < cs.length }

/-- A reader for which the rest is shorter than the text. -/
def takeBy {α : Type} (read : List Char → Except Fault (α × List Char))
    (shorter : ∀ {cs a rest}, read cs = .ok (a, rest) → rest.length < cs.length)
    (cs : List Char) : Taken α cs :=
  match h : read cs with
  | .ok (a, rest) => .ok ⟨(a, rest), shorter h⟩
  | .error fault => .error fault

/-! ### Values that hold no others -/

/-- Reads a number.  One that is used has to be in range. -/
def readNumber (care : Care) (cs : List Char) : Except Fault (Value × List Char) := do
  let (n, rest) ← readNumeral care cs
  if care.isUse ∧ n.number? = none then .error .malformed else .ok (.number n, rest)

theorem readNumber_length {care : Care} {cs rest : List Char} {v : Value}
    (h : readNumber care cs = .ok (v, rest)) : rest.length < cs.length := by
  obtain ⟨⟨n, r⟩, hn, h⟩ := bind_eq_ok h
  dsimp only at h
  split at h
  · exact nomatch h
  · obtain ⟨_, rfl⟩ := Prod.mk.inj (Except.ok.inj h)
    exact readNumeral_length hn

/-- Reads a value that is written as a word of which the first letter is known. -/
def readNamed (word : List Char) (v : Value) : List Char → Except Fault (Value × List Char)
  | [] => .error .ended
  | _ :: cs => (readWord word cs).map fun rest => (v, rest)

theorem readNamed_length {word : List Char} {v w : Value} {cs rest : List Char}
    (h : readNamed word v cs = .ok (w, rest)) : rest.length < cs.length := by
  cases cs with
  | nil => exact nomatch h
  | cons c cs =>
    obtain ⟨r, hr, h⟩ := map_eq_ok h
    obtain ⟨_, rfl⟩ := Prod.mk.inj h
    have := readWord_length hr
    rw [List.length_cons]
    omega

/-- Reads a value that is no array and no object. -/
def readScalar (care : Care) (cs : List Char) : Except Fault (Value × List Char) :=
  match cs with
  | 'n' :: _ => readNamed "ull".toList .null cs
  | 't' :: _ => readNamed "rue".toList (.bool true) cs
  | 'f' :: _ => readNamed "alse".toList (.bool false) cs
  | '\x22' :: inside =>
    (readText care inside).map fun (text, rest) => (.text (String.ofList text), rest)
  | c :: _ => if c = '-' ∨ c.isDigit then readNumber care cs else .error .malformed
  | [] => .error .ended

theorem readScalar_length {care : Care} {cs rest : List Char} {v : Value}
    (h : readScalar care cs = .ok (v, rest)) : rest.length < cs.length := by
  unfold readScalar at h
  split at h
  · exact readNamed_length h
  · exact readNamed_length h
  · exact readNamed_length h
  · obtain ⟨p, hp, h⟩ := map_eq_ok h
    have hlt : p.2.length < _ := readText_length hp
    obtain ⟨_, rfl⟩ := Prod.mk.inj h
    rw [List.length_cons]
    omega
  · split at h
    · exact readNumber_length h
    · exact nomatch h
  · exact nomatch h

/-! ### Arrays and objects -/

/-- Reads the colon between the name and the value of a member. -/
def readColon (cs : List Char) : Except Fault (List Char) :=
  match skipSpace cs with
  | ':' :: rest => .ok rest
  | other => .error (faultAt other)

/-- Reads the name of a member. -/
def readName (care : Care) (cs : List Char) : Except Fault (String × List Char) :=
  match skipSpace cs with
  | '\x22' :: inside =>
    (readText care inside).map fun (name, rest) => (String.ofList name, rest)
  | other => .error (faultAt other)

theorem readColon_length {cs rest : List Char} (h : readColon cs = .ok rest) :
    rest.length < cs.length := by
  unfold readColon at h
  split at h
  · rename_i hskip
    obtain rfl := Except.ok.inj h
    exact length_lt_of_skipSpace hskip
  · exact nomatch h

theorem readName_length {care : Care} {cs rest : List Char} {name : String}
    (h : readName care cs = .ok (name, rest)) : rest.length < cs.length := by
  unfold readName at h
  split at h
  · rename_i hskip
    obtain ⟨p, hp, h⟩ := map_eq_ok h
    have hlt : p.2.length < _ := readText_length hp
    have hlt' := length_lt_of_skipSpace hskip
    obtain ⟨_, rfl⟩ := Prod.mk.inj h
    omega
  · exact nomatch h

/-- Reads the name of a member and the colon after it. -/
def readKey (care : Care) (cs : List Char) : Except Fault (String × List Char) := do
  let (name, afterName) ← readName care cs
  let rest ← readColon afterName
  return (name, rest)

theorem readKey_length {care : Care} {cs rest : List Char} {name : String}
    (h : readKey care cs = .ok (name, rest)) : rest.length < cs.length := by
  obtain ⟨⟨key, a⟩, hname, h⟩ := bind_eq_ok h
  obtain ⟨b, hcolon, h⟩ := bind_eq_ok h
  obtain ⟨_, rfl⟩ := Prod.mk.inj (Except.ok.inj h)
  have h1 := readName_length hname
  have h2 := readColon_length hcolon
  omega

mutual

/-- Reads a value. -/
def takeValue (care : Care) (cs : List Char) : Taken Value cs :=
  match hcs : skipSpace cs with
  | [] => .error .ended
  | c :: inside =>
    have hlt : inside.length < cs.length := length_lt_of_skipSpace hcs
    if c = '[' then
      match care.inside?, hin : skipSpace inside with
      | none, _ => .error .malformed
      | some _, ']' :: rest =>
        have := length_lt_of_skipSpace hin
        .ok ⟨(.array [], rest), Nat.lt_trans this hlt⟩
      | some deeper, _ =>
        match takeElements deeper inside with
        | .ok ⟨(elements, rest), h⟩ => .ok ⟨(.array elements, rest), Nat.lt_trans h hlt⟩
        | .error fault => .error fault
    else if c = '\x7b' then
      match care.inside?, hin : skipSpace inside with
      | none, _ => .error .malformed
      | some _, '\x7d' :: rest =>
        have := length_lt_of_skipSpace hin
        .ok ⟨(.object [], rest), Nat.lt_trans this hlt⟩
      | some deeper, _ =>
        match takeMembers deeper inside with
        | .ok ⟨(members, rest), h⟩ => .ok ⟨(.object members, rest), Nat.lt_trans h hlt⟩
        | .error fault => .error fault
    else
      match takeBy (readScalar care) readScalar_length (c :: inside) with
      | .ok ⟨(v, rest), h⟩ => .ok ⟨(v, rest), Nat.lt_of_lt_of_le h hlt⟩
      | .error fault => .error fault
termination_by 2 * cs.length

/-- Reads one or more elements with commas between them, and the closing bracket. -/
def takeElements (care : Care) (cs : List Char) : Taken (List Value) cs :=
  match takeValue care cs with
  | .error fault => .error fault
  | .ok ⟨(v, rest), hv⟩ =>
    match hr : skipSpace rest with
    | ']' :: after => .ok ⟨([v], after), Nat.lt_trans (length_lt_of_skipSpace hr) hv⟩
    | ',' :: after =>
      have hlt : after.length < cs.length := Nat.lt_trans (length_lt_of_skipSpace hr) hv
      match takeElements care after with
      | .ok ⟨(vs, after'), h⟩ => .ok ⟨(v :: vs, after'), Nat.lt_trans h hlt⟩
      | .error fault => .error fault
    | other => .error (faultAt other)
termination_by 2 * cs.length + 1

/-- Reads one or more members with commas between them, and the closing brace. -/
def takeMembers (care : Care) (cs : List Char) : Taken (List (String × Value)) cs :=
  match takeBy (readKey care) readKey_length cs with
  | .error fault => .error fault
  | .ok ⟨(name, value), hkey⟩ =>
    have hvalue : value.length < cs.length := hkey
    match takeValue care value with
    | .error fault => .error fault
    | .ok ⟨(v, rest), hv⟩ =>
      have hrest : rest.length < cs.length := Nat.lt_trans hv hvalue
      match hr : skipSpace rest with
      | '\x7d' :: after =>
        .ok ⟨([(name, v)], after), Nat.lt_trans (length_lt_of_skipSpace hr) hrest⟩
      | ',' :: after =>
        have hlt : after.length < cs.length := Nat.lt_trans (length_lt_of_skipSpace hr) hrest
        match takeMembers care after with
        | .ok ⟨(members, after'), h⟩ => .ok ⟨((name, v) :: members, after'), Nat.lt_trans h hlt⟩
        | .error fault => .error fault
      | other => .error (faultAt other)
termination_by 2 * cs.length + 1

end

/-- Reads a value; the answer has the text after it. -/
def readValue (care : Care) (cs : List Char) : Except Fault (Value × List Char) :=
  (takeValue care cs).map Subtype.val

end CallHarvest.Json
