/-!
# Text as bytes

Positions, lengths and orders of this library are those of the UTF-8 form of a text, while texts
themselves are strings or lists of characters.  This file holds the way from the one to the other.

* `bytes` — the UTF-8 form of a list of characters.
* `byteLength` — how many bytes that form has.
* `byteLe` — the order of two texts by their bytes.
* `decodeLossy` — reads any bytes, with a replacement character for each part that is no text.
-/

namespace CallHarvest.Text

/-- The UTF-8 form of a text. -/
def bytes (cs : List Char) : List UInt8 :=
  cs.flatMap String.utf8EncodeChar

/-- The number of bytes of the UTF-8 form of a text. -/
def byteLength (cs : List Char) : Nat :=
  cs.foldr (fun c n => c.utf8Size + n) 0

@[simp] theorem byteLength_nil : byteLength [] = 0 := rfl

@[simp] theorem byteLength_cons (c : Char) (cs : List Char) :
    byteLength (c :: cs) = c.utf8Size + byteLength cs := rfl

@[simp] theorem byteLength_append (xs ys : List Char) :
    byteLength (xs ++ ys) = byteLength xs + byteLength ys := by
  induction xs with
  | nil => simp
  | cons x xs ih => rw [List.cons_append, byteLength_cons, ih, byteLength_cons, Nat.add_assoc]

/-- Whether the bytes of the first text come before those of the second, or are the same. -/
def byteLe (a b : String) : Bool :=
  decide (bytes a.toList ≤ bytes b.toList)

/-! ### Reading bytes that may not be text -/

/-- A character of which the first bytes are read: its bits so far, the number of bytes still
owed, and the bounds of the next of them. -/
structure Unfinished where
  bits : Nat
  owed : Nat
  low : UInt8
  high : UInt8

/-- The character that stands for a part that is no text. -/
def replacement : Char := Char.ofNat 0xFFFD

/-- What the first byte of a character says of the rest, if it is one. -/
def leading (b : UInt8) : Option Unfinished :=
  if b < 0x80 then some ⟨b.toNat, 0, 0, 0⟩
  else if b < 0xC2 then none
  else if b < 0xE0 then some ⟨b.toNat - 0xC0, 1, 0x80, 0xBF⟩
  else if b < 0xF0 then
    some ⟨b.toNat - 0xE0, 2, if b = 0xE0 then 0xA0 else 0x80, if b = 0xED then 0x9F else 0xBF⟩
  else if b < 0xF5 then
    some ⟨b.toNat - 0xF0, 3, if b = 0xF0 then 0x90 else 0x80, if b = 0xF4 then 0x8F else 0xBF⟩
  else none

/-- What a byte leads to between two characters: a whole character, or an unfinished one. -/
def begin (b : UInt8) : List Char × Option Unfinished :=
  match leading b with
  | none => ([replacement], none)
  | some u => if u.owed = 0 then ([Char.ofNat u.bits], none) else ([], some u)

/-- What the next byte makes of an unfinished character.  One that does not fit leaves a
replacement and is itself read as a first byte. -/
def proceed (u : Unfinished) (b : UInt8) : List Char × Option Unfinished :=
  if u.low ≤ b ∧ b ≤ u.high then
    let bits := u.bits * 64 + (b.toNat - 0x80)
    if u.owed = 1 then ([Char.ofNat bits], none) else ([], some ⟨bits, u.owed - 1, 0x80, 0xBF⟩)
  else
    let (cs, next) := begin b
    (replacement :: cs, next)

/-- The characters of a list of bytes, after an unfinished one. -/
def decodeFrom : Option Unfinished → List UInt8 → List Char
  | none, [] => []
  | some _, [] => [replacement]
  | none, b :: bs =>
    let (cs, next) := begin b
    cs ++ decodeFrom next bs
  | some u, b :: bs =>
    let (cs, next) := proceed u b
    cs ++ decodeFrom next bs

/-- The text of any bytes: each longest part that begins a character and does not end it, and
each byte that begins none, is read as one replacement character. -/
def decodeLossy (content : ByteArray) : String :=
  String.ofList (decodeFrom none content.data.toList)

end CallHarvest.Text
