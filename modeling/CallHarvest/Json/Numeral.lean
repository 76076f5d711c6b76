import CallHarvest.Decimal.Shortest
import CallHarvest.Json.Basic

/-!
# JSON numbers

* `readNumeral` — a number as it is written.
* `Number` — what a number stands for: a whole number of 64 bits, or a floating point number.
* `Numeral.number?` — the number that is written, unless it is out of range.
* `Number.render` — the text of a number in a message.
-/

namespace CallHarvest.Json

/-! ### Reading -/

/-- What is wrong with a number that stops where a digit is needed.  Only in a value that is used
the end of the text is told from other characters. -/
def digitFault (care : Care) (cs : List Char) : Fault :=
  if care.isUse then faultAt cs else .malformed

/-- Reads one or more digits. -/
def readDigits (care : Care) (cs : List Char) : Except Fault (List Char × List Char) :=
  match cs.takeWhile Char.isDigit with
  | [] => .error (digitFault care cs)
  | digits => .ok (digits, cs.dropWhile Char.isDigit)

/-- Reads the digits before the point.  A zero can only stand alone. -/
def readWhole (care : Care) (cs : List Char) : Except Fault (List Char × List Char) := do
  let (digits, rest) ← readDigits care cs
  if digits.head? = some '0' ∧ digits.length ≠ 1 then .error .malformed else .ok (digits, rest)

/-- Reads a point and the digits after it, if there is a point. -/
def readFraction (care : Care) : List Char → Except Fault (Option (List Char) × List Char)
  | '.' :: cs => (readDigits care cs).map fun (digits, rest) => (some digits, rest)
  | cs => .ok (none, cs)

/-- Takes a minus sign off a text, if there is one. -/
def takeMinus : List Char → Bool × List Char
  | '-' :: cs => (true, cs)
  | cs => (false, cs)

/-- Takes either sign off a text, if there is one; the answer tells whether it is a minus sign. -/
def takeSign : List Char → Bool × List Char
  | '+' :: cs => (false, cs)
  | cs => takeMinus cs

/-- Reads an exponent, if there is one. -/
def readExponent (care : Care) :
    List Char → Except Fault (Option (Bool × List Char) × List Char)
  | [] => .ok (none, [])
  | c :: cs =>
    if c = 'e' ∨ c = 'E' then
      (readDigits care (takeSign cs).2).map fun (digits, rest) =>
        (some ((takeSign cs).1, digits), rest)
    else .ok (none, c :: cs)

/-- Reads a number. -/
def readNumeral (care : Care) (cs : List Char) : Except Fault (Numeral × List Char) := do
  let (whole, afterWhole) ← readWhole care (takeMinus cs).2
  let (fraction, afterFraction) ← readFraction care afterWhole
  let (exponent, rest) ← readExponent care afterFraction
  return (⟨(takeMinus cs).1, whole, fraction, exponent⟩, rest)

/-! ### What a number stands for -/

/-- A number: a whole one, or a floating point one with its sign. -/
inductive Number
  | whole (n : Int)
  | floating (negative : Bool) (magnitude : Binary64)
deriving DecidableEq, Repr

/-- The greatest number of 64 bits. -/
def maxWord : Nat := 0xFFFFFFFFFFFFFFFF

/-- The value of a decimal digit. -/
def digitValue (c : Char) : Nat := c.toNat - 48

/-- Appends digits to a number as long as it fits in 64 bits; the digits from the first that does
not fit on are left over. -/
def gather (n : Nat) : List Char → Nat × List Char
  | [] => (n, [])
  | c :: cs =>
    if 10 * n + digitValue c ≤ maxWord then gather (10 * n + digitValue c) cs else (n, c :: cs)

/-- The value of digits. -/
def digitsValue (cs : List Char) : Nat :=
  cs.foldl (fun n c => 10 * n + digitValue c) 0

/-- The power of ten of an exponent. -/
def exponentValue : Option (Bool × List Char) → Int
  | none => 0
  | some (true, digits) => -(digitsValue digits : Int)
  | some (false, digits) => digitsValue digits

namespace Numeral

/-- The number as a floating point one.  As many digits as fit in 64 bits are used. -/
def floating? (n : Numeral) : Option Number :=
  let (head, excess) := gather 0 n.whole
  let fraction := n.fraction.getD []
  let (digits, unused) := gather head fraction
  let power := (excess.length : Int) - (fraction.length - unused.length : Nat)
  ((Binary64.nearest? digits 1).bind (·.scale? (power + exponentValue n.exponent))).map
    (.floating n.negative)

/-- The number that is written.  Without point and exponent it is a whole one, if it fits in 64
bits, with a sign if it has one; minus zero is no whole number. -/
def number? (n : Numeral) : Option Number :=
  let (value, excess) := gather 0 n.whole
  if n.fraction.isNone ∧ n.exponent.isNone ∧ excess = [] then
    if !n.negative then some (.whole value)
    else if 0 < value ∧ value ≤ 0x8000000000000000 then some (.whole (-value))
    else n.floating?
  else n.floating?

end Numeral

/-- The text of a number in a message. -/
def Number.render : Number → List Char
  | .whole n => (toString n).toList
  | .floating negative x =>
    (if negative then ['-'] else []) ++ x.shortest.render messageFormat

/-! ### Lengths -/

theorem readDigits_length {care : Care} {cs digits rest : List Char}
    (h : readDigits care cs = .ok (digits, rest)) : rest.length < cs.length := by
  unfold readDigits at h
  split at h
  · exact nomatch h
  · rename_i hne
    simp only [Except.ok.injEq, Prod.mk.injEq] at h
    obtain ⟨_, rfl⟩ := h
    have hsplit : (cs.takeWhile Char.isDigit).length + (cs.dropWhile Char.isDigit).length =
        cs.length := by
      rw [← List.length_append, List.takeWhile_append_dropWhile]
    have hpos : 0 < (cs.takeWhile Char.isDigit).length := List.length_pos_iff.2 hne
    omega

theorem takeMinus_length (cs : List Char) : (takeMinus cs).2.length ≤ cs.length := by
  unfold takeMinus
  split <;> simp

theorem takeSign_length (cs : List Char) : (takeSign cs).2.length ≤ cs.length := by
  unfold takeSign
  split
  · simp
  · exact takeMinus_length cs

theorem readWhole_length {care : Care} {cs digits rest : List Char}
    (h : readWhole care cs = .ok (digits, rest)) : rest.length < cs.length := by
  obtain ⟨⟨d, r⟩, hd, h⟩ := bind_eq_ok h
  dsimp only at h
  split at h
  · exact nomatch h
  · obtain ⟨_, rfl⟩ := Prod.mk.inj (Except.ok.inj h)
    exact readDigits_length hd

theorem readFraction_length {care : Care} {cs rest : List Char} {fraction : Option (List Char)}
    (h : readFraction care cs = .ok (fraction, rest)) : rest.length ≤ cs.length := by
  unfold readFraction at h
  split at h
  · obtain ⟨p, hp, h⟩ := map_eq_ok h
    have hlt : p.2.length < _ := readDigits_length hp
    obtain ⟨_, rfl⟩ := Prod.mk.inj h
    rw [List.length_cons]
    omega
  · obtain ⟨_, rfl⟩ := Prod.mk.inj (Except.ok.inj h)
    exact Nat.le_refl _

theorem readExponent_length {care : Care} {cs rest : List Char}
    {exponent : Option (Bool × List Char)} (h : readExponent care cs = .ok (exponent, rest)) :
    rest.length ≤ cs.length := by
  cases cs with
  | nil =>
    obtain ⟨_, rfl⟩ := Prod.mk.inj (Except.ok.inj h)
    exact Nat.le_refl _
  | cons c cs =>
    rw [readExponent] at h
    split at h
    · obtain ⟨p, hp, h⟩ := map_eq_ok h
      have hlt : p.2.length < _ := readDigits_length hp
      have hle := takeSign_length cs
      obtain ⟨_, rfl⟩ := Prod.mk.inj h
      rw [List.length_cons]
      show p.2.length ≤ cs.length + 1
      omega
    · obtain ⟨_, rfl⟩ := Prod.mk.inj (Except.ok.inj h)
      exact Nat.le_refl _

theorem readNumeral_length {care : Care} {cs rest : List Char} {n : Numeral}
    (h : readNumeral care cs = .ok (n, rest)) : rest.length < cs.length := by
  have h0 := takeMinus_length cs
  obtain ⟨⟨whole, a⟩, hw, h⟩ := bind_eq_ok h
  obtain ⟨⟨fraction, b⟩, hf, h⟩ := bind_eq_ok h
  obtain ⟨⟨exponent, d⟩, he, h⟩ := bind_eq_ok h
  obtain ⟨_, rfl⟩ := Prod.mk.inj (Except.ok.inj h)
  have h1 := readWhole_length hw
  have h2 := readFraction_length hf
  have h3 := readExponent_length he
  show d.length < cs.length
  omega

end CallHarvest.Json
