import CallHarvest.Decimal.Binary64

/-!
# The shortest decimal of a number

A magnitude is written with the fewest digits that still are nearer to it than to any other
magnitude.  Of several decimals with so few digits the nearest one is taken.

* `Decimal` — digits and the power of ten of the last of them.
* `Decimal.trim` — the same number with no zero as its last digit.
* `Binary64.shortest` — the shortest decimal of a magnitude.
* `Decimal.render` — the text of a decimal, positional or with an exponent.
-/

namespace CallHarvest

/-- The number `digits * 10 ^ exponent`. -/
structure Decimal where
  digits : Nat
  exponent : Int
deriving DecidableEq, Repr

/-- The same number without zeros at the end of its digits. -/
def Decimal.trim (d : Decimal) : Decimal :=
  if d.digits ≠ 0 ∧ d.digits % 10 = 0 then trim ⟨d.digits / 10, d.exponent + 1⟩ else d
termination_by d.digits
decreasing_by
  show d.digits / 10 < d.digits
  omega

/-! ### Finding the decimal -/

namespace Binary64

/-- The numbers of quarters of a unit in the last place at which the decimals of a magnitude begin
and end. -/
def bounds (x : Binary64) : Nat × Nat :=
  let narrow := x.mantissa = Nat.pow 2 (precision - 1) ∧ minExponent < x.exponent
  (4 * x.mantissa - (if narrow then 1 else 2), 4 * x.mantissa + 2)

/-- The number of digits of a fraction before the point; at most zero for one that is less than
one. -/
def decimalSize (num den : Nat) : Int :=
  if den ≤ num then (Nat.toDigits 10 (num / den)).length
  else 1 - ((((List.range 400).find? fun j => den ≤ num * Nat.pow 10 j).getD 0 : Nat) : Int)

/-- The decimal for a magnitude among the multiples of a power of ten, if there is one: one of the
two neighbours, if it lies within the bounds, which belong to an even mantissa. -/
def decimalAt? (x : Binary64) (k : Int) : Option Decimal :=
  let a := Nat.pow 2 (x.exponent - 2).toNat * Nat.pow 10 (-k).toNat
  let b := Nat.pow 2 (2 - x.exponent).toNat * Nat.pow 10 k.toNat
  let (low, high) := x.bounds
  let value := 4 * x.mantissa * a
  let isEven := x.mantissa % 2 = 0
  let within := fun (n : Nat) =>
    if isEven then low * a ≤ n * b ∧ n * b ≤ high * a else low * a < n * b ∧ n * b < high * a
  let down := value / b
  let up := down + 1
  let upIsNearer := up * b - value < value - down * b ∨
    (up * b - value = value - down * b ∧ up % 2 = 0)
  if within up ∧ (¬ within down ∨ upIsNearer) then some ⟨up, k⟩
  else if within down then some ⟨down, k⟩
  else none

/-- The shortest decimal of a magnitude. -/
def shortest (x : Binary64) : Decimal :=
  let size := decimalSize x.num x.den
  (((List.range 17).findSome? fun n => x.decimalAt? (size - (n + 1 : Nat))).getD ⟨0, 0⟩).trim

end Binary64

/-! ### Writing it -/

/-- A number of zeros. -/
def zeros (n : Nat) : List Char := List.replicate n '0'

/-- Where a decimal is written with an exponent: if the point is more than so many places after
the first digit, or so many places before it. -/
structure DecimalFormat where
  most : Int
  least : Int

/-- Numbers in messages have an exponent from ten to the sixteenth on, and below a hundred
thousandth. -/
def messageFormat : DecimalFormat := ⟨16, -5⟩

/-- The text of an exponent, which always has a sign. -/
def signed (exponent : Int) : List Char :=
  (if exponent < 0 then '-' else '+') :: Nat.toDigits 10 exponent.natAbs

/-- The text of a decimal.  Positional notation always has a point with a digit after it. -/
def Decimal.render (f : DecimalFormat) (d : Decimal) : List Char :=
  let digits := Nat.toDigits 10 d.digits
  let point : Int := digits.length + d.exponent
  if d.digits = 0 then "0.0".toList
  else if 0 ≤ d.exponent ∧ point ≤ f.most then
    digits ++ zeros d.exponent.toNat ++ ".0".toList
  else if 0 < point ∧ point ≤ f.most then
    digits.take point.toNat ++ '.' :: digits.drop point.toNat
  else if f.least < point ∧ point ≤ 0 then "0.".toList ++ zeros (-point).toNat ++ digits
  else
    digits.take 1 ++ (if digits.length = 1 then [] else '.' :: digits.drop 1) ++
      'e' :: signed (point - 1)

end CallHarvest
