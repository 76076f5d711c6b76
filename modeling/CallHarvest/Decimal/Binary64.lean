/-!
# Numbers of 64 bits

The magnitude of a floating point number of 64 bits is a whole number of 53 bits times a power of
two.  This file computes with such magnitudes exactly; what does not fit is rounded to the nearest
one, and of two that are as near to the one with an even mantissa.

* `Binary64` — a magnitude.
* `Binary64.nearest?` — the magnitude nearest to a fraction, unless it is out of range.
* `Binary64.times?`, `Binary64.per` — products and quotients.
* `Binary64.scale?` — a whole number times a power of ten, in steps of such operations.
-/

namespace CallHarvest

/-- The magnitude `mantissa * 2 ^ exponent`. -/
structure Binary64 where
  mantissa : Nat
  exponent : Int
deriving DecidableEq, Repr

/-- The whole number nearest to a fraction, and of two that are as near the even one. -/
def roundHalfEven (num den : Nat) : Nat :=
  let q := num / den
  let twice := 2 * (num % den)
  if den < twice ∨ (twice = den ∧ q % 2 = 1) then q + 1 else q

namespace Binary64

/-- The least exponent. -/
def minExponent : Int := -1074

/-- The greatest exponent. -/
def maxExponent : Int := 971

/-- The number of bits of a mantissa. -/
def precision : Nat := 53

/-- The magnitude zero. -/
def zero : Binary64 := ⟨0, minExponent⟩

/-- The numerator of a magnitude as a fraction. -/
def num (x : Binary64) : Nat := x.mantissa * Nat.pow 2 x.exponent.toNat

/-- The denominator of a magnitude as a fraction. -/
def den (x : Binary64) : Nat := Nat.pow 2 (-x.exponent).toNat

/-- The exponent with which the mantissa of a fraction has its number of bits, or the least one. -/
def exponentOf (num den : Nat) : Int :=
  let e : Int := (num.log2 : Int) - den.log2 - (precision - 1 : Nat)
  let fits :=
    Nat.pow 2 (precision - 1) * den * Nat.pow 2 e.toNat ≤ num * Nat.pow 2 (-e).toNat
  max minExponent (if fits then e else e - 1)

/-- The magnitude nearest to a fraction, unless it is too great. -/
def nearest? (num den : Nat) : Option Binary64 :=
  if num = 0 then some zero
  else
    let e := exponentOf num den
    let m := roundHalfEven (num * Nat.pow 2 (-e).toNat) (den * Nat.pow 2 e.toNat)
    let x : Binary64 := if m = Nat.pow 2 precision then ⟨m / 2, e + 1⟩ else ⟨m, e⟩
    if maxExponent < x.exponent then none else some x

/-- The product of two magnitudes, unless it is too great. -/
def times? (x y : Binary64) : Option Binary64 :=
  nearest? (x.num * y.num) (x.den * y.den)

/-- The quotient of a magnitude and one that is not less than one. -/
def per (x y : Binary64) : Binary64 :=
  (nearest? (x.num * y.den) (x.den * y.num)).getD zero

/-- The magnitude nearest to a power of ten. -/
def powerOfTen (k : Nat) : Binary64 :=
  (nearest? (Nat.pow 10 k) 1).getD zero

/-- The greatest power of ten that is in range. -/
def maxPower : Nat := 308

/-- A magnitude times a power of ten, unless it is too great.  A power that is out of range is
taken in steps, which is possible only downwards. -/
def scale? (x : Binary64) (k : Int) : Option Binary64 :=
  if x.mantissa = 0 then some x
  else if 0 ≤ k then
    if k ≤ maxPower then times? x (powerOfTen k.toNat) else none
  else if -k ≤ maxPower then some (per x (powerOfTen (-k).toNat))
  else scale? (per x (powerOfTen maxPower)) (k + maxPower)
termination_by (-k).toNat
decreasing_by
  simp only [maxPower] at *
  omega

end Binary64

end CallHarvest
