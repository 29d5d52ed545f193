/-! # Binary floating-point numbers

Numbers with 53 binary digits, as exact values: `finite s m e` is `m * 2 ^ e` with the sign `s`.
Whatever is not of that form is rounded to the nearest number that is; a number halfway between two
goes to the even one. All arithmetic is on whole numbers, so nothing is hidden from a proof.
-/
namespace RobotCode

/-- The quotient rounded to the nearest whole number, a half to the even one. -/
def roundDiv (num den : Nat) : Nat :=
  let q := num / den
  let r := num % den
  if 2 * r < den ∨ 2 * r = den ∧ q % 2 = 0 then q else q + 1

inductive Binary64 where
  | finite (negative : Bool) (mantissa : Nat) (exponent : Int)
  | infinite (negative : Bool)
  deriving DecidableEq, Repr

namespace Binary64

def zero : Binary64 := .finite false 0 (-1074)

def negate : Binary64 → Binary64
  | .finite s m e => .finite (!s) m e
  | .infinite s => .infinite !s

/-- The fraction `num / den` times `2 ^ k`, as numerator and denominator. -/
def scale (num den : Nat) (k : Int) : Nat × Nat :=
  if 0 ≤ k then (num <<< k.toNat, den) else (num, den <<< (-k).toNat)

/-- The least whole number of 53 binary digits. -/
def leastFull : Nat := 1 <<< 52

/-- The exponent of the last digit that is kept of `num / den`, so that 53 digits remain. -/
def lastExponent (num den : Nat) : Int :=
  let guess : Int := (num.log2 : Int) - den.log2 - 52
  let (a, b) := scale num den (-guess)
  let e := if a < leastFull * b then guess - 1 else guess
  if e < -1074 then -1074 else e

/-- The nearest number to `num / den`. -/
def ofRatio (num den : Nat) : Binary64 :=
  if num = 0 ∨ den = 0 then zero
  else
    let e := lastExponent num den
    let (a, b) := scale num den (-e)
    let m := roundDiv a b
    let (m, e) := if m = 2 * leastFull then (leastFull, e + 1) else (m, e)
    if 971 < e then .infinite false else .finite false m e

/-- The nearest number to `digits * 10 ^ exponent`. Exponents out of all proportion are settled
first, so that no power of ten grows without bound. -/
def ofDecimal (digits : Nat) (exponent : Int) : Binary64 :=
  if digits = 0 then zero
  else if 310 < exponent then .infinite false
  else if exponent < -400 - (digits.log2 : Int) then zero
  else if 0 ≤ exponent then ofRatio (digits * Nat.pow 10 exponent.toNat) 1
  else ofRatio digits (Nat.pow 10 (-exponent).toNat)

/-- Signed numerator, and denominator. -/
def toRatio? : Binary64 → Option (Int × Nat)
  | .finite s m e =>
    let (a, b) := scale m 1 e
    some (if s then -(a : Int) else a, b)
  | .infinite _ => none

/-- Whether the number lies in `0, ..., limit`, the end being left out unless `closed`. -/
def within (limit : Nat) (closed : Bool) (x : Binary64) : Bool :=
  match x.toRatio? with
  | some (a, b) => 0 ≤ a && (if closed then a ≤ limit * b else a < limit * b)
  | none => false

end Binary64
end RobotCode
