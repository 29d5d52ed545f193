import RobotCode.Number.Binary64

/-! # Shortest decimal text

A number is written with the fewest digits that read back to it, and among those with the digits
nearest to it. The notation is positional from `0.0001` up to below `10 ^ 16`, always with a
point, and scientific elsewhere.
-/
namespace RobotCode.Binary64

/-- The power of ten of the leading digit of `num / den`. -/
def leadingPower (num den : Nat) : Int :=
  if den ≤ num then ((Nat.toDigits 10 (num / den)).length : Int) - 1
  else -(((List.range 400).find? fun j => den ≤ num * Nat.pow 10 j).getD 400 : Nat)

/-- The number with `n` digits nearest to `num / den` that reads back to `x`: its digits as one
whole number, and the power of ten of the last digit. -/
def withDigits? (x : Binary64) (num den n : Nat) : Option (Nat × Int) :=
  let k := leadingPower num den - (n - 1 : Int)
  let (a, b) :=
    if 0 ≤ k then (num, den * Nat.pow 10 k.toNat) else (num * Nat.pow 10 (-k).toNat, den)
  let near := roundDiv a b
  let far := if near = a / b then near + 1 else a / b
  ([near, far].find? fun d => ofDecimal d k = x).map (·, k)

/-- Digits without closing zeros, and the power of ten of the leading one. -/
def shortestDigits (x : Binary64) (num den : Nat) : List Char × Int :=
  match (List.range 17).findSome? fun n => withDigits? x num den (n + 1) with
  | some (d, k) =>
    let ds := Nat.toDigits 10 d
    ((ds.reverse.dropWhile (· = '0')).reverse, k + ds.length - 1)
  | none => (['0'], 0)

def zeros (n : Nat) : List Char := List.replicate n '0'

/-- Digits set out by the power of ten of the leading one. -/
def layout (ds : List Char) (p : Int) : List Char :=
  if p < -4 ∨ 16 ≤ p then
    let point := match ds with
      | d :: e :: r => d :: '.' :: e :: r
      | ds => ds
    let power := Nat.toDigits 10 p.natAbs
    point ++ 'e' :: (if p < 0 then '-' else '+') :: (zeros (2 - power.length) ++ power)
  else if p < 0 then '0' :: '.' :: (zeros (-p - 1).toNat ++ ds)
  else
    let whole := p.toNat + 1
    let fraction := ds.drop whole
    ds.take whole ++ zeros (whole - ds.length) ++ '.' :: (if fraction = [] then ['0'] else fraction)

def text : Binary64 → String
  | .infinite s => if s then "-inf" else "inf"
  | .finite s m e =>
    let (num, den) := scale m 1 e
    let ds := if m = 0 then ['0', '.', '0'] else
      let (ds, p) := shortestDigits (.finite false m e) num den
      layout ds p
    String.ofList (if s then '-' :: ds else ds)

end RobotCode.Binary64
