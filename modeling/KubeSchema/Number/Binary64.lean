/-!
# Rounding to binary64

A positive finite binary64 number is a significand times a power of two. `nearest` rounds a quotient of natural
numbers to the closest one, a tie going to the even significand, and `shortest` finds the decimal with the fewest
digits that rounds to a given number, the closest such if there are several.

* `nearestDecimal_of_onGrid`: a decimal that is found on a grid of powers of ten rounds back to the number.
-/

namespace KubeSchema.Binary64

/-- The number `significand * 2 ^ exponent`. -/
structure Magnitude where
  significand : Nat
  exponent : Int
  deriving DecidableEq, Repr

/-- The number `coefficient * 10 ^ exponent`. -/
structure Scaled where
  coefficient : Nat
  exponent : Int
  deriving DecidableEq, Repr

/-- A quotient to the nearest natural number, a half to the even neighbour. -/
def roundDiv (num den : Nat) : Nat :=
  let below := num / den
  let rest := num % den
  if 2 * rest < den ∨ (2 * rest = den ∧ below % 2 = 0) then below else below + 1

/-- `num / den * base ^ exponent` as numerator and denominator. -/
def scaleBy (base num den : Nat) (exponent : Int) : Nat × Nat :=
  if 0 ≤ exponent then (num * base.pow exponent.toNat, den) else (num, den * base.pow (-exponent).toNat)

/-- The exponent `e` with `2 ^ e ≤ num / den < 2 ^ (e + 1)`. -/
def floorLog2 (num den : Nat) : Int :=
  let guess : Int := (Nat.log2 num : Int) - Nat.log2 den
  let (n, d) := scaleBy 2 num den (-guess)
  if d ≤ n then guess else guess - 1

/-- The closest number to a quotient; `none` if that exceeds the largest finite one. Zero has the least exponent. -/
def nearest (num den : Nat) : Option Magnitude :=
  let exponent := if num = 0 then -1074 else max (floorLog2 num den - 52) (-1074)
  let (n, d) := scaleBy 2 num den (-exponent)
  let significand := roundDiv n d
  let r : Magnitude := if significand = Nat.pow 2 53 then ⟨Nat.pow 2 52, exponent + 1⟩ else ⟨significand, exponent⟩
  if r.exponent ≤ 971 then some r else none

/-- The closest number to a decimal. -/
def nearestDecimal (x : Scaled) : Option Magnitude :=
  let (n, d) := scaleBy 10 x.coefficient 1 x.exponent
  nearest n d

/-- The two multiples of `10 ^ grid` around a number: the one that rounds back to it, the closer one if both do. -/
def onGrid (v : Magnitude) (grid : Int) : Option Scaled :=
  let (n, d) := scaleBy 2 v.significand 1 v.exponent
  let (n, d) := scaleBy 10 n d (-grid)
  let below : Scaled := ⟨n / d, grid⟩
  let above : Scaled := ⟨n / d + 1, grid⟩
  let candidates := if roundDiv n d = n / d then [below, above] else [above, below]
  candidates.find? (fun x => nearestDecimal x = some v)

/-- A grid of powers of ten that is coarser than the number. -/
def coarseGrid (v : Magnitude) : Int := (Nat.log2 v.significand + v.exponent + 1) * 30103 / 100000 + 2

/-- Every digit of a number. -/
def exactDecimal (v : Magnitude) : Scaled :=
  if 0 ≤ v.exponent then ⟨v.significand * Nat.pow 2 v.exponent.toNat, 0⟩
  else ⟨v.significand * Nat.pow 5 (-v.exponent).toNat, v.exponent⟩

/-- The decimal of fewest digits that rounds to a number: the first hit on ever finer grids. -/
def shortest (v : Magnitude) : Scaled :=
  ((List.range 24).findSome? (fun (i : Nat) => onGrid v (coarseGrid v - i))).getD (exactDecimal v)

theorem nearestDecimal_of_onGrid {v : Magnitude} {grid : Int} {x : Scaled} (h : onGrid v grid = some x) :
    nearestDecimal x = some v := by
  simpa using List.find?_some h

end KubeSchema.Binary64
