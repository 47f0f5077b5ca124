import KubeSchema.Text.Numeral
import KubeSchema.Number.Binary64

/-!
# Doubles

A number of a JSON document that has a fraction or an exponent is a binary64 number. It is held as the decimal of
fewest digits that denotes it, which is also how it is written, so that two doubles are the same number exactly if
they are written alike. Reading a decimal (`Double.ofDecimal`) rounds it.

* `Double.render`: positional notation for exponents from -4 to 15, with a fraction at least `.0`; else one digit
  before the point and an exponent of a sign and two digits or more.
-/

namespace KubeSchema

/-- A binary64 number. The finite ones are `± digits * 10 ^ exponent`, in the fewest digits. -/
inductive Double
  | nan
  | infinite (negative : Bool)
  | finite (negative : Bool) (digits : Nat) (exponent : Int)
  deriving DecidableEq, Repr

namespace Double

/-- The double closest to `± digits * 10 ^ exponent`; infinite beyond the largest finite one. -/
def ofDecimal (negative : Bool) (digits : Nat) (exponent : Int) : Double :=
  let size : Int := (Numeral.decimal digits).length + exponent
  if digits = 0 ∨ size < -330 then .finite negative 0 0
  else if 310 < size then .infinite negative
  else
    match Binary64.nearestDecimal ⟨digits, exponent⟩ with
    | none => .infinite negative
    | some v =>
      if v.significand = 0 then .finite negative 0 0
      else
        let x := Binary64.shortest v
        .finite negative x.coefficient x.exponent

/-- A double that rounding leaves as it is, as are all that were read. -/
def Canonical : Double → Prop
  | .finite negative digits exponent => ofDecimal negative digits exponent = .finite negative digits exponent
  | _ => True

instance : (d : Double) → Decidable d.Canonical
  | .nan => isTrue trivial
  | .infinite _ => isTrue trivial
  | .finite _ _ _ => inferInstanceAs (Decidable (_ = _))

/-- The exponent part: a sign and at least two digits. -/
def exponentPart (e : Int) : List Char :=
  let ds := Numeral.decimal e.natAbs
  'e' :: (if e < 0 then '-' else '+') :: (if ds.length < 2 then '0' :: ds else ds)

/-- `digits * 10 ^ exponent` in positional notation. -/
def positional (ds : List Char) (exponent : Int) : List Char :=
  let point : Int := ds.length + exponent
  if 0 ≤ exponent then ds ++ List.replicate exponent.toNat '0' ++ ['.', '0']
  else if 0 < point then ds.take point.toNat ++ '.' :: ds.drop point.toNat
  else '0' :: '.' :: List.replicate (-point).toNat '0' ++ ds

/-- One digit, the others behind a point, and the exponent. -/
def scientific (ds : List Char) (exponent : Int) : List Char :=
  let head := ds.take 1
  let tail := ds.drop 1
  head ++ (if tail.isEmpty then [] else '.' :: tail) ++ exponentPart (ds.length + exponent - 1)

/-- A finite double as it is written. -/
def renderFinite (negative : Bool) (digits : Nat) (exponent : Int) : List Char :=
  let ds := Numeral.decimal digits
  let e : Int := ds.length + exponent - 1
  let body := if -4 ≤ e ∧ e < 16 then positional ds exponent else scientific ds exponent
  if negative then '-' :: body else body

/-- How the numbers that have no digits are written. -/
structure SpecialNames where
  nan : String
  infinity : String

/-- A double as it is written. -/
def render (names : SpecialNames) : Double → List Char
  | .nan => names.nan.toList
  | .infinite false => names.infinity.toList
  | .infinite true => '-' :: names.infinity.toList
  | .finite negative digits exponent => renderFinite negative digits exponent

example : (renderFinite false 1 15, renderFinite false 1 16) = ("1000000000000000.0".toList, "1e+16".toList) := by
  decide +kernel

example : (renderFinite true 25 (-6), renderFinite false 25 (-7)) = ("-2.5e-05".toList, "2.5e-06".toList) := by
  decide +kernel

/-- The least positive double is written with one digit. -/
example : ofDecimal false 3 (-324) = .finite false 5 (-324) := by decide +kernel

end Double

end KubeSchema
