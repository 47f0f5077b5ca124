import KubeSchema.Json.Basic

/-!
# Reading numbers

A number has a whole part without leading zeros, after an optional minus sign; a point with digits and an exponent
may follow. Without those two it is an integer, else a double.

* `Json.readNumber`: the longest number at the front of a text, with what is left of it.
-/

namespace KubeSchema.Json

/-- The digits at the front, and the rest. -/
def spanDigits (cs : List Char) : List Char × List Char := (cs.takeWhile Char.isDigit, cs.dropWhile Char.isDigit)

/-- A minus sign, if there is one. -/
def spanMinus : List Char → Bool × List Char
  | '-' :: r => (true, r)
  | cs => (false, cs)

/-- The whole part: a single zero, or digits that start with another one. -/
def spanWhole : List Char → List Char × List Char
  | '0' :: r => (['0'], r)
  | cs => spanDigits cs

/-- The digits behind a point; without digits the point is left. -/
def spanFraction : List Char → List Char × List Char
  | '.' :: r => if (spanDigits r).1.isEmpty then ([], '.' :: r) else spanDigits r
  | cs => ([], cs)

/-- The sign of an exponent; true for minus. -/
def spanSign : List Char → Bool × List Char
  | '+' :: r => (false, r)
  | cs => spanMinus cs

/-- The exponent; without digits its letter is left. -/
def spanExponent : List Char → Option Int × List Char
  | [] => (none, [])
  | c :: r =>
    if c = 'e' ∨ c = 'E' then
      let (negative, digits) := spanSign r
      let (ds, rest) := spanDigits digits
      if ds.isEmpty then (none, c :: r)
      else (some (if negative then -(Numeral.ofDecimal ds : Int) else Numeral.ofDecimal ds), rest)
    else (none, c :: r)

/-- The number at the front of a text, and the rest. -/
def readNumber (cs : List Char) : Option (Json × List Char) :=
  let (negative, cs) := spanMinus cs
  let (whole, cs) := spanWhole cs
  let (fraction, cs) := spanFraction cs
  let (exponent, cs) := spanExponent cs
  if whole.isEmpty then none
  else if fraction.isEmpty ∧ exponent = none then
    let n : Int := Numeral.ofDecimal whole
    some (.int (if negative then -n else n), cs)
  else
    let digits := Numeral.ofDecimal (whole ++ fraction)
    some (.double (.ofDecimal negative digits (exponent.getD 0 - fraction.length)), cs)

end KubeSchema.Json
