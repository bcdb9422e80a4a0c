import GzLang.Decimal.Binary64

/-!
# The shortest decimal text of a double

Of all decimals that read back as the same double the text shows one with the fewest digits, and
of those the nearest. Exponents from -4 to 15 are written positionally, all others with a
signed exponent of at least two digits; a positional text keeps a digit after the point.
-/

namespace GzLang.Decimal

/-- Digits and the power of ten of the first: `d₁.d₂d₃… · 10^exponent`. -/
structure Scientific where
  digits : Nat
  count : Nat
  exponent : Int

/-- `n · 10^k` as a fraction. -/
def tenScaled (n : Nat) (k : Int) : Nat × Nat :=
  if k < 0 then (n, Nat.pow 10 (-k).toNat) else (n * Nat.pow 10 k.toNat, 1)

/-- `m · 2^q` as a fraction. -/
def twoScaled (m : Nat) (q : Int) : Nat × Nat :=
  if q < 0 then (m, Nat.pow 2 (-q).toNat) else (m * Nat.pow 2 q.toNat, 1)

def fracLt (a b : Nat × Nat) : Bool := a.1 * b.2 < b.1 * a.2

def fracLe (a b : Nat × Nat) : Bool := a.1 * b.2 ≤ b.1 * a.2

def digitCount (n : Nat) : Nat := (Nat.toDigits 10 n).length

def leadingPower (f : Nat × Nat) : Int :=
  let guess : Int := (digitCount f.1 : Int) - (digitCount f.2 : Int)
  if fracLe (tenScaled 1 guess) f then guess else guess - 1

/-- The reals that round to a double: the ends belong to it when the mantissa is even. -/
structure Interval where
  low : Nat × Nat
  high : Nat × Nat
  closed : Bool

def Interval.contains (i : Interval) (f : Nat × Nat) : Bool :=
  if i.closed then fracLe i.low f && fracLe f i.high else fracLt i.low f && fracLt f i.high

/-- The interval of the reals that round to `m · 2^q`. -/
def roundingInterval (m : Nat) (q : Int) : Interval :=
  let atBinade := m == Nat.pow 2 52 && q > -1074
  { low := if atBinade then twoScaled (4 * m - 1) (q - 2) else twoScaled (2 * m - 1) (q - 1)
    high := twoScaled (2 * m + 1) (q - 1)
    closed := m % 2 == 0 }

/-- The decimal with `count` digits nearest to the value among those of its two neighbours on
that grid that lie in the interval. -/
def onGrid? (value : Nat × Nat) (i : Interval) (top : Int) (count : Nat) : Option Scientific :=
  let unit : Int := top - count + 1
  -- value / 10^unit
  let n := if unit < 0 then value.1 * Nat.pow 10 (-unit).toNat else value.1
  let d := if unit < 0 then value.2 else value.2 * Nat.pow 10 unit.toNat
  let lower := n / d
  let nearest := roundDiv n d
  let other := if nearest == lower then lower + 1 else lower
  let pick (k : Nat) : Option Scientific :=
    if k > 0 && i.contains (tenScaled k unit) then
      if k == Nat.pow 10 count then some ⟨Nat.pow 10 (count - 1), count, top + 1⟩
      else some ⟨k, count, top⟩
    else none
  (pick nearest).orElse fun _ => pick other

/-- The shortest decimal of the positive number `m · 2^q`. -/
def shortest (m : Nat) (q : Int) : Scientific :=
  let value := twoScaled m q
  let i := roundingInterval m q
  let top := leadingPower value
  ((List.range 17).findSome? fun k => onGrid? value i top (k + 1)).getD ⟨0, 1, 0⟩

/-- A natural number in decimal, with zeros in front up to a width. -/
def padded (width n : Nat) : String :=
  let ds := Nat.toDigits 10 n
  String.ofList (List.replicate (width - ds.length) '0' ++ ds)

def exponentText (e : Int) : String :=
  (if e < 0 then "e-" else "e+") ++ padded 2 e.natAbs

def mantissaText (digits : List Char) : String :=
  match digits with
  | [] => "0"
  | [d] => String.ofList [d]
  | d :: ds => String.ofList (d :: '.' :: ds)

/-- Digits written positionally, with at least one digit on each side of the point. -/
def positionalText (digits : List Char) (exponent : Int) : String :=
  if exponent < 0 then
    String.ofList ('0' :: '.' :: (List.replicate (-exponent - 1).toNat '0' ++ digits))
  else
    let whole := exponent.toNat + 1
    let front := digits.take whole
    let back := digits.drop whole
    String.ofList (front ++ List.replicate (whole - front.length) '0' ++
      '.' :: (if back.isEmpty then ['0'] else back))

def Scientific.text (s : Scientific) : String :=
  let digits := Nat.toDigits 10 s.digits
  if -4 ≤ s.exponent && s.exponent < 16 then positionalText digits s.exponent
  else mantissaText digits ++ exponentText s.exponent

/-- The shortest text that reads back as the double. -/
def shortestText (x : Float) : String :=
  match decode x with
  | .nan => "nan"
  | .infinite negative => if negative then "-inf" else "inf"
  | .finite negative m q =>
    let body := if m == 0 then "0.0" else (shortest m q).text
    if negative then "-" ++ body else body

end GzLang.Decimal
