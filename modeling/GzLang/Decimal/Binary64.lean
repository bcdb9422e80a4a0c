/-!
# Binary floating-point numbers as exact fractions

A finite double is `± m · 2^q` with natural `m` and integer `q`. `decode` reads this form off the
bits and `ofFraction` gives the double nearest to a quotient of naturals, ties to even. All
text forms of numbers are computed from the exact form.
-/

namespace GzLang.Decimal

inductive Binary64 where
  /-- The number `m · 2^q`, negated if `negative`. -/
  | finite (negative : Bool) (m : Nat) (q : Int)
  | infinite (negative : Bool)
  | nan

def decode (x : Float) : Binary64 :=
  let bits := x.toBits.toNat
  let negative := bits / Nat.pow 2 63 == 1
  let exponent : Nat := bits / Nat.pow 2 52 % Nat.pow 2 11
  let fraction := bits % Nat.pow 2 52
  if exponent == 2047 then
    if fraction == 0 then .infinite negative else .nan
  else if exponent == 0 then .finite negative fraction (-1074)
  else .finite negative (Nat.pow 2 52 + fraction) ((exponent : Int) - 1075)

/-- A quotient with its remainder, rounded to the nearest natural number, ties to even. -/
def halfEven (quotient remainder divisor : Nat) : Nat :=
  if 2 * remainder < divisor then quotient
  else if 2 * remainder > divisor then quotient + 1
  else if quotient % 2 == 0 then quotient else quotient + 1

/-- The natural number nearest to `n / d`, ties to even. -/
def roundDiv (n d : Nat) : Nat :=
  halfEven (n / d) (n % d) d

/-- The double `± m · 2^q` for `m < 2^53` and `-1074 ≤ q`, where `m < 2^52` only if `q = -1074`. -/
def encode (negative : Bool) (m : Nat) (q : Int) : Float :=
  let sign := if negative then Nat.pow 2 63 else 0
  let body := if m < Nat.pow 2 52 then m else (q + 1075).toNat * Nat.pow 2 52 + (m - Nat.pow 2 52)
  Float.ofBits (UInt64.ofNat (sign + body))

/-- `n / d · 2^(-q)` rounded to a natural number, ties to even. -/
def scaledRound (n d : Nat) (q : Int) : Nat :=
  if q < 0 then roundDiv (n * Nat.pow 2 (-q).toNat) d else roundDiv n (d * Nat.pow 2 q.toNat)

/-- The double nearest to `± n / d` for `0 < d`, ties to even; none if it is too large. -/
def ofFraction? (negative : Bool) (n d : Nat) : Option Float :=
  if n == 0 then some (encode negative 0 (-1074))
  else
    -- `2^(e-1) < n / d < 2^(e+1)`
    let e : Int := (Nat.log2 n : Int) - (Nat.log2 d : Int)
    let below := if e < 0 then n * Nat.pow 2 (-e).toNat < d else n < d * Nat.pow 2 e.toNat
    let top := if below then e - 1 else e
    let q := max (top - 52) (-1074)
    let m := scaledRound n d q
    let (m, q) := if m == Nat.pow 2 53 then (Nat.pow 2 52, q + 1) else (m, q)
    if q > 971 then none else some (encode negative m q)

def ofInt? (i : Int) : Option Float :=
  ofFraction? (i < 0) i.natAbs 1

/-- The double nearest to an integer, which is infinite if the integer is too large. -/
def ofInt (i : Int) : Float :=
  (ofInt? i).getD (if i < 0 then -(1.0 / 0.0) else 1.0 / 0.0)

end GzLang.Decimal
