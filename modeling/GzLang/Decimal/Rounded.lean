import GzLang.Decimal.Shortest

/-!
# Decimal texts with a fixed number of places

A double written with a fixed number of digits after the point, either positionally
(`fixedText`) or with an exponent (`scientificText`). The exact binary value is rounded, ties to
even.
-/

namespace GzLang.Decimal

def signed (negative : Bool) (s : String) : String :=
  if negative then "-" ++ s else s

/-- A natural number of units of `10^-places`, with the point in its place. -/
def pointed (places units : Nat) : String :=
  let whole := toString (units / Nat.pow 10 places)
  if places == 0 then whole else whole ++ "." ++ padded places (units % Nat.pow 10 places)

def fixedText (places : Nat) (x : Float) : String :=
  match decode x with
  | .nan => "nan"
  | .infinite negative => signed negative "inf"
  | .finite negative m q =>
    let f := twoScaled m q
    signed negative (pointed places (roundDiv (f.1 * Nat.pow 10 places) f.2))

/-- A double with one digit before and `places` digits after the point, and an exponent. -/
def scientificText (places : Nat) (x : Float) : String :=
  match decode x with
  | .nan => "nan"
  | .infinite negative => signed negative "inf"
  | .finite negative m q =>
    if m == 0 then signed negative (pointed places 0 ++ exponentText 0)
    else
      let f := twoScaled m q
      let top := leadingPower f
      let unit : Int := top - places
      let digits :=
        if unit < 0 then roundDiv (f.1 * Nat.pow 10 (-unit).toNat) f.2
        else roundDiv f.1 (f.2 * Nat.pow 10 unit.toNat)
      let carried := digits == Nat.pow 10 (places + 1)
      let digits := if carried then Nat.pow 10 places else digits
      let top := if carried then top + 1 else top
      signed negative (pointed places digits ++ exponentText top)

end GzLang.Decimal
