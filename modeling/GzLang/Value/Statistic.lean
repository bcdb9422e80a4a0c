import GzLang.Value.Document

/-!
# Means and medians

The mean and the median of a list of numbers are doubles, marked as statistics.
-/

namespace GzLang.Value

def floats (vs : List Value) : Except Fault (List Float) :=
  vs.mapM fun v =>
    match v.toNumber? with
    | some n => floatOfNumber n
    | none => .error (.operands "+" v.kind v.kind)

def sumInOrder (xs : List Float) : Float :=
  xs.foldl (· + ·) 0

/-- The sum of a short run of doubles: eight lanes side by side, then what is left over. -/
def sumRun (xs : List Float) : Float :=
  if xs.length < 8 then sumInOrder xs
  else
    let whole := xs.length / 8 * 8
    let lane j := sumInOrder (((xs.take whole).zipIdx.filter fun p => p.2 % 8 = j).map Prod.fst)
    let lanes := ((lane 0 + lane 1) + (lane 2 + lane 3)) + ((lane 4 + lane 5) + (lane 6 + lane 7))
    (xs.drop whole).foldl (· + ·) lanes

/-- The longest run that is summed without being halved. -/
def longestRun : Nat := 128

/-- The sum of doubles, by halves, so that rounding errors stay small. -/
def sumFloats (xs : List Float) : Float :=
  if longestRun < xs.length then
    let half := xs.length / 2 / 8 * 8
    sumFloats (xs.take half) + sumFloats (xs.drop half)
  else sumRun xs
termination_by xs.length
decreasing_by all_goals simp only [List.length_take, List.length_drop, longestRun] at *; omega

def mean (vs : List Value) : Except Fault Value := do
  let xs ← floats vs
  return .statistic (sumFloats xs / xs.length.toFloat)

/-- The median of a list of numbers: the one in the middle, or the mean of the two there. -/
def median (vs : List Value) : Except Fault Value := do
  let xs := (← floats vs).mergeSort fun x y => x ≤ y
  let at_ i := (xs[i]?).getD 0
  let h := xs.length / 2
  return .statistic (if xs.length % 2 = 1 then at_ h else (at_ (h - 1) + at_ h) / 2)

def least : List Value → Except Fault Value
  | [] => .error (.raised "min() arg is an empty sequence")
  | v :: vs => vs.foldlM lesser v

def greatest : List Value → Except Fault Value
  | [] => .error (.raised "max() arg is an empty sequence")
  | v :: vs => vs.foldlM greater v

end GzLang.Value
