import GzLang.Decimal.Shortest

/-!
# Instants and their texts

An instant is a number of microseconds since the start of 1970, in UTC. Its text has the date, the
time and, unless it is zero, the fraction of the second in six digits; instants of one length of
text are ordered as their texts are.
-/

namespace GzLang

abbrev Instant := Int

structure Date where
  year : Int
  month : Nat
  day : Nat
  deriving DecidableEq, Repr

namespace Calendar

/-- The date a number of days after the start of 1970. The year is taken to start in March, so that
the leap day is its last. -/
def dateOf (days : Int) : Date :=
  let z := days + 719468
  let era := z.fdiv 146097
  let doe := z - era * 146097
  let yoe := (doe - doe / 1460 + doe / 36524 - doe / 146096) / 365
  let doy := doe - (365 * yoe + yoe / 4 - yoe / 100)
  let mp := (5 * doy + 2) / 153
  let day := doy - (153 * mp + 2) / 5 + 1
  let month := if mp < 10 then mp + 3 else mp - 9
  let year := yoe + era * 400 + (if month ≤ 2 then 1 else 0)
  ⟨year, month.toNat, day.toNat⟩

def daysOf (d : Date) : Int :=
  let y := if d.month ≤ 2 then d.year - 1 else d.year
  let era := y.fdiv 400
  let yoe := y - era * 400
  let mp : Int := if d.month > 2 then (d.month : Int) - 3 else (d.month : Int) + 9
  let doy := (153 * mp + 2) / 5 + d.day - 1
  let doe := yoe * 365 + yoe / 4 - yoe / 100 + doy
  era * 146097 + doe - 719468

def dayLength : Int := 86400000000

def date (t : Instant) : Date := dateOf (t.fdiv dayLength)

def timeOfDay (t : Instant) : Nat := (t - t.fdiv dayLength * dayLength).toNat

open Decimal in
def isoText (t : Instant) : String :=
  let d := date t
  let micros := timeOfDay t
  let seconds := micros / 1000000
  let fraction := micros % 1000000
  padded 4 d.year.toNat ++ "-" ++ padded 2 d.month ++ "-" ++ padded 2 d.day ++ "T" ++
    padded 2 (seconds / 3600) ++ ":" ++ padded 2 (seconds / 60 % 60) ++ ":" ++
    padded 2 (seconds % 60) ++ (if fraction = 0 then "" else "." ++ padded 6 fraction)

open Decimal in
def stampText (t : Instant) : String :=
  let d := date t
  let seconds := timeOfDay t / 1000000
  padded 4 d.year.toNat ++ padded 2 d.month ++ padded 2 d.day ++ "_" ++
    padded 2 (seconds / 3600) ++ padded 2 (seconds / 60 % 60) ++ padded 2 (seconds % 60)

/-- The integer nearest to a double, ties to even. -/
def nearestInt (x : Float) : Int :=
  match Decimal.decode x with
  | .finite negative m q =>
    let f := Decimal.twoScaled m q
    let n : Int := Decimal.roundDiv f.1 f.2
    if negative then -n else n
  | _ => 0

def wholePart (x : Float) : Float := if x < 0 then x.ceil else x.floor

def ofSeconds (x : Float) : Instant :=
  let whole := wholePart x
  nearestInt whole * 1000000 + nearestInt ((x - whole) * 1000000)

open Decimal in
def dateText (t : Instant) : String :=
  let d := date t
  toString d.year ++ "-" ++ padded 2 d.month ++ "-" ++ padded 2 d.day

open Decimal in
def secondText (t : Instant) : String :=
  let seconds := timeOfDay t / 1000000
  dateText t ++ " " ++ padded 2 (seconds / 3600) ++ ":" ++ padded 2 (seconds / 60 % 60) ++ ":" ++
    padded 2 (seconds % 60)

/-! ### Reading -/

/-- A number of exactly the given number of ASCII digits at the front of a text. -/
def digits? (n : Nat) (s : List Char) : Option (Nat × List Char) :=
  let front := s.take n
  if front.length = n && front.all Char.isDigit then
    some (front.foldl (fun m c => 10 * m + (c.toNat - 48)) 0, s.drop n)
  else none

def monthLength (year month : Nat) : Nat :=
  if month = 2 then (if year % 4 = 0 ∧ (year % 100 ≠ 0 ∨ year % 400 = 0) then 29 else 28)
  else if month = 4 ∨ month = 6 ∨ month = 9 ∨ month = 11 then 30
  else 31

def readDate? (s : List Char) : Option (Date × List Char) := do
  let (y, s) ← digits? 4 s
  let dashed := s.head? = some '-'
  let (m, s) ← digits? 2 (if dashed then s.drop 1 else s)
  if dashed && s.head? ≠ some '-' then none
  else
    let (d, s) ← digits? 2 (if dashed then s.drop 1 else s)
    if 1 ≤ y ∧ 1 ≤ m ∧ m ≤ 12 ∧ 1 ≤ d ∧ d ≤ monthLength y m then some (⟨y, m, d⟩, s) else none

/-- Microseconds from the digits of a fraction; digits behind the sixth do not count. -/
def fraction (ds : List Char) : Nat :=
  ((ds ++ List.replicate 6 '0').take 6).foldl (fun m c => 10 * m + (c.toNat - 48)) 0

/-- The microseconds of a time of day that is the whole of a text; parts may be left out at the
end. -/
def readTime? (s : List Char) : Option Nat := do
  let (h, s) ← digits? 2 s
  if h ≥ 24 then none
  else
    match s with
    | [] => some (h * 3600000000)
    | s =>
      let colon := s.head? = some ':'
      let (m, s) ← digits? 2 (if colon then s.drop 1 else s)
      if m ≥ 60 then none
      else
        let minutes := (h * 60 + m) * 60000000
        match s with
        | [] => some minutes
        | s =>
          if (s.head? = some ':') != colon then none
          else
            let (sec, s) ← digits? 2 (if colon then s.drop 1 else s)
            if sec ≥ 60 then none
            else
              let seconds := minutes + sec * 1000000
              match s with
              | [] => some seconds
              | c :: ds =>
                if (c = '.' ∨ c = ',') ∧ ¬ ds.isEmpty ∧ ds.all Char.isDigit then
                  some (seconds + fraction ds)
                else none

/-- A time of day with its offset from UTC, in microseconds. -/
def readZoned? (s : List Char) : Option (Nat × Int) :=
  let isZone c := c = '+' || c = '-' || c = 'Z'
  let time := s.takeWhile fun c => !isZone c
  match s.dropWhile fun c => !isZone c with
  | [] => (readTime? time).map (·, 0)
  | ['Z'] => (readTime? time).map (·, 0)
  | sign :: offset =>
    match readTime? time, readTime? offset with
    | some t, some o => some (t, if sign = '-' then -(o : Int) else o)
    | _, _ => none

def ofIsoText? (s : String) : Option Instant := do
  let (d, rest) ← readDate? s.toList
  let start := daysOf d * dayLength
  match rest with
  | [] => some start
  | _ :: time =>
    let (t, offset) ← readZoned? time
    return start + t - offset

def toSeconds (t : Instant) : Float :=
  let seconds := t.fdiv 1000000
  Decimal.ofInt seconds + Decimal.ofInt (t - seconds * 1000000) / 1000000

end Calendar

end GzLang
