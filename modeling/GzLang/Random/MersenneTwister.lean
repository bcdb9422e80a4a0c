/-!
# Pseudo-random numbers

The Mersenne Twister: a state of 624 words, seeded from one word, gives 32 bits at a time. Two
outputs make a uniform double, and normal deviates come in pairs from the polar method.
-/

namespace GzLang.Random

/-- The words of the state and the number of those used up. -/
structure Twister where
  words : Array UInt32
  used : Nat

def size : Nat := 624

def seedWords : Nat → UInt32 → Array UInt32 → Array UInt32
  | 0, _, ws => ws
  | k + 1, previous, ws =>
    let next := (1812433253 : UInt32) * (previous ^^^ (previous >>> 30)) + UInt32.ofNat ws.size
    seedWords k next (ws.push next)

def ofSeed (seed : Nat) : Twister :=
  let first := UInt32.ofNat seed
  ⟨seedWords (size - 1) first #[first], size⟩

def mixAt (ws : Array UInt32) (i : Nat) : Array UInt32 :=
  let y := (ws.getD i 0 &&& 0x80000000) ||| (ws.getD ((i + 1) % size) 0 &&& 0x7fffffff)
  let z := ws.getD ((i + 397) % size) 0 ^^^ (y >>> 1)
  ws.setIfInBounds i (if y &&& 1 = 0 then z else z ^^^ 0x9908b0df)

def renew (ws : Array UInt32) : Array UInt32 :=
  (List.range size).foldl mixAt ws

def temper (y : UInt32) : UInt32 :=
  let y := y ^^^ (y >>> 11)
  let y := y ^^^ ((y <<< 7) &&& 0x9d2c5680)
  let y := y ^^^ ((y <<< 15) &&& 0xefc60000)
  y ^^^ (y >>> 18)

def next (t : Twister) : UInt32 × Twister :=
  let t := if t.used < size then t else ⟨renew t.words, 0⟩
  (temper (t.words.getD t.used 0), { t with used := t.used + 1 })

/-- The next uniform double in the unit interval. -/
def uniform (t : Twister) : Float × Twister :=
  let (a, t) := next t
  let (b, t) := next t
  let n := (a >>> 5).toNat * 67108864 + (b >>> 6).toNat
  (n.toFloat / 9007199254740992.0, t)

/-- The next pair of normal deviates; `fuel` bounds the number of points tried. -/
def normalPair : Nat → Twister → (Float × Float) × Twister
  | 0, t => ((0.0, 0.0), t)
  | fuel + 1, t =>
    let (u, t) := uniform t
    let (v, t) := uniform t
    let x := 2.0 * u - 1.0
    let y := 2.0 * v - 1.0
    let r := x * x + y * y
    if r < 1.0 && r > 0.0 then
      let f := Float.sqrt (-2.0 * Float.log r / r)
      ((f * y, f * x), t)
    else normalPair fuel t

/-- How many points are tried for a pair of deviates; all of them miss with a chance below
`10^-600`. -/
def tries : Nat := 1000

def normals : Nat → Twister → List Float
  | 0, _ => []
  | 1, t => [(normalPair tries t).1.1]
  | n + 2, t =>
    let pair := normalPair tries t
    pair.1.1 :: pair.1.2 :: normals n pair.2

end GzLang.Random
