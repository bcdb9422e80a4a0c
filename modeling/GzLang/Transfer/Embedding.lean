import GzLang.Digest.Md5
import GzLang.Random.MersenneTwister
import GzLang.Value.Document

/-!
# Embeddings

A text is embedded as a unit vector drawn at random, with a seed that the text determines; the
similarity of two vectors is their inner product. A space remembers the vectors of the code and of
the concepts it has met, in that order, so vectors drawn before a change of dimension stay.
-/

namespace GzLang.Transfer

structure Space where
  dimension : Nat := 64
  codes : Table (List Float) := []
  concepts : Table (List Float) := []
  digest : String → String := Md5.hex
  deriving Inhabited

def inner (x y : List Float) : Float :=
  (List.zipWith (· * ·) x y).foldl (· + ·) 0

def embed (dimension : Nat) (text : String) : List Float :=
  let x := Random.normals dimension (Random.ofSeed (Md5.number text % Nat.pow 2 32))
  let norm := Float.sqrt (inner x x)
  x.map (· / norm)

/-- The similarity of two vectors, which must be of one dimension. -/
def similarity (x y : List Float) : Except Fault Value :=
  if x.length = y.length then .ok (.statistic (inner x y))
  else
    let m := toString x.length
    let n := toString y.length
    .error (.raised ("shapes (" ++ m ++ ",) and (" ++ n ++ ",) not aligned: " ++ m ++
      " (dim 0) != " ++ n ++ " (dim 0)"))

namespace Space

def code (s : Space) (code : String) : List Float × Space :=
  let hash := s.digest code
  match Table.get? s.codes hash with
  | some x => (x, s)
  | none =>
    let x := embed s.dimension code
    (x, { s with codes := Table.put s.codes hash x })

def concept (s : Space) (name : String) : List Float × Space :=
  match Table.get? s.concepts name with
  | some x => (x, s)
  | none =>
    let x := embed s.dimension name
    (x, { s with concepts := Table.put s.concepts name x })

/-- The name of a vector with its similarity to another, if they are similar. -/
def near? (x : List Float) (threshold : Value) (e : String × List Float) :
    Except Fault (Option (String × Value)) := do
  let d ← similarity x e.2
  if ← d.relate .ge threshold then return some (e.1, d) else return none

/-- The entries of a table of vectors that are similar to a vector, the most similar first. -/
def nearest (x : List Float) (table : Table (List Float)) (threshold : Value) (limit : Int) :
    Except Fault (List (String × Value)) := do
  let near ← table.mapM (near? x threshold)
  let sorted ← Value.sortDescending (fun e => .ok e.2) (near.filterMap id)
  return Value.upTo limit sorted

/-- The hashes of other code that is similar to a piece of code. -/
def similarCode (s : Space) (code : String) (threshold : Value) (limit : Int) :
    Except Fault (List (String × Value)) × Space :=
  let (x, s) := s.code code
  let hash := s.digest code
  (nearest x (s.codes.filter (·.1 ≠ hash)) threshold limit, s)

def relatedConcepts (s : Space) (code : String) (threshold : Value) (limit : Int) :
    Except Fault (List (String × Value)) × Space :=
  let (x, s) := s.code code
  (nearest x s.concepts threshold limit, s)

end Space

end GzLang.Transfer
