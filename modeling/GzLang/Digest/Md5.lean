/-!
# MD5

The digest of a text: its UTF-8 bytes are padded to blocks of 64 bytes, and each block changes a
state of four words in 64 steps.
-/

namespace GzLang.Md5

structure State where
  a : UInt32
  b : UInt32
  c : UInt32
  d : UInt32

def initial : State := ⟨0x67452301, 0xefcdab89, 0x98badcfe, 0x10325476⟩

/-- The amounts by which the steps rotate, in four rounds of four. -/
def shifts : List UInt32 :=
  let round (s : List UInt32) : List UInt32 := s ++ s ++ s ++ s
  round [7, 12, 17, 22] ++ round [5, 9, 14, 20] ++ round [4, 11, 16, 23] ++ round [6, 10, 15, 21]

def constants : List UInt32 := [
  0xd76aa478, 0xe8c7b756, 0x242070db, 0xc1bdceee, 0xf57c0faf, 0x4787c62a, 0xa8304613, 0xfd469501,
  0x698098d8, 0x8b44f7af, 0xffff5bb1, 0x895cd7be, 0x6b901122, 0xfd987193, 0xa679438e, 0x49b40821,
  0xf61e2562, 0xc040b340, 0x265e5a51, 0xe9b6c7aa, 0xd62f105d, 0x02441453, 0xd8a1e681, 0xe7d3fbc8,
  0x21e1cde6, 0xc33707d6, 0xf4d50d87, 0x455a14ed, 0xa9e3e905, 0xfcefa3f8, 0x676f02d9, 0x8d2a4c8a,
  0xfffa3942, 0x8771f681, 0x6d9d6122, 0xfde5380c, 0xa4beea44, 0x4bdecfa9, 0xf6bb4b60, 0xbebfbc70,
  0x289b7ec6, 0xeaa127fa, 0xd4ef3085, 0x04881d05, 0xd9d4d039, 0xe6db99e5, 0x1fa27cf8, 0xc4ac5665,
  0xf4292244, 0x432aff97, 0xab9423a7, 0xfc93a039, 0x655b59c3, 0x8f0ccc92, 0xffeff47d, 0x85845dd1,
  0x6fa87e4f, 0xfe2ce6e0, 0xa3014314, 0x4e0811a1, 0xf7537e82, 0xbd3af235, 0x2ad7d2bb, 0xeb86d391]

def rotate (x s : UInt32) : UInt32 := (x <<< s) ||| (x >>> (32 - s))

def step (block : Array UInt32) (st : State) (i : Nat) (shift constant : UInt32) : State :=
  let (f, g) :=
    if i < 16 then ((st.b &&& st.c) ||| ((~~~st.b) &&& st.d), i)
    else if i < 32 then ((st.d &&& st.b) ||| ((~~~st.d) &&& st.c), (5 * i + 1) % 16)
    else if i < 48 then (st.b ^^^ st.c ^^^ st.d, (3 * i + 5) % 16)
    else (st.c ^^^ (st.b ||| (~~~st.d)), (7 * i) % 16)
  let f := f + st.a + constant + block.getD g 0
  ⟨st.d, st.b + rotate f shift, st.b, st.c⟩

def absorb (st : State) (block : Array UInt32) : State :=
  let out := ((shifts.zip constants).zipIdx).foldl
    (fun s e => step block s e.2 e.1.1 e.1.2) st
  ⟨st.a + out.a, st.b + out.b, st.c + out.c, st.d + out.d⟩

def lowBytes : Nat → Nat → List UInt8
  | 0, _ => []
  | k + 1, n => UInt8.ofNat n :: lowBytes k (n / 256)

/-- The message with its padding: a set bit, zeros, and the length in bits. -/
def pad (message : List UInt8) : List UInt8 :=
  let n := message.length
  let zeros := (119 - n % 64) % 64
  message ++ 0x80 :: (List.replicate zeros 0 ++ lowBytes 8 (8 * n))

def wordOf (a b c d : UInt8) : UInt32 :=
  a.toUInt32 ||| (b.toUInt32 <<< 8) ||| (c.toUInt32 <<< 16) ||| (d.toUInt32 <<< 24)

def wordsOf : List UInt8 → List UInt32
  | a :: b :: c :: d :: rest => wordOf a b c d :: wordsOf rest
  | _ => []

/-- Absorb the words of whole blocks; `fuel` bounds their number. -/
def absorbAll : Nat → State → List UInt32 → State
  | 0, st, _ => st
  | _, st, [] => st
  | fuel + 1, st, ws => absorbAll fuel (absorb st (ws.take 16).toArray) (ws.drop 16)

def digest (message : List UInt8) : List UInt8 :=
  let ws := wordsOf (pad message)
  let st := absorbAll ws.length initial ws
  [st.a, st.b, st.c, st.d].flatMap fun w => lowBytes 4 w.toNat

def hexByte (b : UInt8) : List Char :=
  [Nat.digitChar (b.toNat / 16), Nat.digitChar (b.toNat % 16)]

def ofText (s : String) : List UInt8 := digest s.toUTF8.toList

def hex (s : String) : String := String.ofList ((ofText s).flatMap hexByte)

def number (s : String) : Nat := (ofText s).foldl (fun n b => 256 * n + b.toNat) 0

end GzLang.Md5
