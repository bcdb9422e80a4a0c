import GzLang.Fault

/-!
# Texts in files

Files hold bytes. Reading a text decodes strict UTF-8, and a fault names the first bytes that do
not belong; then every carriage return, with a line feed after it or alone, becomes a line feed.
-/

namespace GzLang.Text

def isContinuation (b : Nat) : Bool := 0x80 ≤ b && b < 0xC0

/-- What the bytes at a place are: a character with the number of its bytes, a wrong byte after
`good` right ones, or a text that ends too early. -/
inductive Decoded where
  | char (c : Char) (size : Nat)
  | badStart
  | badContinuation (good : Nat)
  | truncated
  deriving Repr

/-- The second byte of a longer character is more restricted after some first bytes. -/
def secondFits (first second : Nat) : Bool :=
  isContinuation second &&
    (first != 0xE0 || second ≥ 0xA0) && (first != 0xED || second < 0xA0) &&
    (first != 0xF0 || second ≥ 0x90) && (first != 0xF4 || second < 0x90)

def decodeFront : List Nat → Decoded
  | [] => .truncated
  | a :: rest =>
    if a < 0x80 then .char (Char.ofNat a) 1
    else if a < 0xC2 then .badStart
    else if a < 0xE0 then
      match rest with
      | [] => .truncated
      | b :: _ =>
        if isContinuation b then .char (Char.ofNat ((a - 0xC0) * 64 + (b - 0x80))) 2
        else .badContinuation 1
    else if a < 0xF0 then
      match rest with
      | [] => .truncated
      | b :: rest =>
        if !secondFits a b then .badContinuation 1
        else
          match rest with
          | [] => .truncated
          | c :: _ =>
            if isContinuation c then
              .char (Char.ofNat (((a - 0xE0) * 64 + (b - 0x80)) * 64 + (c - 0x80))) 3
            else .badContinuation 2
    else if a < 0xF5 then
      match rest with
      | [] => .truncated
      | b :: rest =>
        if !secondFits a b then .badContinuation 1
        else
          match rest with
          | [] => .truncated
          | c :: rest =>
            if !isContinuation c then .badContinuation 2
            else
              match rest with
              | [] => .truncated
              | d :: _ =>
                if isContinuation d then
                  .char (Char.ofNat ((((a - 0xF0) * 64 + (b - 0x80)) * 64 + (c - 0x80)) * 64 +
                    (d - 0x80))) 4
                else .badContinuation 3
    else .badStart

def undecodable (bytes : List Nat) (position size : Nat) (reason : String) : Fault :=
  if size = 1 then .undecodable bytes.head? position position reason
  else .undecodable none position (position + size - 1) reason

/-- Decode the bytes from a position on; `fuel` bounds their number. -/
def decodeFrom : Nat → Nat → List Nat → Except Fault (List Char)
  | 0, _, _ => .ok []
  | _, _, [] => .ok []
  | fuel + 1, position, bytes =>
    match decodeFront bytes with
    | .char c size => (decodeFrom fuel (position + size) (bytes.drop size)).map (c :: ·)
    | .badStart => .error (undecodable bytes position 1 "invalid start byte")
    | .badContinuation good => .error (undecodable bytes position good "invalid continuation byte")
    | .truncated => .error (undecodable bytes position bytes.length "unexpected end of data")

def decodeUtf8 (bytes : List Nat) : Except Fault (List Char) :=
  decodeFrom bytes.length 0 bytes

def foldNewlines : List Char → List Char
  | [] => []
  | '\r' :: '\n' :: s => '\n' :: foldNewlines s
  | c :: s => (if c = '\r' then '\n' else c) :: foldNewlines s

end GzLang.Text
