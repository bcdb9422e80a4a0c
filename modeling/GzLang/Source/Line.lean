import GzLang.Text.Split

/-!
# Source lines

A program is read as a list of lines, each with its number in the source, the number of blank
characters in front, and its content without comment and surrounding blanks. Lines without
content are left out.
-/

namespace GzLang

structure Line where
  number : Nat
  indent : Nat
  content : String
  deriving DecidableEq, Repr, Inhabited

namespace Line

/-- What stands in front of a comment, which `//` starts. -/
def beforeComment (s : List Char) : List Char :=
  match Text.cutFirst ['/', '/'] s with
  | some (code, _) => code
  | none => s

def read? (number : Nat) (s : List Char) : Option Line :=
  let code := beforeComment s
  let content := Text.trim code
  if content.isEmpty then none
  else some ⟨number, code.length - (Text.trimLeft code).length, String.ofList content⟩

def ofSource (code : String) : List Line :=
  ((Text.lines code.toList).zipIdx 1).filterMap fun (s, n) => read? n s

/-- The lines that belong to a line of the given indent: those that follow with a greater one. -/
def block (indent : Nat) (rest : List Line) : List Line :=
  rest.takeWhile fun l => indent < l.indent

/-- What follows the lines that belong to a line of the given indent. -/
def afterBlock (indent : Nat) (rest : List Line) : List Line :=
  rest.dropWhile fun l => indent < l.indent

theorem length_block_le (indent : Nat) (rest : List Line) :
    (block indent rest).length ≤ rest.length :=
  (List.takeWhile_sublist _).length_le

theorem length_afterBlock_le (indent : Nat) (rest : List Line) :
    (afterBlock indent rest).length ≤ rest.length :=
  (List.dropWhile_sublist _).length_le

end Line

end GzLang
