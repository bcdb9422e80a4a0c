/-!
# Occurrences in a text

A recogniser looks at the front of a text and gives what it found together with the rest.
`segments` walks a text from the left: where the recogniser finds something it is taken as a
whole and the walk goes on behind it, everywhere else one character is taken. Nothing that was
found overlaps.
-/

namespace GzLang.Text

/-- A piece of a text: something found, or a character between. -/
inductive Segment (α : Type) where
  | found (a : α)
  | char (c : Char)

/-- A recogniser: what stands at the front of a text, and the rest. -/
abbrev Recogniser (α : Type) := List Char → Option (α × List Char)

/-- The segments of a text. What is found must not be empty. -/
def segments (find : Recogniser α) (s : List Char) : List (Segment α) :=
  match s with
  | [] => []
  | c :: t =>
    match find (c :: t) with
    | none => .char c :: segments find t
    | some (a, r) =>
      if _h : r.length < (c :: t).length then .found a :: segments find r
      else .char c :: segments find t
termination_by s.length
decreasing_by
  all_goals simp_all

def findAll (find : Recogniser α) (s : List Char) : List α :=
  (segments find s).filterMap fun
    | .found a => some a
    | .char _ => none

def replaceFound (find : Recogniser α) (write : α → List Char) (s : List Char) : List Char :=
  (segments find s).flatMap fun
    | .found a => write a
    | .char c => [c]

def removeFound (find : Recogniser α) (s : List Char) : List Char :=
  replaceFound find (fun _ => []) s

def literal? (p : List Char) (s : List Char) : Option (List Char) :=
  if p.isPrefixOf s then some (s.drop p.length) else none

/-- One or more characters of a class at the front. -/
def many1? (p : Char → Bool) (s : List Char) : Option (List Char × List Char) :=
  let front := s.takeWhile p
  if front.isEmpty then none else some (front, s.dropWhile p)

end GzLang.Text
