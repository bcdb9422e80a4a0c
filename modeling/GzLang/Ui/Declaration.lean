import GzLang.Text.Split
import GzLang.Value.Basic

/-!
# Declarations inside a section

The body of a section holds one declaration per line; blank lines and comment lines do not count,
and semicolons at the end of a line are dropped. Elements and styles declare properties, layouts
place elements, and event sections attach actions to events.
-/

namespace GzLang.Ui

inductive Placement where
  | child (parent child : String)
  | position (element position : String)
  /-- An entry that says nothing to the generator. -/
  | other (entry : Value)

structure Handler where
  element : String
  event : String
  action : String
  deriving DecidableEq, Repr

def declaringLines (body : List Char) : List (List Char) :=
  ((Text.lines (Text.trim body)).map Text.trim).filter fun l =>
    !l.isEmpty && !Text.startsWith ['/', '/'] l

def valueText (s : List Char) : String :=
  String.ofList (Text.dropEndWhile (· = ';') (Text.trim s))

def property? (line : List Char) : Option (String × String) :=
  (Text.cutFirst [':'] line).map fun (k, v) => (String.ofList (Text.trim k), valueText v)

/-- The properties of a body; a later value takes the place of an earlier one. -/
def properties (body : List Char) : Table String :=
  Table.ofList ((declaringLines body).filterMap property?)

def placement? (line : List Char) : Option Placement :=
  match Text.cutFirst ['-', '>'] line with
  | some (p, c) => some (.child (String.ofList (Text.trim p)) (valueText c))
  | none =>
    (Text.cutFirst ['@'] line).map fun (e, p) =>
      .position (String.ofList (Text.trim e)) (valueText p)

def placements (body : List Char) : List Placement :=
  (declaringLines body).filterMap placement?

/-- The handler that a line declares: the text before the colon names the element and, from the first
`on`, the event. -/
def handler? (line : List Char) : Option Handler := do
  let (definition, action) ← Text.cutFirst [':'] line
  let (element, event) ← Text.cutFirst ['o', 'n'] (Text.trim definition)
  return ⟨String.ofList (Text.trim element), "on" ++ String.ofList (Text.trim event),
    valueText action⟩

def handlers (body : List Char) : List Handler :=
  (declaringLines body).filterMap handler?

end GzLang.Ui
