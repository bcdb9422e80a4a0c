import GzLang.Text.Blank

/-!
# Arguments of a print statement

The text after the keyword is cut at the commas outside quotes. A text in quotes stands for
itself; blanks outside quotes do not count. A quote opens or closes a text unless a backslash
stands before it.
-/

namespace GzLang

inductive PrintArg where
  | text (s : String)
  | expr (s : List Char)
  deriving DecidableEq, Repr

namespace PrintArg

/-- Read arguments from the left. `previous` is the character before, `quoted` says whether a text
is open, and `current` holds the reversed characters of the argument being read. -/
def scan (previous : Option Char) (quoted : Bool) (current : List Char) :
    List Char → List PrintArg
  | [] =>
    let rest := Text.trim current.reverse
    if rest.isEmpty then [] else [.expr rest]
  | c :: s =>
    if c = '"' ∧ previous ≠ some '\\' then
      if quoted then .text (String.ofList current.reverse) :: scan (some c) false [] s
      else scan (some c) true current s
    else if quoted then scan (some c) true (c :: current) s
    else if Text.isBlank c then scan (some c) false current s
    else if c = ',' then
      if current.isEmpty then scan (some c) false [] s
      else .expr (Text.trim current.reverse) :: scan (some c) false [] s
    else scan (some c) false (c :: current) s

def ofText (s : List Char) : List PrintArg :=
  scan none false [] s

end PrintArg

end GzLang
