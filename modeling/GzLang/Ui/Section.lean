import GzLang.Text.Blank
import GzLang.Text.Segment
import GzLang.Text.Word

/-!
# Sections of a user interface

A section of a source is a keyword, a name and a body in braces: `ui_element name { body }`. The
body ends at the first closing brace. Sections are extracted by kind, and removed from the source
kind by kind.
-/

namespace GzLang.Ui

inductive SectionKind where
  | element
  | layout
  | style
  | event
  deriving DecidableEq, Repr

def SectionKind.keyword : SectionKind → String
  | .element => "ui_element"
  | .layout => "ui_layout"
  | .style => "ui_style"
  | .event => "ui_event"

/-- The kinds in the order in which sections are taken from a source. -/
def SectionKind.all : List SectionKind := [.element, .layout, .style, .event]

structure Section where
  kind : SectionKind
  name : String
  body : List Char
  deriving DecidableEq, Repr

namespace Section

def front? (kind : SectionKind) (s : List Char) : Option (Section × List Char) := do
  let s ← Text.literal? kind.keyword.toList s
  let (_, s) ← Text.many1? Text.isBlank s
  let (name, s) ← Text.many1? Text.isWord s
  let s ← Text.literal? ['\x7b'] (s.dropWhile Text.isBlank)
  let body := s.takeWhile (· ≠ '\x7d')
  let s ← Text.literal? ['\x7d'] (s.dropWhile (· ≠ '\x7d'))
  return (⟨kind, String.ofList name, body⟩, s)

/-- The sections of a source: all elements, then all layouts, styles and events. -/
def extract (code : List Char) : List Section :=
  SectionKind.all.flatMap fun kind => Text.findAll (front? kind) code

def removeAll (code : List Char) : List Char :=
  SectionKind.all.foldl (fun code kind => Text.removeFound (front? kind) code) code

end Section

end GzLang.Ui
