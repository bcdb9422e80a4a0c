import GzLang.Ui.Declaration
import GzLang.Ui.Section

/-!
# Designs

A design collects what the sections of one or more sources declare, by name and in the order of
first appearance. `Design.generate` writes the program that builds the interface, and
`Design.compile` reads a source and puts that program in the place of its sections.
-/

namespace GzLang.Ui

structure Design where
  elements : Table (Table String) := []
  layouts : Table (List Placement) := []
  styles : Table (Table String) := []
  events : Table (List Handler) := []
  source : String := ""
  deriving Inhabited

namespace Design

def addSection (d : Design) (s : Section) : Design :=
  match s.kind with
  | .element => { d with elements := Table.put d.elements s.name (properties s.body) }
  | .layout => { d with layouts := Table.put d.layouts s.name (placements s.body) }
  | .style => { d with styles := Table.put d.styles s.name (properties s.body) }
  | .event => { d with events := Table.put d.events s.name (handlers s.body) }

/-- The type of an element; a window unless it says otherwise. -/
def elementType (properties : Table String) : String :=
  (Table.get? properties "type").getD "window"

def elementLines (name : String) (properties : Table String) : List String :=
  ["    // Create " ++ name,
    "    " ++ name ++ " = create_ui_element(\"" ++ elementType properties ++ "\")"] ++
  (properties.filter (·.1 ≠ "type")).map fun (k, v) =>
    "    set_property(" ++ name ++ ", \"" ++ k ++ "\", \"" ++ v ++ "\")"

def placementLine? : Placement → Option String
  | .child p c => some ("    add_child(" ++ p ++ ", " ++ c ++ ")")
  | .position e p => some ("    set_position(" ++ e ++ ", \"" ++ p ++ "\")")
  | .other _ => none

def layoutLines (name : String) (ps : List Placement) : List String :=
  ("    // Apply layout " ++ name) :: ps.filterMap placementLine?

def styleLines (elements : List String) (name : String) : List String :=
  ("    // Apply style " ++ name) ::
    elements.map fun e => "    apply_style(" ++ e ++ ", \"" ++ name ++ "\")"

def eventLines (name : String) (hs : List Handler) : List String :=
  ("    // Register events for " ++ name) ::
    hs.map fun h =>
      "    register_event(" ++ h.element ++ ", \"" ++ h.event ++ "\", " ++ h.action ++ ")"

def definesFunction (h : Handler) : Bool :=
  Text.startsWith "function_".toList h.action.toList

def handlerLines (h : Handler) : List String :=
  ["simula " ++ h.action,
    "    // Event handler for " ++ h.element ++ " " ++ h.event,
    "    sulat \"Event " ++ h.event ++ " triggered on " ++ h.element ++ "\"",
    "    balik tama"]

def generatedLines (d : Design) : List String :=
  ["// Generated UI code", "simula init_ui"] ++
  d.elements.flatMap (fun (n, ps) => elementLines n ps) ++
  d.layouts.flatMap (fun (n, ps) => layoutLines n ps) ++
  d.styles.flatMap (fun (n, _) => styleLines (Table.keys d.elements) n) ++
  d.events.flatMap (fun (n, hs) => eventLines n hs) ++
  ["    balik tama"] ++
  d.events.flatMap fun (_, hs) => (hs.filter definesFunction).flatMap handlerLines

def generate (d : Design) : String :=
  String.intercalate "\n" d.generatedLines

/-- A source without its sections, followed by a generated program. -/
def replaceSections (code generated : String) : String :=
  String.ofList (Section.removeAll code.toList) ++ "\n\n" ++ generated

structure Compiled where
  /-- The source without sections, with the generated program behind it. -/
  code : String
  /-- What was declared so far; nothing if the source has no sections. -/
  design : Design

/-- Compile a source: add its sections to the design and generate the program. A source without
sections stays as it is. -/
def compile (d : Design) (code : String) : Compiled × Design :=
  let d := { d with source := code }
  let sections := Section.extract code.toList
  if sections.isEmpty then (⟨code, {}⟩, d)
  else
    let d := sections.foldl addSection d
    (⟨replaceSections code d.generate, d⟩, d)

end Design

end GzLang.Ui
