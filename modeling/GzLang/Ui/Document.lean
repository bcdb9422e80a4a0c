import GzLang.Ui.Design
import GzLang.Value.View

/-!
# The documents of a design

What a compiler says about a design: its elements, layouts, styles and events as tables.
-/

namespace GzLang.Ui

def Placement.document : Placement → Value
  | .child p c => .dict [("type", .str "child"), ("parent", .str p), ("child", .str c)]
  | .position e p => .dict [("type", .str "position"), ("element", .str e), ("position", .str p)]
  | .other v => v

def Placement.ofDocument (v : Value) : Placement :=
  let text k := (v.field k).asText
  match text "type" with
  | "child" => .child (text "parent") (text "child")
  | "position" => .position (text "element") (text "position")
  | _ => .other v

def Handler.document (h : Handler) : Value :=
  .dict [("element", .str h.element), ("event", .str h.event), ("action", .str h.action)]

def Handler.ofDocument (v : Value) : Handler :=
  ⟨(v.field "element").asText, (v.field "event").asText, (v.field "action").asText⟩

namespace Design

/-- The parts of a design, by the names that a compiler gives them. -/
def table (d : Design) : Table Value :=
  let texts := Table.document (Table.document Value.str)
  [("ui_elements", texts d.elements),
    ("ui_layouts", Table.document (fun ps => .list (ps.map Placement.document)) d.layouts),
    ("ui_styles", texts d.styles),
    ("ui_events", Table.document (fun hs => .list (hs.map Handler.document)) d.events)]

def withPart (d : Design) (name : String) (v : Value) : Design :=
  let texts := Table.ofDocument (Table.ofDocument Value.asText)
  match name with
  | "ui_elements" => { d with elements := texts v }
  | "ui_layouts" =>
    { d with layouts := Table.ofDocument (fun ps => ps.asList.map Placement.ofDocument) v }
  | "ui_styles" => { d with styles := texts v }
  | "ui_events" =>
    { d with events := Table.ofDocument (fun hs => hs.asList.map Handler.ofDocument) v }
  | _ => d

end Design

def Design.Compiled.document (c : Compiled) : Value :=
  .dict (("success", .bool true) :: ("processed_code", .str c.code) :: c.design.table)

end GzLang.Ui
