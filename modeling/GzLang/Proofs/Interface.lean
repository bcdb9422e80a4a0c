import GzLang.Proofs.Layout
import GzLang.Proofs.Sections
import GzLang.Proofs.Tables

/-!
# What the generated program of a design defines

The generator writes lines of code and comments around the texts of a design. If these texts have no
line feed and no comment in them (`Inline`), neither has a line of code, since they are joined by texts
without a slash (`Joint`). So the lines are read back one by one: the program is a list of definitions,
each a header and a body of indented lines (`definitions_of_defines`). Running it defines `init_ui` and
the functions of the handlers, and does nothing else (`load_generate`).
-/

namespace GzLang

open GzLang.Action List Line

namespace Text

variable {ls cs : List String}

/-! ### Texts inside a line -/

/-- A text that can stand inside a line of code: it has no line feed and no comment. -/
structure Inline (s : String) : Prop where
  oneLine : '\n' ∉ s.toList
  comment : ¬ ['/', '/'] <:+: s.toList

instance (s : String) : Decidable (Inline s) :=
  decidable_of_iff ('\n' ∉ s.toList ∧ ¬ ['/', '/'] <:+: s.toList)
    ⟨fun h => ⟨h.1, h.2⟩, fun h => ⟨h.oneLine, h.comment⟩⟩

def Joint (s : String) : Prop :=
  s.toList ≠ [] ∧ '\n' ∉ s.toList ∧ '/' ∉ s.toList

instance (s : String) : Decidable (Joint s) :=
  inferInstanceAs (Decidable (_ ∧ _ ∧ _))

variable {s t j : String}

theorem Inline.append (hs : Inline s) (hj : Joint j) (ht : Inline t) : Inline (s ++ j ++ t) where
  oneLine := by
    simp only [String.toList_append, mem_append, not_or]
    exact ⟨⟨hs.oneLine, hj.2.1⟩, ht.oneLine⟩
  comment := by
    intro hcomment
    rw [String.toList_append, String.toList_append, append_assoc] at hcomment
    have hslash : ∀ x ∈ j.toList, x ∉ ['/', '/'] := by
      rintro x hx hmem
      obtain rfl : x = '/' := by simpa using hmem
      exact hj.2.2 hx
    rcases infix_of_infix_append_append hj.1 hslash hcomment with h | h
    · exact hs.comment h
    · exact ht.comment h

theorem inline_empty : Inline "" := ⟨by decide, by decide⟩

theorem Joint.append (hj : Joint j) (ht : Inline t) : Inline (j ++ t) := by
  have h := inline_empty.append hj ht
  rwa [String.empty_append] at h

theorem Inline.append_joint (hs : Inline s) (hj : Joint j) : Inline (s ++ j) := by
  have h := hs.append hj inline_empty
  rwa [String.append_empty] at h

structure Word (s : String) : Prop where
  ne_nil : s.toList ≠ []
  word : ∀ c ∈ s.toList, isWord c = true

instance (s : String) : Decidable (Word s) :=
  decidable_of_iff (s.toList ≠ [] ∧ ∀ c ∈ s.toList, isWord c = true)
    ⟨fun h => ⟨h.1, h.2⟩, fun h => ⟨h.ne_nil, h.word⟩⟩

theorem Word.joint (h : Word s) : Joint s :=
  ⟨h.ne_nil, not_mem_of_class (by decide) h.word, not_mem_of_class (by decide) h.word⟩

theorem Word.inline (h : Word s) : Inline s := by
  have hj := h.joint.append inline_empty
  rwa [String.append_empty] at hj

/-- A text with which a line of code can start. -/
structure Opening (s : String) : Prop where
  inline : Inline s
  head : ∃ c t, s.toList = c :: t ∧ isBlank c = false

theorem Word.opening (h : Word s) : Opening s := ⟨h.inline, (solid_of_isWord h.ne_nil h.word).1⟩

theorem Joint.opening (hj : Joint j) (hhead : ∃ c t, j.toList = c :: t ∧ isBlank c = false)
    (ht : Inline t) : Opening (j ++ t) := by
  obtain ⟨c, r, hr, hc⟩ := hhead
  exact ⟨hj.append ht, c, r ++ t.toList, by rw [String.toList_append, hr, cons_append], hc⟩

theorem Opening.append (hs : Opening s) (hj : Joint j) (ht : Inline t) : Opening (s ++ j ++ t) := by
  obtain ⟨c, r, hr, hc⟩ := hs.head
  refine ⟨hs.inline.append hj ht, c, r ++ j.toList ++ t.toList, ?_, hc⟩
  rw [String.toList_append, String.toList_append, hr, cons_append, cons_append]

/-- The content of a line of code: it has no blanks around it. -/
structure Code (s : String) : Prop where
  inline : Inline s
  solid : Solid s.toList

theorem Opening.code (hs : Opening s) (hj : Joint j)
    (hlast : ∃ t c, j.toList = t ++ [c] ∧ isBlank c = false) : Code (s ++ j) := by
  obtain ⟨c, t, ht, hc⟩ := hs.head
  obtain ⟨u, d, hu, hd⟩ := hlast
  refine ⟨hs.inline.append_joint hj, ⟨c, t ++ j.toList, ?_, hc⟩, ⟨s.toList ++ u, d, ?_, hd⟩⟩
  · rw [String.toList_append, ht, cons_append]
  · rw [String.toList_append, hu, append_assoc]

theorem lines_intercalate (hne : ls ≠ []) (h : ∀ l ∈ ls, '\n' ∉ l.toList) :
    lines (String.intercalate "\n" ls).toList = ls.map String.toList := by
  rw [lines_eq_splitOn, String.toList_intercalate]
  refine splitOn_intercalate '\n' ?_ (by simpa using hne)
  intro l hl
  obtain ⟨s, hs, rfl⟩ := mem_map.1 hl
  exact h s hs

theorem wordsFrom_append_blank {v : List Char} (hv : ∀ c ∈ v, isBlank c)
    (word s : List Char) : wordsFrom word (s ++ v) = wordsFrom word s := by
  induction s generalizing word with
  | nil =>
    induction v generalizing word with
    | nil => rfl
    | cons c v ih =>
      rw [forall_mem_cons] at hv
      have hnil : wordsFrom [] v = [] := ih hv.2 []
      simp only [nil_append, wordsFrom, hv.1, if_true, hnil]
  | cons c s ih =>
    rw [cons_append, wordsFrom, wordsFrom]
    simp only [ih]

/-- The first word starts with what was read of it. -/
theorem exists_wordsFrom {word : List Char} (hword : word ≠ []) (s : List Char) :
    ∃ w ws, wordsFrom word s = w :: ws ∧ word.reverse <+: w := by
  induction s generalizing word with
  | nil => exact ⟨word.reverse, [], by simp [wordsFrom, hword], prefix_rfl⟩
  | cons c s ih =>
    rw [wordsFrom]
    split
    · exact ⟨word.reverse, wordsFrom [] s, by simp [hword], prefix_rfl⟩
    · obtain ⟨w, ws, hws, hw⟩ := ih (cons_ne_nil c word)
      refine ⟨w, ws, hws, List.IsPrefix.trans ?_ hw⟩
      rw [reverse_cons]
      exact prefix_append ..

end Text

open Text

/-! ### Reading lines -/

theorem Line.beforeComment_of_inline {s : String} (h : Inline s) : beforeComment s.toList = s.toList := by
  rw [beforeComment]
  cases hcut : cutFirst ['/', '/'] s.toList with
  | none => rfl
  | some p =>
    refine absurd ?_ h.comment
    rw [eq_append_of_cutFirst hcut]
    exact infix_append' ..

structure Body (ls cs : List String) : Prop where
  oneLine : ∀ l ∈ ls, '\n' ∉ l.toList
  read : ∀ k, (readAll k (ls.map String.toList)).map (fun l => (l.indent, l.content)) =
    cs.map fun c => (4, c)

namespace Body

theorem nil : Body [] [] := ⟨forall_mem_nil _, fun _ => rfl⟩

theorem append {ls' cs' : List String} (h : Body ls cs) (h' : Body ls' cs') : Body (ls ++ ls') (cs ++ cs') where
  oneLine := forall_mem_append.2 ⟨h.oneLine, h'.oneLine⟩
  read k := by
    rw [map_append, readAll_append, map_append, h.read, h'.read, map_append]

theorem flatMap {α : Type} {xs : List α} {f g : α → List String}
    (h : ∀ x ∈ xs, Body (f x) (g x)) : Body (xs.flatMap f) (xs.flatMap g) := by
  induction xs with
  | nil => exact nil
  | cons x xs ih =>
    rw [forall_mem_cons] at h
    rw [flatMap_cons, flatMap_cons]
    exact h.1.append (ih h.2)

theorem comment {s : String} (h : '\n' ∉ s.toList) : Body ["    //" ++ s] [] where
  oneLine := by
    simp only [mem_singleton, forall_eq, String.toList_append, mem_append, not_or]
    exact ⟨by decide, h⟩
  read k := by
    have hidle : Idle ("    //" ++ s).toList :=
      ⟨"    ".toList, "//".toList ++ s.toList, by rw [String.toList_append]; rfl, by decide,
        .inr (prefix_append ..)⟩
    rw [map_singleton, readAll_cons, read?_of_blank hidle.blank_beforeComment]
    rfl

theorem code (h : ∀ c ∈ cs, Code c) : Body (cs.map ("    " ++ ·)) cs where
  oneLine := by
    rintro l hl
    obtain ⟨c, hc, rfl⟩ := mem_map.1 hl
    rw [String.toList_append, mem_append, not_or]
    exact ⟨by decide, (h c hc).inline.oneLine⟩
  read k := by
    induction cs generalizing k with
    | nil => rfl
    | cons c cs ih =>
      rw [forall_mem_cons] at h
      have hcode : beforeComment ("    " ++ c).toList = "    ".toList ++ (c.toList ++ []) := by
        rw [String.toList_append, beforeComment_append (by decide),
          beforeComment_of_inline h.1.inline, append_nil]
      rw [map_cons, map_cons, readAll_cons, read?_of_around h.1.solid (by decide)
        (forall_mem_nil _) hcode, map_append, ih h.2, String.ofList_toList]
      rfl

theorem indent (h : Body ls cs) {k : Nat} {l : Line} (hl : l ∈ readAll k (ls.map String.toList)) : l.indent = 4 := by
  have hmem : (l.indent, l.content) ∈ cs.map fun c => (4, c) := by
    rw [← h.read k]
    exact mem_map.2 ⟨l, hl, rfl⟩
  obtain ⟨c, -, hc⟩ := mem_map.1 hmem
  exact (Prod.ext_iff.1 hc).1.symm

theorem content (h : Body ls cs) (k : Nat) : (readAll k (ls.map String.toList)).map (·.content) = cs := by
  have hread := congrArg (map Prod.snd) (h.read k)
  simpa [Function.comp_def] using hread

end Body

/-- What a definition says: the name, the parameters and the contents of the body. -/
def Definition.outline (d : Definition) : String × List String × List String :=
  (d.name, d.function.params, d.function.body.map (·.content))

/-- Lines that are a definition, with what it says. The first line gives the words after the keyword. -/
inductive Defines : List String → String × List String × List String → Prop
  | mk {head name : String} {params ls cs : List String} (hhead : Opening head)
    (hwords : (words head.toList).map String.ofList = name :: params) (hbody : Body ls cs) :
    Defines (("simula " ++ head) :: ls) (name, params, cs)

theorem Defines.oneLine {o : String × List String × List String} (h : Defines ls o) : ∀ l ∈ ls, '\n' ∉ l.toList := by
  cases h with
  | mk hhead _ hbody =>
    rw [forall_mem_cons]
    refine ⟨?_, hbody.oneLine⟩
    rw [String.toList_append, mem_append, not_or]
    exact ⟨by decide, hhead.inline.oneLine⟩

theorem read?_header {head name : String} {params : List String} (hhead : Opening head)
    (hwords : (words head.toList).map String.ofList = name :: params) (k : Nat) :
    ∃ l : Line, read? k ("simula " ++ head).toList = some l ∧ l.indent = 0 ∧
      definition? l.content = some (name :: params) := by
  obtain ⟨c, t, hct, hc⟩ := hhead.head
  obtain ⟨a, v, hav, ha, hv⟩ := exists_solid hc t
  have hcode : beforeComment ("simula " ++ head).toList = [] ++ (("simula ".toList ++ a) ++ v) := by
    rw [String.toList_append, beforeComment_append (by decide),
      beforeComment_of_inline hhead.inline, hct, hav, append_assoc, nil_append]
  have hsolid : Solid ("simula ".toList ++ a) := by
    obtain ⟨u, d, rfl, hd⟩ := ha.2
    exact ⟨⟨'s', "imula ".toList ++ (u ++ [d]), rfl, rfl⟩, ⟨"simula ".toList ++ u, d, (append_assoc ..).symm, hd⟩⟩
  refine ⟨_, read?_of_around hsolid (forall_mem_nil _) hv hcode, rfl, ?_⟩
  have hafter : Statement.after? "simula" ("simula ".toList ++ a) = some a := rfl
  have hwords' : words a = words head.toList := by
    rw [hct, hav]
    exact (wordsFrom_append_blank hv [] a).symm
  rw [definition?, String.toList_ofList, hafter, Option.map_some, hwords', hwords]

/-- The lines of definitions one after the other define what each of them says. -/
theorem definitions_of_defines {ds : List (List String × String × List String × List String)}
    (h : ∀ d ∈ ds, Defines d.1 d.2) (k : Nat) :
    (∀ l ∈ (readAll k ((ds.flatMap (·.1)).map String.toList)).head?, l.indent = 0) ∧
      (definitions (readAll k ((ds.flatMap (·.1)).map String.toList))).map Definition.outline = ds.map (·.2) := by
  induction ds generalizing k with
  | nil =>
    refine ⟨nofun, ?_⟩
    change (definitions []).map Definition.outline = []
    rw [definitions, map_nil]
  | cons d ds ih =>
    rw [forall_mem_cons] at h
    obtain ⟨ls, o⟩ := d
    cases h.1 with
    | @mk head name params ls cs hhead hwords hbody =>
      obtain ⟨l, hread, hindent, hdef⟩ := read?_header hhead hwords k
      obtain ⟨hrest, hdefs⟩ := ih h.2 (k + 1 + (ls.map String.toList).length)
      have hlines : readAll k (((("simula " ++ head) :: ls) ++ ds.flatMap (·.1)).map
          String.toList) = l :: (readAll (k + 1) (ls.map String.toList) ++
            readAll (k + 1 + (ls.map String.toList).length) ((ds.flatMap (·.1)).map String.toList)) := by
        rw [cons_append, map_cons, readAll_cons, hread, map_append, readAll_append]
        rfl
      rw [flatMap_cons, hlines]
      refine ⟨fun m hm => Option.mem_some.1 hm ▸ hindent, ?_⟩
      generalize readAll (k + 1 + (ls.map String.toList).length) _ = rest at hrest hdefs ⊢
      -- the body ends where the next definition starts
      have hin : ∀ m ∈ readAll (k + 1) (ls.map String.toList), decide (l.indent < m.indent) := by
        intro m hm
        rw [hindent, hbody.indent hm]
        rfl
      have hout : rest.takeWhile (fun m => decide (l.indent < m.indent)) = [] ∧
          rest.dropWhile (fun m => decide (l.indent < m.indent)) = rest := by
        cases rest with
        | nil => exact ⟨rfl, rfl⟩
        | cons m rest =>
          have hm : m.indent = 0 := hrest m rfl
          simp [hm]
      rw [definitions_of_some hdef, defined, block, afterBlock,
        takeWhile_append_of_pos hin, dropWhile_append_of_pos hin, hout.1, hout.2,
        append_nil, map_cons, map_cons, hdefs, Definition.outline, hbody.content]

/-- What a name stands for, in terms of what the definitions say: the last one counts. -/
theorem get?_outline (ds : List Definition) (name : String) :
    (Table.get? (addFunctions [] ds) name).map (fun f => (f.params, f.body.map (·.content))) =
      ((ds.map Definition.outline).filter (·.1 = name)).getLast?.map (·.2) := by
  rw [get?_addFunctions, filter_map, getLast?_map, Option.map_map, Table.get?_nil, Option.or_none, Option.map_map]
  rfl

namespace Ui

/-! ### The generated program -/

def Placement.Inline : Placement → Prop
  | .child p c => Text.Inline p ∧ Text.Inline c
  | .position e p => Text.Inline e ∧ Text.Inline p
  | .other _ => True

instance : ∀ p : Placement, Decidable p.Inline
  | .child _ _ => inferInstanceAs (Decidable (_ ∧ _))
  | .position _ _ => inferInstanceAs (Decidable (_ ∧ _))
  | .other _ => inferInstanceAs (Decidable True)

def Placement.code? : Placement → Option String
  | .child p c => some ("add_child(" ++ p ++ ", " ++ c ++ ")")
  | .position e p => some ("set_position(" ++ e ++ ", \"" ++ p ++ "\")")
  | .other _ => none

structure Handler.Inline (h : Handler) : Prop where
  element : Text.Inline h.element
  event : Text.Inline h.event
  action : Text.Inline h.action

instance (h : Handler) : Decidable h.Inline :=
  decidable_of_iff (Text.Inline h.element ∧ Text.Inline h.event ∧ Text.Inline h.action)
    ⟨fun i => ⟨i.1, i.2.1, i.2.2⟩, fun i => ⟨i.element, i.event, i.action⟩⟩

def Handler.words (h : Handler) : List String := (Text.words h.action.toList).map String.ofList

def Handler.body (h : Handler) : List String :=
  ["sulat \"Event " ++ h.event ++ " triggered on " ++ h.element ++ "\"", "balik tama"]

namespace Design

/-- The names are words, and the other texts can stand inside a line. -/
structure Inline (d : Design) : Prop where
  elements : ∀ e ∈ d.elements, Word e.1 ∧ ∀ p ∈ e.2, Text.Inline p.1 ∧ Text.Inline p.2
  layouts : ∀ l ∈ d.layouts, Word l.1 ∧ ∀ p ∈ l.2, p.Inline
  styles : ∀ s ∈ d.styles, Word s.1
  events : ∀ g ∈ d.events, Word g.1 ∧ ∀ h ∈ g.2, h.Inline

instance (d : Design) : Decidable d.Inline :=
  decidable_of_iff
    ((∀ e ∈ d.elements, Word e.1 ∧ ∀ p ∈ e.2, Text.Inline p.1 ∧ Text.Inline p.2) ∧
      (∀ l ∈ d.layouts, Word l.1 ∧ ∀ p ∈ l.2, p.Inline) ∧ (∀ s ∈ d.styles, Word s.1) ∧
      ∀ g ∈ d.events, Word g.1 ∧ ∀ h ∈ g.2, h.Inline)
    ⟨fun i => ⟨i.1, i.2.1, i.2.2.1, i.2.2.2⟩,
      fun i => ⟨i.elements, i.layouts, i.styles, i.events⟩⟩

/-- The lines of code that create an element and set its properties. -/
def elementCode (e : String × Table String) : List String :=
  (e.1 ++ " = create_ui_element(\"" ++ elementType e.2 ++ "\")") ::
    (e.2.filter (·.1 ≠ "type")).map fun p =>
      "set_property(" ++ e.1 ++ ", \"" ++ p.1 ++ "\", \"" ++ p.2 ++ "\")"

def styleCode (d : Design) (style : String) : List String :=
  d.elements.map fun e => "apply_style(" ++ e.1 ++ ", \"" ++ style ++ "\")"

def eventCode (hs : List Handler) : List String :=
  hs.map fun h => "register_event(" ++ h.element ++ ", \"" ++ h.event ++ "\", " ++ h.action ++ ")"

def setUpCode (d : Design) : List String :=
  d.elements.flatMap elementCode ++
  d.layouts.flatMap (fun l => l.2.filterMap Placement.code?) ++
  d.styles.flatMap (fun s => d.styleCode s.1) ++
  d.events.flatMap (fun g => eventCode g.2) ++
  ["balik tama"]

def callbacks (d : Design) : List Handler :=
  (d.events.flatMap (·.2)).filter definesFunction

/-! ### The bodies of the generated program -/

theorem elementLines_eq (e : String × Table String) : elementLines e.1 e.2 =
    ["    //" ++ (" Create " ++ e.1)] ++ (elementCode e).map ("    " ++ ·) := by
  simp [elementLines, elementCode, ← String.append_assoc]

theorem layoutLines_eq (l : String × List Placement) : layoutLines l.1 l.2 =
    ["    //" ++ (" Apply layout " ++ l.1)] ++ (l.2.filterMap Placement.code?).map ("    " ++ ·) := by
  have hline (p : Placement) : placementLine? p = p.code?.map ("    " ++ ·) := by
    cases p <;> simp [placementLine?, Placement.code?, ← String.append_assoc]
  rw [map_filterMap, ← funext hline]
  simp [layoutLines, ← String.append_assoc]

theorem styleLines_eq (d : Design) (style : String) : styleLines (Table.keys d.elements) style =
    ["    //" ++ (" Apply style " ++ style)] ++ (d.styleCode style).map ("    " ++ ·) := by
  simp [styleLines, styleCode, Table.keys, ← String.append_assoc]

theorem eventLines_eq (g : String × List Handler) : eventLines g.1 g.2 =
    ["    //" ++ (" Register events for " ++ g.1)] ++ (eventCode g.2).map ("    " ++ ·) := by
  simp [eventLines, eventCode, ← String.append_assoc]

theorem handlerLines_eq (h : Handler) : handlerLines h = ("simula " ++ h.action) ::
    (["    //" ++ (" Event handler for " ++ h.element ++ " " ++ h.event)] ++ h.body.map ("    " ++ ·)) := by
  simp [handlerLines, Handler.body, ← String.append_assoc]

theorem inline_elementType {ps : Table String} (h : ∀ p ∈ ps, Text.Inline p.1 ∧ Text.Inline p.2) :
    Text.Inline (elementType ps) := by
  rw [elementType]
  cases hget : Table.get? ps "type" with
  | none => exact ⟨by decide, by decide⟩
  | some v => exact (h _ (Table.mem_of_get?_eq hget)).2

theorem code_balik : Code "balik tama" :=
  ⟨⟨by decide, by decide⟩, ⟨_, _, rfl, rfl⟩, ⟨"balik tam".toList, 'a', rfl, rfl⟩⟩

variable {d : Design}

theorem Inline.body_elementLines (hd : d.Inline) {e : String × Table String} (he : e ∈ d.elements) :
    Body (elementLines e.1 e.2) (elementCode e) := by
  obtain ⟨hname, hprops⟩ := hd.elements e he
  rw [elementLines_eq]
  refine (Body.comment (Joint.append (by decide) hname.inline).oneLine).append (Body.code ?_)
  rw [elementCode, forall_mem_cons, forall_mem_map]
  refine ⟨?_, fun p hp => ?_⟩
  · exact (hname.opening.append (by decide) (inline_elementType hprops)).code (by decide)
      ⟨['"'], ')', rfl, rfl⟩
  · obtain ⟨hkey, hvalue⟩ := hprops p (mem_of_mem_filter hp)
    exact (((Joint.opening (by decide) ⟨_, _, rfl, rfl⟩ hname.inline).append (by decide) hkey).append
      (by decide) hvalue).code (by decide) ⟨['"'], ')', rfl, rfl⟩

theorem Inline.body_layoutLines (hd : d.Inline) {l : String × List Placement} (hl : l ∈ d.layouts) :
    Body (layoutLines l.1 l.2) (l.2.filterMap Placement.code?) := by
  obtain ⟨hname, hplaces⟩ := hd.layouts l hl
  rw [layoutLines_eq]
  refine (Body.comment (Joint.append (by decide) hname.inline).oneLine).append (Body.code ?_)
  intro c hc
  obtain ⟨p, hp, hpc⟩ := mem_filterMap.1 hc
  have hinline := hplaces p hp
  cases p with
  | child parent child =>
    cases hpc
    exact ((Joint.opening (by decide) ⟨_, _, rfl, rfl⟩ hinline.1).append (by decide) hinline.2).code
      (by decide) ⟨[], ')', rfl, rfl⟩
  | position element position =>
    cases hpc
    exact ((Joint.opening (by decide) ⟨_, _, rfl, rfl⟩ hinline.1).append (by decide) hinline.2).code
      (by decide) ⟨['"'], ')', rfl, rfl⟩
  | other entry => cases hpc

theorem Inline.body_styleLines (hd : d.Inline) {s : String × Table String} (hs : s ∈ d.styles) :
    Body (styleLines (Table.keys d.elements) s.1) (d.styleCode s.1) := by
  have hname := (hd.styles s hs).inline
  rw [styleLines_eq]
  refine (Body.comment (Joint.append (by decide) hname).oneLine).append (Body.code ?_)
  rw [styleCode, forall_mem_map]
  intro e he
  exact ((Joint.opening (by decide) ⟨_, _, rfl, rfl⟩ (hd.elements e he).1.inline).append (by decide)
    hname).code (by decide) ⟨['"'], ')', rfl, rfl⟩

theorem Inline.body_eventLines (hd : d.Inline) {g : String × List Handler} (hg : g ∈ d.events) :
    Body (eventLines g.1 g.2) (eventCode g.2) := by
  obtain ⟨hname, hhandlers⟩ := hd.events g hg
  rw [eventLines_eq]
  refine (Body.comment (Joint.append (by decide) hname.inline).oneLine).append (Body.code ?_)
  rw [eventCode, forall_mem_map]
  intro h hh
  obtain ⟨helement, hevent, haction⟩ := hhandlers h hh
  exact (((Joint.opening (by decide) ⟨_, _, rfl, rfl⟩ helement).append (by decide) hevent).append
    (by decide) haction).code (by decide) ⟨[], ')', rfl, rfl⟩

def setUpLines (d : Design) : List String :=
  d.elements.flatMap (fun e => elementLines e.1 e.2) ++
  d.layouts.flatMap (fun l => layoutLines l.1 l.2) ++
  d.styles.flatMap (fun s => styleLines (Table.keys d.elements) s.1) ++
  d.events.flatMap (fun g => eventLines g.1 g.2) ++
  ["    balik tama"]

theorem Inline.body_setUpLines (hd : d.Inline) : Body d.setUpLines d.setUpCode := by
  have hbalik : Body ["    balik tama"] ["balik tama"] := Body.code (forall_mem_singleton.2 code_balik)
  exact ((((Body.flatMap fun e he => hd.body_elementLines he).append
    (Body.flatMap fun l hl => hd.body_layoutLines hl)).append
    (Body.flatMap fun s hs => hd.body_styleLines hs)).append
    (Body.flatMap fun g hg => hd.body_eventLines hg)).append hbalik

end Design

/-! ### The definitions of the generated program -/

theorem Handler.exists_words {h : Handler} (hdef : Design.definesFunction h) :
    ∃ name params, h.words = name :: params ∧ "function_".toList <+: name.toList := by
  obtain ⟨r, hr⟩ := isPrefixOf_iff_prefix.1 hdef
  obtain ⟨w, ws, hws, hw⟩ := exists_wordsFrom (show "_noitcnuf".toList ≠ [] by decide) r
  have hwords : Text.words h.action.toList = w :: ws := by
    rw [← hr]
    exact hws
  have hname : (String.ofList w).toList = w := String.toList_ofList
  refine ⟨String.ofList w, ws.map String.ofList, by rw [words, hwords, map_cons], ?_⟩
  rw [hname]
  exact hw

def Handler.outline (h : Handler) : String × List String × List String :=
  (h.words.headD "", h.words.tail, h.body)

theorem Handler.Inline.defines {h : Handler} (hi : h.Inline) (hdef : Design.definesFunction h) :
    Defines (Design.handlerLines h) h.outline := by
  obtain ⟨name, params, hwords, -⟩ := Handler.exists_words hdef
  obtain ⟨r, hr⟩ := isPrefixOf_iff_prefix.1 hdef
  have hopening : Opening h.action := ⟨hi.action, 'f', "unction_".toList ++ r, hr.symm, rfl⟩
  have hcomment : Body ["    //" ++ (" Event handler for " ++ h.element ++ " " ++ h.event)] [] :=
    Body.comment ((Joint.append (by decide) hi.element).append (by decide) hi.event).oneLine
  have hbody : ∀ c ∈ h.body, Code c := by
    rw [Handler.body, forall_mem_cons, forall_mem_singleton]
    refine ⟨?_, Design.code_balik⟩
    exact ((Joint.opening (by decide) ⟨_, _, rfl, rfl⟩ hi.event).append (by decide) hi.element).code
      (by decide) ⟨[], '"', rfl, rfl⟩
  rw [Design.handlerLines_eq, Handler.outline, hwords]
  exact .mk hopening hwords (hcomment.append (Body.code hbody))

namespace Design

variable {d : Design}

theorem generatedLines_eq (d : Design) : d.generatedLines = "// Generated UI code" ::
    (("simula init_ui" :: d.setUpLines) ++ d.callbacks.flatMap handlerLines) := by
  have hcallbacks : d.callbacks.flatMap handlerLines =
      d.events.flatMap fun g => (g.2.filter definesFunction).flatMap handlerLines := by
    rw [callbacks, filter_flatMap, flatMap_assoc]
  rw [hcallbacks]
  simp [generatedLines, setUpLines]

theorem Inline.outline_definitions (hd : d.Inline) : (definitions (ofSource d.generate)).map Definition.outline =
      ("init_ui", [], d.setUpCode) :: d.callbacks.map Handler.outline := by
  let ds := ("simula init_ui" :: d.setUpLines, "init_ui", ([] : List String), d.setUpCode) ::
    d.callbacks.map fun h => (handlerLines h, h.outline)
  have hdefines : ∀ c ∈ ds, Defines c.1 c.2 := by
    rw [forall_mem_cons, forall_mem_map]
    refine ⟨?_, fun h hh => ?_⟩
    · have hopening : Opening "init_ui" := Word.opening (by decide)
      exact .mk hopening rfl hd.body_setUpLines
    · obtain ⟨hmem, hdef⟩ := mem_filter.1 hh
      obtain ⟨g, hg, hhg⟩ := mem_flatMap.1 hmem
      exact ((hd.events g hg).2 h hhg).defines hdef
  have hlines : d.generatedLines = "// Generated UI code" :: ds.flatMap (·.1) := by
    rw [generatedLines_eq, flatMap_cons, flatMap_map]
  have honeLine : ∀ l ∈ d.generatedLines, '\n' ∉ l.toList := by
    rw [hlines, forall_mem_cons, forall_mem_flatMap]
    exact ⟨by decide, fun c hc => (hdefines c hc).oneLine⟩
  have hread : ofSource d.generate = readAll 2 ((ds.flatMap (·.1)).map String.toList) := by
    change readAll 1 (lines (String.intercalate "\n" d.generatedLines).toList) = _
    rw [lines_intercalate (by rw [hlines]; exact cons_ne_nil _ _) honeLine, hlines, map_cons,
      readAll_cons]
    rfl
  rw [hread, (definitions_of_defines hdefines 2).2, map_cons, map_map]
  rfl

/-- **The generated program is what the machine loads.** Let the names of a design be words, and let
its other texts have no line feed and no comment in them. Running the generated program on a fresh
machine executes nothing. It defines `init_ui`, whose lines create the elements and set their
properties, place them, apply every style to every element and register the handlers, and one function
for each first word of the action of a handler that starts with `function_`, where the last handler
counts. -/
theorem load_generate (d : Design) (hd : d.Inline) : ∃ n, (runSource d.generate).perform {} = (.ok (), n) ∧
      n.bindings = [] ∧ n.out = "" ∧ n.err = "" ∧
      ∀ name, (Table.get? n.functions name).map (fun f => (f.params, f.body.map (·.content))) =
        if name = "init_ui" then some ([], d.setUpCode)
        else (d.callbacks.filter fun h => h.words.head? = some name).getLast?.map fun h =>
          (h.words.tail, h.body) := by
  have houtline := hd.outline_definitions
  have hcallback {h : Handler} (hh : h ∈ d.callbacks) :
      h.words.head? = some h.outline.1 ∧ "function_".toList <+: h.outline.1.toList := by
    obtain ⟨name, params, hwords, hfunction⟩ := Handler.exists_words (List.mem_filter.1 hh).2
    rw [Handler.outline, hwords]
    exact ⟨rfl, hfunction⟩
  have hother {h : Handler} (hh : h ∈ d.callbacks) {name : String}
      (hname : ¬ "function_".toList <+: name.toList) : h.outline.1 ≠ name := fun heq =>
    hname (heq ▸ (hcallback hh).2)
  have hmain : ∀ e ∈ definitions (Line.ofSource d.generate), e.name ≠ "main" := by
    intro e he
    have hmem := List.mem_map_of_mem (f := Definition.outline) he
    rw [houtline, List.mem_cons, List.mem_map] at hmem
    rcases hmem with hinit | ⟨h, hh, houtline⟩
    · rw [show e.name = "init_ui" from congrArg Prod.fst hinit]
      decide
    · rw [show e.name = h.outline.1 from (congrArg Prod.fst houtline).symm]
      exact hother hh (by decide)
  obtain ⟨k, hrun⟩ := perform_runLines_of_quiet (named_ofSource d.generate) (m := {}) (.inr hmain)
  refine ⟨_, hrun, rfl, rfl, rfl, fun name => ?_⟩
  rw [get?_outline, houtline]
  by_cases hname : name = "init_ui"
  · have hnone : (d.callbacks.map Handler.outline).filter (fun o => decide (o.1 = name)) = [] := by
      rw [List.filter_eq_nil_iff, List.forall_mem_map]
      intro h hh
      rw [hname, decide_eq_true_eq]
      exact hother hh (by decide)
    rw [if_pos hname, List.filter_cons_of_pos (by simp [hname]), hnone]
    rfl
  · have hsame : ∀ h ∈ d.callbacks, decide (h.outline.1 = name) = decide (h.words.head? = some name) := by
      intro h hh
      simp [(hcallback hh).1]
    rw [if_neg hname, List.filter_cons_of_neg (by simpa using Ne.symm hname), List.filter_map,
      List.getLast?_map, Option.map_map, ← List.filter_congr hsame]
    rfl

/-- A window with a button. Two of the handlers have a function, of the same name. -/
def greeting : Design where
  elements := [("w", [("type", "window"), ("title", "a/b")]), ("ok", [("text", "OK")])]
  layouts := [("main", [.child "w" "ok", .position "ok" "top"])]
  styles := [("blue", [("color", "blue")])]
  events := [("clicks", [⟨"ok", "onclick", "function_ok now"⟩, ⟨"w", "onclose", "quit"⟩]),
    ("others", [⟨"w", "onopen", "function_ok "⟩])]

theorem load_greeting : ∃ n, (runSource greeting.generate).perform {} = (.ok (), n) ∧
    n.bindings = [] ∧ n.out = "" ∧ n.err = "" ∧
    (Table.get? n.functions "init_ui").map (fun f => (f.params, f.body.map (·.content))) =
      some ([], ["w = create_ui_element(\"window\")", "set_property(w, \"title\", \"a/b\")",
        "ok = create_ui_element(\"window\")", "set_property(ok, \"text\", \"OK\")",
        "add_child(w, ok)", "set_position(ok, \"top\")", "apply_style(w, \"blue\")",
        "apply_style(ok, \"blue\")", "register_event(ok, \"onclick\", function_ok now)",
        "register_event(w, \"onclose\", quit)", "register_event(w, \"onopen\", function_ok )",
        "balik tama"]) ∧
    (Table.get? n.functions "function_ok").map (fun f => (f.params, f.body.map (·.content))) =
      some ([], ["sulat \"Event onopen triggered on w\"", "balik tama"]) ∧
    Table.get? n.functions "quit" = none := by
  obtain ⟨n, hrun, hbindings, hout, herr, hfunctions⟩ := load_generate greeting (by decide)
  refine ⟨n, hrun, hbindings, hout, herr, ?_, ?_, ?_⟩
  · rw [hfunctions, if_pos rfl]
    cbv
  · rw [hfunctions, if_neg (by decide)]
    cbv
  · have hquit := hfunctions "quit"
    rw [if_neg (by decide)] at hquit
    exact Option.map_eq_none_iff.1 (hquit.trans (by cbv))

end Design

end Ui

end GzLang
