import GzLang.Proofs.Declarations
import GzLang.Proofs.Interface

/-!
# Handlers and the names of their elements

A line of an event section names an element, an event that starts with `on`, and an action. The text in front of the
colon is cut at the first `on`, which belongs to the event only if the name of the element has none. If it has one, as
`button` has, the element loses everything from there on, and the event gets it (`Attachment.read`). So the handlers of
a section are read as they were written exactly if no name of an element has an `on` in it (`handlers_read_back_iff`).
-/

namespace GzLang

namespace Text

/-- A sign that is found in a text is found there whatever follows the text. -/
theorem cutFirst_append_of_some {sign s l r : List Char} (h : cutFirst sign s = some (l, r)) (t : List Char) :
    cutFirst sign (s ++ t) = some (l, r ++ t) := by
  induction s generalizing l with
  | nil =>
    rw [cutFirst] at h
    split at h
    · rename_i hsign
      cases h
      rw [List.isEmpty_iff.1 hsign]
      cases t <;> rfl
    · cases h
  | cons c s ih =>
    rw [cutFirst] at h
    rw [List.cons_append, cutFirst]
    by_cases hfront : sign.isPrefixOf (c :: s)
    · have hsign := List.isPrefixOf_iff_prefix.1 hfront
      have hlonger : sign <+: c :: (s ++ t) := hsign.trans ⟨t, rfl⟩
      rw [if_pos hfront] at h
      cases h
      rw [if_pos (List.isPrefixOf_iff_prefix.2 hlonger), ← List.cons_append,
        List.drop_append_of_le_length hsign.length_le]
    · rw [if_neg hfront] at h
      obtain ⟨⟨l', r'⟩, hcut, hp⟩ := Option.map_eq_some_iff.1 h
      cases hp
      -- the sign fits into the rest, so it cannot start here without ending there
      have hlength : sign.length ≤ (c :: s).length := by
        have := length_of_cutFirst hcut
        rw [List.length_cons]
        omega
      have hnot : ¬ sign.isPrefixOf (c :: (s ++ t)) := fun hp => hfront <| List.isPrefixOf_iff_prefix.2 <|
        List.prefix_of_prefix_length_le (List.isPrefixOf_iff_prefix.1 hp) ⟨t, rfl⟩ hlength
      rw [if_neg hnot, ih hcut]
      rfl

theorem trim_of_isWord {s : List Char} (h : ∀ c ∈ s, isWord c) : trim s = s := by
  by_cases hs : s = []
  · rw [hs]
    rfl
  · have htrim := trim_around (u := []) (v := []) (solid_of_isWord hs h) nofun nofun
    rwa [List.append_nil] at htrim

end Text

namespace Ui

open Text

/-- A handler as it is written: an element, the type of an event, and an action. -/
structure Attachment where
  element : String
  type : String
  action : String

namespace Attachment

def handler (a : Attachment) : Handler := ⟨a.element, "on" ++ a.type, a.action⟩

def text (a : Attachment) : List Char := (a.element ++ " on" ++ a.type ++ ": " ++ a.action ++ ";").toList

/-- The handler that is read: from the first `on` in its name, the element goes to the event. -/
def read (a : Attachment) : Handler :=
  match cutFirst ['o', 'n'] a.element.toList with
  | none => a.handler
  | some (front, rest) =>
    ⟨String.ofList front, "on" ++ String.ofList (trim (rest ++ (" on" ++ a.type).toList)), a.action⟩

/-- A handler of an element and an event that are words, with an action that can stand on the line. -/
structure IsWritable (a : Attachment) : Prop where
  element : Word a.element
  type : Word a.type
  action : IsRight a.action

instance (a : Attachment) : Decidable a.IsWritable :=
  decidable_of_iff (Word a.element ∧ Word a.type ∧ IsRight a.action)
    ⟨fun h => ⟨h.1, h.2.1, h.2.2⟩, fun h => ⟨h.element, h.type, h.action⟩⟩

end Attachment

theorem handler?_trim (s : List Char) : handler? (trim s) = handler? s := by
  rw [handler?, cutFirst_trim (Solid.singleton rfl), handler?]
  cases cutFirst [':'] s with
  | none => rfl
  | some p =>
    show (cutFirst ['o', 'n'] (trim (trimLeft p.1)) >>= _) = (cutFirst ['o', 'n'] (trim p.1) >>= _)
    rw [trim_trimLeft]
    simp only [valueText_trimRight]

namespace Attachment

variable {a : Attachment}

theorem IsWritable.declares (h : a.IsWritable) : Declares a.text := by
  have htext : a.text =
      a.element.toList ++ [' '] ++ 'o' :: 'n' :: (a.type.toList ++ ':' :: ' ' :: (a.action.toList ++ [';'])) := by
    simp [text]
  have hleft : IsLeft [] a.element :=
    ⟨trim_of_isWord h.element.word, h.element.joint.2.1, h.element.inline.comment ∘ List.IsPrefix.isInfix, nofun⟩
  rw [htext]
  refine hleft.declares (by decide) rfl (by decide) ?_
  simp [h.action.oneLine, h.type.joint.2.1]

def definition (a : Attachment) : List Char := a.element.toList ++ ' ' :: (['o', 'n'] ++ a.type.toList)

theorem IsWritable.trim_definition (h : a.IsWritable) : trim a.definition = a.definition := by
  have htype : trimRight ('n' :: a.type.toList) = 'n' :: a.type.toList := by
    have hend := trimRight_append_solid (solid_of_isWord h.type.ne_nil h.type.word) ['n'] []
    rw [List.append_nil] at hend
    exact hend.trans (congrArg ('n' :: ·) (List.append_nil _))
  have hsplit : a.definition = (a.element.toList ++ [' ']) ++ 'o' :: ('n' :: a.type.toList) := by simp [definition]
  rw [hsplit, trim_append_cons rfl, trimLeft_solid_append (solid_of_isWord h.element.ne_nil h.element.word), htype]

theorem IsWritable.handler?_text (h : a.IsWritable) : handler? a.text = some a.read := by
  have htext : a.text = a.definition ++ ':' :: ' ' :: (a.action.toList ++ [';']) := by simp [text, definition]
  have hcolon : ':' ∉ a.definition := by
    have he : ':' ∉ a.element.toList := not_mem_of_class (by decide) h.element.word
    have ht : ':' ∉ a.type.toList := not_mem_of_class (by decide) h.type.word
    simp [definition, he, ht]
  rw [htext, handler?, cutFirst_char hcolon]
  show (cutFirst ['o', 'n'] (trim a.definition) >>= fun p => some (⟨String.ofList (trim p.1),
    "on" ++ String.ofList (trim p.2), valueText (' ' :: (a.action.toList ++ [';']))⟩ : Handler)) = _
  rw [h.trim_definition, h.action.valueText, read]
  cases hcut : cutFirst ['o', 'n'] a.element.toList with
  | none =>
    have hnot : ¬ ['o', 'n'] <:+: a.element.toList := fun hon => by
      have hsome := occurs_iff_infix.2 hon
      rw [occurs, hcut] at hsome
      cases hsome
    have helement : trim (a.element.toList ++ [' ']) = a.element.toList := by
      rw [trim_append_blanks (by decide), trim_of_isWord h.element.word]
    rw [definition, cutFirst_behind (by decide) hnot]
    show some (⟨String.ofList (trim (a.element.toList ++ [' '])), "on" ++ String.ofList (trim a.type.toList),
      a.action⟩ : Handler) = _
    rw [helement, trim_of_isWord h.type.word, String.ofList_toList, String.ofList_toList]
    rfl
  | some p =>
    obtain ⟨front, rest⟩ := p
    have hfront : trim front = front := trim_of_isWord fun c hc => h.element.word c <| by
      rw [eq_append_of_cutFirst hcut]
      exact List.mem_append_left _ hc
    rw [definition, cutFirst_append_of_some hcut]
    show some (⟨String.ofList (trim front),
      "on" ++ String.ofList (trim (rest ++ ' ' :: (['o', 'n'] ++ a.type.toList))), a.action⟩ : Handler) = _
    rw [hfront]
    simp

/-- A handler is read as it is meant if the name of its element has no `on` in it. -/
theorem read_eq_iff (a : Attachment) : a.read = a.handler ↔ ¬ ['o', 'n'] <:+: a.element.toList := by
  rw [← occurs_iff_infix, occurs, read]
  cases hcut : cutFirst ['o', 'n'] a.element.toList with
  | none => simp
  | some p =>
    -- the element that is read is shorter than its name
    have hshort : String.ofList p.1 ≠ a.element := fun heq => by
      have hlength := length_of_cutFirst hcut
      rw [← heq, String.toList_ofList, List.length_cons] at hlength
      omega
    simp [handler, hshort]

end Attachment

/-- However handlers are laid out with blank lines and comments among them, a section stores under its name what is
read of each, in order, and nothing else in the design changes. That is what was written if and only if no name of an
element has an `on` in it. -/
theorem handlers_read_back_iff (d : Design) (name : String) {as : List Attachment} {ls : List (List Char)}
    (has : ∀ a ∈ as, a.IsWritable) (h : Lays Attachment.text as ls) :
    d.addSection ⟨.event, name, bodyOf ls⟩ = { d with events := Table.put d.events name (as.map Attachment.read) } ∧
    (as.map Attachment.read = as.map Attachment.handler ↔ ∀ a ∈ as, ¬ ['o', 'n'] <:+: a.element.toList) := by
  have hread : handlers (bodyOf ls) = as.map Attachment.read := by
    rw [handlers, declaringLines_bodyOf h fun a ha => (has a ha).declares, List.filterMap_map, ← List.filterMap_eq_map]
    exact List.filterMap_congr fun a ha => (handler?_trim _).trans (has a ha).handler?_text
  refine ⟨by rw [Design.addSection, hread], ?_⟩
  rw [List.map_inj_left]
  exact forall₂_congr fun a _ => a.read_eq_iff

def clickLines : List (List Char) :=
  ["main_window onClose: quit;".toList, "    // say hello".toList,
    "    hello_button onClick: function_say_hello;".toList]

/-- The handler of the button is read as one of another element and another event. -/
theorem button_is_not_read_back : ({} : Design).addSection ⟨.event, "clicks", bodyOf clickLines⟩ =
      { events := [("clicks",
        [⟨"main_window", "onClose", "quit"⟩, ⟨"hello_butt", "ononClick", "function_say_hello"⟩])] } ∧
    ¬ ['o', 'n'] <:+: "main_window".toList ∧ ['o', 'n'] <:+: "hello_button".toList := by
  have hlays : Lays Attachment.text
      [⟨"main_window", "Close", "quit"⟩, ⟨"hello_button", "Click", "function_say_hello"⟩] clickLines :=
    .item (u := []) (v := []) _ (by decide) (by decide)
      (.idle (by decide) (.item (u := "    ".toList) (v := []) _ (by decide) (by decide) .nil))
  refine ⟨(handlers_read_back_iff {} "clicks" (by decide) hlays).1.trans ?_, by decide, by decide⟩
  rfl

end Ui

end GzLang
