import GzLang.Ui.Design
import GzLang.Proofs.Rewriting
import GzLang.Proofs.Tables

/-!
# Declarations that are read back

The body of a section lays out its items (`Lays`): each on a line of its own between blanks, with blank lines and
comments anywhere among them. The reader trims the body before it looks for lines; that drops blank lines only
(`trimmedLines_trim`), so the lines that declare something are those of the items (`declaringLines_bodyOf`).

A line is cut at its first sign. Blanks around the line do not matter to that (`property?_trim`, `placement?_trim`),
and what is written on the left of the sign does not have it, so properties and placements are read as they were
written (`declarations_are_read_back`).
-/

namespace GzLang

open List

variable {x : Char} {u v s sign l : List Char}

namespace Text

/-! ### The lines of a trimmed text -/

def trimmedLines (s : List Char) : List (List Char) := ((lines s).map trim).filter fun l => !l.isEmpty

theorem trimmedLines_append_break (s t : List Char) :
    trimmedLines (s ++ '\n' :: t) = trimmedLines s ++ trimmedLines t := by
  simp only [trimmedLines, lines_append_break, map_append, filter_append]

theorem trimmedLines_nil : trimmedLines [] = [] := by
  rw [trimmedLines, lines_nil]
  rfl

theorem trim_between (hu : ∀ c ∈ u, isBlank c) (hv : ∀ c ∈ v, isBlank c)
    (s : List Char) : trim (u ++ (s ++ v)) = trim s := by
  rw [← trim_trimLeft, trimLeft_blanks hu, trim_trimLeft, trim_append_blanks hv]

theorem trimmedLines_of_oneLine {t : List Char} (hs : '\n' ∉ s) (ht : '\n' ∉ t) (h : trim s = trim t) :
    trimmedLines s = trimmedLines t := by
  rw [trimmedLines, trimmedLines, lines, lines, splitAll_of_not_mem hs, splitAll_of_not_mem ht, map_singleton,
    map_singleton, h]

theorem trimmedLines_blanks_append (hu : ∀ c ∈ u, isBlank c) (s : List Char) :
    trimmedLines (u ++ s) = trimmedLines s := by
  induction u with
  | nil => rfl
  | cons c u ih =>
    rw [forall_mem_cons] at hu
    rw [cons_append, ← ih hu.2]
    by_cases hc : c = '\n'
    · subst hc
      have h := trimmedLines_append_break [] (u ++ s)
      rwa [trimmedLines_nil] at h
    · obtain ⟨l, ls, hls⟩ := exists_cons_of_ne_nil (lines_ne_nil (u ++ s))
      have hline : trim (c :: l) = trim l := by
        have h := trim_between (u := [c]) (v := []) (by simpa using hu.1) nofun l
        simpa using h
      rw [trimmedLines, trimmedLines, lines_cons hc, hls, modifyHead_cons, map_cons, map_cons, hline]

theorem trimmedLines_of_blank (hu : ∀ c ∈ u, isBlank c) : trimmedLines u = [] := by
  have h := trimmedLines_blanks_append hu []
  rwa [append_nil, trimmedLines_nil] at h

theorem trimmedLines_append_of_oneLine (hv : ∀ c ∈ v, isBlank c) (hbreak : '\n' ∉ v)
    (s : List Char) : trimmedLines (s ++ v) = trimmedLines s := by
  have hlast {l : List Char} (hl : '\n' ∉ l) : trimmedLines (l ++ v) = trimmedLines l := by
    refine trimmedLines_of_oneLine (by simp [hl, hbreak]) hl ?_
    exact trim_append_blanks hv l
  by_cases hs : '\n' ∈ s
  · -- the last line stands behind the last line feed, which is the first one from the end
    obtain ⟨l, r, hsplit, hl⟩ := eq_append_cons_of_mem (mem_reverse.2 hs)
    obtain rfl : s = r.reverse ++ '\n' :: l.reverse := by
      rw [← reverse_reverse s, hsplit]
      simp
    rw [append_assoc, cons_append, trimmedLines_append_break, trimmedLines_append_break, hlast (by simpa using hl)]
  · exact hlast hs

theorem trimmedLines_append_blanks (hv : ∀ c ∈ v, isBlank c) (s : List Char) :
    trimmedLines (s ++ v) = trimmedLines s := by
  by_cases hbreak : '\n' ∈ v
  · obtain ⟨u, r, rfl, hu⟩ := eq_append_cons_of_mem hbreak
    rw [forall_mem_append, forall_mem_cons] at hv
    rw [← append_assoc, trimmedLines_append_break, trimmedLines_of_blank hv.2.2,
      trimmedLines_append_of_oneLine hv.1 hu, append_nil]
  · exact trimmedLines_append_of_oneLine hv hbreak s

/-- Trimming a text drops blank lines only. -/
theorem trimmedLines_trim (s : List Char) : trimmedLines (trim s) = trimmedLines s := by
  have hleft : trimmedLines (trimLeft s) = trimmedLines s := by
    have hblank : ∀ c ∈ s.takeWhile isBlank, isBlank c := fun c hc => mem_takeWhile_imp hc
    have h := trimmedLines_blanks_append hblank (trimLeft s)
    rw [trimLeft, takeWhile_append_dropWhile] at h
    exact h.symm
  have hright (t : List Char) : trimmedLines (trimRight t) = trimmedLines t := by
    have hblank : ∀ c ∈ (t.reverse.takeWhile isBlank).reverse, isBlank c := fun c hc =>
      mem_takeWhile_imp (mem_reverse.1 hc)
    have h := trimmedLines_append_blanks hblank (trimRight t)
    rw [trimRight, dropEndWhile, ← reverse_append, takeWhile_append_dropWhile, reverse_reverse] at h
    exact h.symm
  rw [trim, hright, hleft]

/-! ### Signs -/

theorem trimLeft_of_trim_eq (h : trim s = s) : trimLeft s = s := by
  have hsuffix : trimLeft s <:+ s := dropWhile_suffix isBlank
  refine hsuffix.eq_of_length (Nat.le_antisymm hsuffix.length_le ?_)
  calc s.length = (trim s).length := by rw [h]
    _ ≤ (trimLeft s).length := length_dropEndWhile_le isBlank (trimLeft s)

theorem cutFirst_eq_none_of_not_infix (h : ¬ sign <:+: s) : cutFirst sign s = none :=
  Option.not_isSome_iff_eq_none.1 (mt occurs_iff_infix.1 h)

/-- A sign that does not occur before a character that it does not have is found from there on. -/
theorem cutFirst_append_of_not_isInfix (hx : x ∉ sign) (h : ¬ sign <:+: l)
    (r : List Char) : cutFirst sign (l ++ x :: r) = (cutFirst sign (x :: r)).map fun p => (l ++ p.1, p.2) := by
  induction l with
  | nil => simp
  | cons c l ih =>
    have hnot : ¬ sign.isPrefixOf (c :: l ++ x :: r) := fun hp =>
      h (prefix_of_prefix_append_cons hx (List.isPrefixOf_iff_prefix.1 hp)).isInfix
    rw [cons_append] at hnot ⊢
    rw [cutFirst, if_neg hnot, ih fun hl => h (infix_cons hl), Option.map_map]
    rfl

theorem cutFirst_behind (hx : x ∉ sign) (h : ¬ sign <:+: l) (r : List Char) :
    cutFirst sign (l ++ x :: (sign ++ r)) = some (l ++ [x], r) := by
  cases sign with
  | nil => exact absurd nil_infix h
  | cons a t =>
    have hax : a ∉ [x] := fun ha => hx (mem_singleton.1 ha ▸ mem_cons_self)
    exact (cutFirst_append_of_not_isInfix hx h _).trans (congrArg _ (cutFirst_append hax t r))

end Text

namespace Table

variable {α : Type}

/-- The last value under a name in a list of entries. -/
def lastValue? (es : List (String × α)) (k : String) : Option α := (es.filter (·.1 = k)).getLast?.map Prod.snd

theorem get?_ofList (es : List (String × α)) (k : String) : get? (ofList es) k = lastValue? es k := by
  induction es using reverseRecOn with
  | nil => rfl
  | append_singleton es e ih =>
    have hput : ofList (es ++ [e]) = put (ofList es) e.1 e.2 := by simp [ofList, merge]
    rw [hput, lastValue?, filter_append, getLast?_append]
    by_cases hk : e.1 = k
    · subst hk
      simp
    · rw [get?_put_of_ne _ hk, ih, lastValue?]
      simp [hk]

theorem keys_merge (t : Table α) (es : List (String × α)) :
    keys (merge t es) = keys t ++ ((keys es).filter (· ∉ keys t)).eraseDups := by
  induction es generalizing t with
  | nil => simp [merge, keys]
  | cons e es ih =>
    show keys (merge (put t e.1 e.2) es) = keys t ++ ((e.1 :: keys es).filter (· ∉ keys t)).eraseDups
    rw [ih, keys_put]
    by_cases he : e.1 ∈ keys t
    · simp [he]
    · simp only [he, if_false, mem_append, mem_singleton, not_or, not_false_eq_true, decide_true,
        filter_cons_of_pos, eraseDups_cons, filter_filter, append_assoc, singleton_append]
      congr 3
      refine filter_congr fun k _ => ?_
      by_cases hk : k = e.1 <;> simp [hk]

/-- The names of a table are those of its entries, in the order of their first appearance. -/
theorem keys_ofList (es : List (String × α)) : keys (ofList es) = (keys es).eraseDups := by
  rw [ofList, keys_merge]
  simp [keys]

end Table

namespace Ui

open Text

/-! ### Bodies -/

/-- A line that declares nothing: it is blank or a comment. -/
def IsIdle (l : List Char) : Prop := '\n' ∉ l ∧ (trim l = [] ∨ ['/', '/'] <+: trim l)

instance (l : List Char) : Decidable (IsIdle l) := inferInstanceAs (Decidable (_ ∧ (_ ∨ _)))

/-- A text that declares something on a line of its own. -/
structure Declares (s : List Char) : Prop where
  oneLine : '\n' ∉ s
  trim_ne_nil : trim s ≠ []
  comment : ¬ ['/', '/'] <+: trim s

def IsSpace (u : List Char) : Prop := '\n' ∉ u ∧ ∀ c ∈ u, isBlank c = true

instance (u : List Char) : Decidable (IsSpace u) := inferInstanceAs (Decidable (_ ∧ _))

/-- Lines that lay out items in order: a line for each, between blanks, and idle lines anywhere among them. -/
inductive Lays {α : Type} (write : α → List Char) : List α → List (List Char) → Prop
  | nil : Lays write [] []
  | idle {l : List Char} {as : List α} {ls : List (List Char)} (hl : IsIdle l) (h : Lays write as ls) :
    Lays write as (l :: ls)
  | item {u v : List Char} (a : α) {as : List α} {ls : List (List Char)} (hu : IsSpace u) (hv : IsSpace v)
    (h : Lays write as ls) : Lays write (a :: as) ((u ++ (write a ++ v)) :: ls)

def bodyOf (ls : List (List Char)) : List Char := intercalate ['\n'] ls

theorem trimmedLines_bodyOf {ls : List (List Char)} (h : ∀ l ∈ ls, '\n' ∉ l) :
    trimmedLines (bodyOf ls) = (ls.map trim).filter fun l => !l.isEmpty := by
  by_cases hls : ls = []
  · subst hls
    exact trimmedLines_nil
  · rw [trimmedLines, lines_eq_splitOn, bodyOf, splitOn_intercalate '\n' h hls]

theorem declaringLines_eq (body : List Char) :
    declaringLines body = (trimmedLines body).filter fun l => !startsWith ['/', '/'] l := by
  rw [← trimmedLines_trim, trimmedLines, filter_filter, declaringLines]
  simp only [Bool.and_comm]

variable {α : Type} {write : α → List Char} {as : List α} {ls : List (List Char)}

theorem Lays.oneLine (h : Lays write as ls) (has : ∀ a ∈ as, Declares (write a)) : ∀ l ∈ ls, '\n' ∉ l := by
  induction h with
  | nil => exact nofun
  | idle hl _ ih => exact forall_mem_cons.2 ⟨hl.1, ih has⟩
  | item a hu hv _ ih =>
    rw [forall_mem_cons] at has
    refine forall_mem_cons.2 ⟨?_, ih has.2⟩
    simp [hu.1, hv.1, has.1.oneLine]

/-- The lines of a body that declare something are those of its items. -/
theorem declaringLines_bodyOf (h : Lays write as ls) (has : ∀ a ∈ as, Declares (write a)) :
    declaringLines (bodyOf ls) = as.map fun a => trim (write a) := by
  rw [declaringLines_eq, trimmedLines_bodyOf (h.oneLine has), filter_filter]
  induction h with
  | nil => rfl
  | @idle l _ _ hl _ ih =>
    have hdrop : (!startsWith ['/', '/'] (trim l) && !(trim l).isEmpty) = false := by
      rcases hl.2 with hblank | hcomment
      · simp [hblank]
      · simp [startsWith, isPrefixOf_iff_prefix.2 hcomment]
    rw [map_cons, filter_cons_of_neg (by simp [hdrop]), ih has]
  | item a hu hv _ ih =>
    rw [forall_mem_cons] at has
    have hkeep : (!startsWith ['/', '/'] (trim (write a)) && !(trim (write a)).isEmpty) := by
      have hcomment : ¬ ['/', '/'].isPrefixOf (trim (write a)) := mt isPrefixOf_iff_prefix.1 has.1.comment
      simp [startsWith, hcomment, has.1.trim_ne_nil]
    rw [map_cons, trim_between hu.2 hv.2, filter_cons_of_pos (by exact hkeep), ih has.2, map_cons]

/-! ### Values -/

/-- A text that can stand in front of a sign: it is trimmed, on one line, no comment, and has none of the signs. -/
structure IsLeft (signs : List (List Char)) (s : String) : Prop where
  trimmed : trim s.toList = s.toList
  oneLine : '\n' ∉ s.toList
  comment : ¬ ['/', '/'] <+: s.toList
  sign : ∀ sign ∈ signs, ¬ sign <:+: s.toList

instance (signs : List (List Char)) (s : String) : Decidable (IsLeft signs s) :=
  decidable_of_iff (trim s.toList = s.toList ∧ '\n' ∉ s.toList ∧ ¬ ['/', '/'] <+: s.toList ∧
    ∀ sign ∈ signs, ¬ sign <:+: s.toList)
    ⟨fun h => ⟨h.1, h.2.1, h.2.2.1, h.2.2.2⟩, fun h => ⟨h.trimmed, h.oneLine, h.comment, h.sign⟩⟩

/-- A text that can stand behind a sign: it is trimmed, on one line, and does not end with a semicolon. -/
structure IsRight (s : String) : Prop where
  trimmed : trim s.toList = s.toList
  oneLine : '\n' ∉ s.toList
  semicolon : s.toList.getLast? ≠ some ';'

instance (s : String) : Decidable (IsRight s) :=
  decidable_of_iff (trim s.toList = s.toList ∧ '\n' ∉ s.toList ∧ s.toList.getLast? ≠ some ';')
    ⟨fun h => ⟨h.1, h.2.1, h.2.2⟩, fun h => ⟨h.trimmed, h.oneLine, h.semicolon⟩⟩

theorem IsRight.valueText {s : String} (h : IsRight s) : valueText (' ' :: (s.toList ++ [';'])) = s := by
  have htrim : trim (' ' :: (s.toList ++ [';'])) = s.toList ++ [';'] := by
    have hleft : trimLeft (' ' :: s.toList) = s.toList := trimLeft_of_trim_eq h.trimmed
    have hcons := trim_append_cons (c := ';') rfl (' ' :: s.toList) []
    rw [hleft] at hcons
    exact hcons
  have hdrop : dropEndWhile (· = ';') (s.toList ++ [';']) = s.toList := by
    have hlast := h.semicolon
    rw [dropEndWhile, reverse_append]
    rcases hs : s.toList.reverse with _ | ⟨c, t⟩
    · rw [reverse_eq_nil_iff.1 hs]
      rfl
    · rw [getLast?_eq_head?_reverse, hs] at hlast
      have hc : c ≠ ';' := fun heq => hlast (by rw [heq]; rfl)
      rw [← reverse_reverse s.toList, hs]
      simp [hc]
  rw [Ui.valueText, htrim, hdrop, String.ofList_toList]

theorem valueText_trimRight (s : List Char) : valueText (trimRight s) = valueText s := by
  rw [valueText, trim_trimRight, valueText]

/-- What stands in front of a sign makes no comment of the line. -/
theorem IsLeft.declares {signs : List (List Char)} {s : String} (hs : IsLeft signs s) {r : List Char}
    (hu : IsSpace u) (hx : isBlank x = false) (hslash : x ≠ '/') (hr : '\n' ∉ x :: r) :
    Declares (s.toList ++ u ++ x :: r) where
  oneLine := by simp [hs.oneLine, hu.1, hr]
  trim_ne_nil := by
    rw [trim_append_cons hx]
    simp
  comment := by
    rw [trim_append_cons hx]
    intro hcomment
    have hfront := prefix_of_prefix_append_cons (by simpa using hslash) hcomment
    have htrim : trimRight (trimLeft (s.toList ++ u)) = s.toList :=
      (trim_append_blanks hu.2 s.toList).trans hs.trimmed
    have hsame := isPrefixOf_trimRight (Solid.pair (c := '/') (d := '/') rfl rfl) (trimLeft (s.toList ++ u))
    rw [htrim, isPrefixOf_iff_prefix.2 hfront] at hsame
    exact hs.comment (List.isPrefixOf_iff_prefix.1 hsame)

/-! ### Properties -/

def propertyText (p : String × String) : List Char := (p.1 ++ ": " ++ p.2 ++ ";").toList

def IsProperty (p : String × String) : Prop := IsLeft [[':']] p.1 ∧ IsRight p.2

instance (p : String × String) : Decidable (IsProperty p) := inferInstanceAs (Decidable (_ ∧ _))

theorem propertyText_eq (p : String × String) :
    propertyText p = p.1.toList ++ [] ++ ':' :: ' ' :: (p.2.toList ++ [';']) := by simp [propertyText]

theorem property?_trim (s : List Char) : property? (trim s) = property? s := by
  rw [property?, cutFirst_trim (Solid.singleton rfl), Option.map_map, property?]
  congr 1
  funext p
  simp [valueText_trimRight]

namespace IsProperty

variable {p : String × String} (h : IsProperty p)

include h

theorem declares : Declares (propertyText p) := by
  rw [propertyText_eq]
  refine h.1.declares ⟨not_mem_nil, nofun⟩ rfl (by decide) ?_
  simp [h.2.oneLine]

theorem property?_eq : property? (propertyText p) = some p := by
  have hcolon : ':' ∉ p.1.toList := fun hmem =>
    h.1.sign _ (mem_singleton_self _) (singleton_infix_iff _ _ |>.2 hmem)
  rw [property?, propertyText_eq, append_nil, cutFirst_char hcolon, Option.map_some]
  dsimp only
  rw [h.2.valueText, h.1.trimmed, String.ofList_toList]

end IsProperty

/-- What is read of properties is what was written, a later value taking the place of an earlier one. -/
theorem properties_bodyOf {ps : List (String × String)} (hps : ∀ p ∈ ps, IsProperty p)
    (h : Lays propertyText ps ls) : properties (bodyOf ls) = Table.ofList ps := by
  rw [properties, declaringLines_bodyOf h fun p hp => (hps p hp).declares, filterMap_map]
  congr 1
  calc ps.filterMap (property? ∘ fun p => trim (propertyText p)) = ps.filterMap some :=
        filterMap_congr fun p hp => (property?_trim _).trans (hps p hp).property?_eq
    _ = ps := filterMap_some

/-! ### Placements -/

def Placement.text : Placement → List Char
  | .child p c => (p ++ " -> " ++ c ++ ";").toList
  | .position e p => (e ++ " @ " ++ p ++ ";").toList
  | .other _ => []

def Placement.IsWritable : Placement → Prop
  | .child p c => IsLeft [['-', '>']] p ∧ IsRight c
  | .position e p => IsLeft [['-', '>'], ['@']] e ∧ IsRight p ∧ ¬ ['-', '>'] <:+: p.toList
  | .other _ => False

theorem placement?_trim (s : List Char) : placement? (trim s) = placement? s := by
  rw [placement?, cutFirst_trim (Solid.pair rfl rfl), cutFirst_trim (Solid.singleton rfl), placement?]
  cases cutFirst ['-', '>'] s with
  | some p => simp [valueText_trimRight]
  | none =>
    rw [Option.map_none]
    dsimp only
    rw [Option.map_map]
    congr 1
    funext p
    simp [valueText_trimRight]

namespace Placement.IsWritable

variable {a : Placement} (h : a.IsWritable)

include h

theorem declares : Declares a.text := by
  cases a with
  | child p c =>
    have htext : text (.child p c) = p.toList ++ [' '] ++ '-' :: '>' :: ' ' :: (c.toList ++ [';']) := by simp [text]
    rw [htext]
    refine h.1.declares (by decide) rfl (by decide) ?_
    simp [h.2.oneLine]
  | position e p =>
    have htext : text (.position e p) = e.toList ++ [' '] ++ '@' :: ' ' :: (p.toList ++ [';']) := by simp [text]
    rw [htext]
    refine h.1.declares (by decide) rfl (by decide) ?_
    simp [h.2.1.oneLine]
  | other v => exact h.elim

omit h in
theorem cutFirst_arrow {e p : String} (h : IsWritable (.position e p)) :
    cutFirst ['-', '>'] (text (.position e p)) = none := by
  have htext : text (.position e p) = e.toList ++ ([' ', '@', ' '] ++ (p.toList ++ ';' :: [])) := by simp [text]
  refine cutFirst_eq_none_of_not_infix fun harrow => ?_
  rw [htext] at harrow
  rcases infix_of_infix_append_append (by decide) (by decide) harrow with he | hp
  · exact h.1.sign _ mem_cons_self he
  · rcases infix_of_infix_append_cons (by decide) hp with hp | hnil
    · exact h.2.2 hp
    · cases infix_nil.1 hnil

theorem placement?_eq : placement? a.text = some a := by
  have hleft {signs : List (List Char)} {s : String} (hs : IsLeft signs s) :
      String.ofList (trim (s.toList ++ [' '])) = s := by
    rw [trim_append_blanks (by decide), hs.trimmed, String.ofList_toList]
  cases a with
  | child p c =>
    have htext : text (.child p c) = p.toList ++ ' ' :: (['-', '>'] ++ ' ' :: (c.toList ++ [';'])) := by simp [text]
    have harrow : ¬ ['-', '>'] <:+: p.toList := h.1.sign _ (mem_singleton_self _)
    rw [htext, placement?, cutFirst_behind (by decide) harrow]
    dsimp only
    rw [hleft h.1, h.2.valueText]
  | position e p =>
    have htext : text (.position e p) = e.toList ++ ' ' :: (['@'] ++ ' ' :: (p.toList ++ [';'])) := by simp [text]
    have hat : ¬ ['@'] <:+: e.toList := h.1.sign _ (by simp)
    rw [placement?, cutFirst_arrow h, htext, cutFirst_behind (by decide) hat]
    dsimp only [Option.map_some]
    rw [hleft h.1, h.2.1.valueText]
  | other v => exact h.elim

end Placement.IsWritable

theorem placements_bodyOf {as : List Placement} (has : ∀ a ∈ as, a.IsWritable) (h : Lays Placement.text as ls) :
    placements (bodyOf ls) = as := by
  rw [placements, declaringLines_bodyOf h fun a ha => (has a ha).declares, filterMap_map]
  calc as.filterMap (placement? ∘ fun a => trim a.text) = as.filterMap some :=
        filterMap_congr fun a ha => (placement?_trim _).trans (has a ha).placement?_eq
    _ = as := filterMap_some

/-! ### Sections -/

/-- A table has the names of some entries in the order of their first appearance, each with its last value. -/
structure HasLatest (ps : List (String × String)) (t : Table String) : Prop where
  keys : t.keys = (ps.map Prod.fst).eraseDups
  get? : ∀ k, t.get? k = Table.lastValue? ps k

/-- However properties are laid out with blank lines and comments among them, a section of an element or a style
stores under its name the last value of each, in the order of first appearance; and a section of a layout stores its
placements in order. Nothing else in the design changes. -/
theorem declarations_are_read_back (d : Design) (name : String) :
    (∀ ps ls, (∀ p ∈ ps, IsProperty p) → Lays propertyText ps ls → ∃ t, HasLatest ps t ∧
      d.addSection ⟨.element, name, bodyOf ls⟩ = { d with elements := Table.put d.elements name t } ∧
      d.addSection ⟨.style, name, bodyOf ls⟩ = { d with styles := Table.put d.styles name t }) ∧
    ∀ as ls, (∀ a ∈ as, a.IsWritable) → Lays Placement.text as ls →
      d.addSection ⟨.layout, name, bodyOf ls⟩ = { d with layouts := Table.put d.layouts name as } := by
  constructor
  · intro ps ls hps h
    have hread := properties_bodyOf hps h
    refine ⟨Table.ofList ps, ⟨Table.keys_ofList ps, Table.get?_ofList ps⟩, ?_, ?_⟩
    · rw [← hread]
      rfl
    · rw [← hread]
      rfl
  · intro as ls has h
    have hread := placements_bodyOf has h
    rw [Design.addSection, hread]

def buttonLines : List (List Char) :=
  ["  // a button".toList, "type: button;".toList, "".toList, "\ttext: a: b -> c; ".toList, "type: window;".toList]

def frameLines : List (List Char) := ["main-window -> b;".toList, " ".toList, " @ center;".toList, "//x @ y;".toList]

theorem button_and_frame_are_read_back : (∃ t, Table.keys t = ["type", "text"] ∧ Table.get? t "type" = some "window" ∧
      Table.get? t "text" = some "a: b -> c" ∧
      ({} : Design).addSection ⟨.element, "button", bodyOf buttonLines⟩ = { elements := [("button", t)] }) ∧
    ({} : Design).addSection ⟨.layout, "frame", bodyOf frameLines⟩ =
      { layouts := [("frame", [.child "main-window" "b", .position "" "center"])] } := by
  have hbutton : Lays propertyText [("type", "button"), ("text", "a: b -> c"), ("type", "window")] buttonLines :=
    .idle (by decide) (.item (u := []) (v := []) _ (by decide) (by decide) (.idle (by decide)
      (.item (u := ['\t']) (v := [' ']) _ (by decide) (by decide)
        (.item (u := []) (v := []) _ (by decide) (by decide) .nil))))
  have hframe : Lays Placement.text [.child "main-window" "b", .position "" "center"] frameLines :=
    .item (u := []) (v := []) _ (by decide) (by decide) (.idle (by decide)
      (.item (u := []) (v := []) _ (by decide) (by decide) (.idle (by decide) .nil)))
  obtain ⟨t, ht, helement, -⟩ := (declarations_are_read_back {} "button").1 _ _ (by decide) hbutton
  refine ⟨⟨t, ht.keys, ht.get? "type", ht.get? "text", helement⟩, ?_⟩
  refine (declarations_are_read_back {} "frame").2 _ _ ?_ hframe
  simp only [List.forall_mem_cons, Placement.IsWritable]
  exact ⟨by decide, by decide, nofun⟩

end Ui

end GzLang
