import GzLang.Proofs.Text
import GzLang.Ui.Design

/-!
# Sections are extracted and removed exactly

A source is written as characters and sections (`written`). Every keyword starts with the marker
`ui_`. If neither the names nor the bodies of the sections have the marker in them, nor the
characters between the sections put together, then the marker occurs only where a section starts. So
the recogniser of a kind finds the sections of this kind and nothing else (`segments_written`), and
what it removes are these sections. What is left is of the same form, as the condition is on the
characters put together. Hence the kinds can be removed one after the other (`removeAll_written`).
-/

namespace GzLang

open List

variable {s r p : List Char}

/-! ### Recognisers in a text -/

namespace Text

variable {α : Type} {find : Recogniser α}

theorem segments_of_none {c : Char} (h : find (c :: s) = none) :
    segments find (c :: s) = .char c :: segments find s := by
  rw [segments, h]

theorem segments_of_some {a : α} (h : find s = some (a, r))
    (hr : r.length < s.length) : segments find s = .found a :: segments find r := by
  cases s with
  | nil => cases hr
  | cons c t =>
    rw [segments, h]
    exact dif_pos hr

theorem segments_append {t : List Char} (h : ∀ u v, u ++ v = t → v ≠ [] → find (v ++ s) = none) :
    segments find (t ++ s) = t.map .char ++ segments find s := by
  induction t with
  | nil => rfl
  | cons c t ih =>
    have hnone : find (c :: (t ++ s)) = none := h [] (c :: t) rfl (cons_ne_nil c t)
    rw [cons_append, segments_of_none hnone, ih fun u v huv => h (c :: u) v (by rw [← huv]; rfl)]
    rfl

theorem literal?_append (p s : List Char) : literal? p (p ++ s) = some s := by
  rw [literal?, if_pos (List.isPrefixOf_iff_prefix.2 (prefix_append p s)), drop_left]

theorem prefix_of_literal? (h : literal? p s = some r) : p <+: s := by
  rw [literal?] at h
  split at h
  · exact isPrefixOf_iff_prefix.1 ‹_›
  · cases h

theorem many1?_append {p : Char → Bool} {a : List Char} (hne : a ≠ []) (ha : ∀ c ∈ a, p c)
    {d : Char} (hd : p d = false) (s : List Char) : many1? p (a ++ d :: s) = some (a, d :: s) := by
  rw [many1?, takeWhile_append_of_pos ha, dropWhile_append_of_pos ha,
    takeWhile_cons_of_neg (by simp [hd]), dropWhile_cons_of_neg (by simp [hd])]
  simp [hne]

end Text

open Text

namespace Ui

variable {k : SectionKind}

/-! ### Sections as they are written -/

def marker : List Char := "ui_".toList

theorem SectionKind.marker_prefix (k : SectionKind) : marker <+: k.keyword.toList := by
  cases k <;> decide

theorem SectionKind.marker_not_infix_tail (k : SectionKind) : ¬ marker <:+: k.keyword.toList.tail := by
  cases k <;> decide

theorem SectionKind.eq_of_keyword_prefix {k' : SectionKind}
    (h : k.keyword.toList <+: k'.keyword.toList ++ s) : k = k' := by
  have hkeyword := isPrefixOf_iff_prefix.2 h
  cases k <;> cases k' <;> first | rfl | exact Bool.noConfusion hkeyword

structure WrittenSection where
  kind : SectionKind
  gap : List Char
  name : List Char
  space : List Char
  body : List Char
  gap_ne : gap ≠ []
  gap_blank : ∀ c ∈ gap, isBlank c = true
  name_ne : name ≠ []
  name_word : ∀ c ∈ name, isWord c = true
  space_blank : ∀ c ∈ space, isBlank c = true
  body_closed : '\x7d' ∉ body

namespace WrittenSection

variable (w : WrittenSection)

def toSection : Section := ⟨w.kind, String.ofList w.name, w.body⟩

def opened : List Char :=
  w.kind.keyword.toList ++ (w.gap ++ (w.name ++ (w.space ++ '\x7b' :: w.body)))

def text : List Char := w.opened ++ ['\x7d']

theorem text_append (rest : List Char) : w.text ++ rest = w.kind.keyword.toList ++
    (w.gap ++ (w.name ++ (w.space ++ '\x7b' :: (w.body ++ '\x7d' :: rest)))) := by
  simp [text, opened]

theorem front?_text (rest : List Char) : Section.front? w.kind (w.text ++ rest) = some (w.toSection, rest) := by
  have hgap (s : List Char) : many1? isBlank (w.gap ++ (w.name ++ s)) = some (w.gap, w.name ++ s) := by
    obtain ⟨c, n, hn⟩ := exists_cons_of_ne_nil w.name_ne
    have hc : isBlank c = false := isBlank_of_isWord (w.name_word c (by simp [hn]))
    rw [hn]
    exact many1?_append w.gap_ne w.gap_blank hc _
  have hname (s : List Char) : many1? isWord (w.name ++ (w.space ++ '\x7b' :: s)) =
      some (w.name, w.space ++ '\x7b' :: s) := by
    cases hs : w.space with
    | nil => exact many1?_append w.name_ne w.name_word (by decide) s
    | cons c r =>
      have hc : isWord c = false := by
        have hblank := w.space_blank c (by simp [hs])
        by_contra hword
        rw [isBlank_of_isWord (by simpa using hword)] at hblank
        cases hblank
      exact many1?_append w.name_ne w.name_word hc _
  have hspace (s : List Char) : (w.space ++ '\x7b' :: s).dropWhile isBlank = '\x7b' :: s := by
    rw [dropWhile_append_of_pos w.space_blank, dropWhile_cons_of_neg (by decide)]
  have hbody : ∀ c ∈ w.body, decide (c ≠ '\x7d') := fun c hc =>
    decide_eq_true fun h => w.body_closed (h ▸ hc)
  rw [text_append, Section.front?, literal?_append]
  simp only [Option.bind_eq_bind, Option.bind_some, hgap, hname, hspace]
  rw [show ∀ s, literal? ['\x7b'] ('\x7b' :: s) = some s from literal?_append ['\x7b']]
  simp only [Option.bind_some]
  rw [takeWhile_append_of_pos hbody, dropWhile_append_of_pos hbody,
    takeWhile_cons_of_neg (by simp), dropWhile_cons_of_neg (by simp),
    show literal? ['\x7d'] ('\x7d' :: rest) = some rest from literal?_append ['\x7d'] rest,
    append_nil]
  rfl

end WrittenSection

theorem Section.keyword_prefix_of_front? {r : Section × List Char}
    (h : Section.front? k s = some r) : k.keyword.toList <+: s := by
  rw [Section.front?] at h
  cases hl : literal? k.keyword.toList s with
  | none =>
    rw [hl] at h
    cases h
  | some t => exact prefix_of_literal? hl

theorem Section.front?_eq_none (h : ¬ marker <+: s) (k : SectionKind) : Section.front? k s = none := by
  cases hf : Section.front? k s with
  | none => rfl
  | some r => exact absurd (k.marker_prefix.trans (keyword_prefix_of_front? hf)) h

namespace WrittenSection

/-- Neither the name nor the body has the marker in it. -/
structure Clean (w : WrittenSection) : Prop where
  name : ¬ marker <:+: w.name
  body : ¬ marker <:+: w.body

variable {w : WrittenSection}

/-- The marker occurs in a clean section only at its start. -/
theorem Clean.not_infix_tail (h : w.Clean) : ¬ marker <:+: w.opened.tail := by
  have hblank {c : Char} (hc : isBlank c) : c ∉ marker := by
    intro hmem
    have hword : ∀ c ∈ marker, isBlank c = false := by decide
    rw [hword c hmem] at hc
    cases hc
  have htail : w.opened.tail = w.kind.keyword.toList.tail ++
      (w.gap ++ (w.name ++ ((w.space ++ ['\x7b']) ++ w.body))) := by
    rw [opened, tail_append_of_ne_nil (by cases w.kind <;> decide)]
    simp
  have hopen : ∀ c ∈ w.space ++ ['\x7b'], c ∉ marker := by
    intro c hc
    rcases mem_append.1 hc with hc | hc
    · exact hblank (w.space_blank c hc)
    · rw [mem_singleton.1 hc]
      decide
  intro hmarker
  rw [htail] at hmarker
  rcases infix_of_infix_append_append w.gap_ne (fun c hc => hblank (w.gap_blank c hc)) hmarker with
    hkeyword | hrest
  · exact w.kind.marker_not_infix_tail hkeyword
  · rcases infix_of_infix_append_append (by simp) hopen hrest with hname | hbody
    · exact h.name hname
    · exact h.body hbody

/-- The recogniser of another kind finds nothing in a section. -/
theorem Clean.segments_text_append (h : w.Clean) (hk : w.kind ≠ k)
    (rest : List Char) : segments (Section.front? k) (w.text ++ rest) =
      w.text.map .char ++ segments (Section.front? k) rest := by
  refine segments_append fun u v huv hv => ?_
  cases u with
  | nil =>
    rw [← nil_append v, huv]
    cases hf : Section.front? k (w.text ++ rest) with
    | none => rfl
    | some r =>
      have hkeyword := Section.keyword_prefix_of_front? hf
      rw [text_append] at hkeyword
      exact absurd (SectionKind.eq_of_keyword_prefix hkeyword).symm hk
  | cons c u =>
    refine Section.front?_eq_none (fun hmarker => h.not_infix_tail ?_) k
    -- the text ends with a brace, which the marker does not have
    obtain ⟨v, d, rfl⟩ := (v.eq_nil_or_concat).resolve_left hv
    rw [concat_eq_append] at huv hmarker
    rw [← append_assoc, text] at huv
    obtain ⟨hopened, hd⟩ := append_inj' huv rfl
    obtain ⟨rfl, -⟩ := List.cons.inj hd
    rw [append_assoc] at hmarker
    have hprefix : marker <+: v := prefix_of_prefix_append_cons (by decide) hmarker
    rw [← hopened]
    exact hprefix.isInfix.trans (suffix_append u v).isInfix

end WrittenSection

/-! ### Sources -/

open WrittenSection

/-- The text of a source that is written as characters and sections. -/
def written (doc : List (Text.Segment WrittenSection)) : List Char :=
  doc.flatMap fun
    | .found w => w.text
    | .char c => [c]

def plain (doc : List (Text.Segment WrittenSection)) : List Char :=
  doc.flatMap fun
    | .found _ => []
    | .char c => [c]

def sections (doc : List (Text.Segment WrittenSection)) : List WrittenSection :=
  doc.filterMap fun
    | .found w => some w
    | .char _ => none

/-- The marker occurs only where a section starts. -/
structure Clean (doc : List (Text.Segment WrittenSection)) : Prop where
  clean : ∀ w ∈ sections doc, w.Clean
  unmarked : ¬ marker <:+: plain doc

variable {doc : List (Text.Segment WrittenSection)}

theorem Clean.of_cons {s : Text.Segment WrittenSection} (h : Clean (s :: doc)) : Clean doc := by
  cases s with
  | found w => exact ⟨fun v hv => h.clean v (mem_cons_of_mem w hv), h.unmarked⟩
  | char c => exact ⟨h.clean, fun hmarker => h.unmarked (infix_cons hmarker)⟩

/-- A text at the front of a source that cannot be at the front of a section is outside of them. -/
theorem prefix_plain (hp : 'u' ∉ p) (h : p <+: written doc) : p <+: plain doc := by
  induction doc generalizing p with
  | nil => exact h
  | cons s doc ih =>
    cases p with
    | nil => exact nil_prefix
    | cons d p =>
      rw [mem_cons, not_or] at hp
      cases s with
      | char c =>
        obtain ⟨rfl, hrest⟩ := cons_prefix_cons.1 h
        exact cons_prefix_cons.2 ⟨rfl, ih hp.2 hrest⟩
      | found w =>
        obtain ⟨t, ht⟩ : ∃ t, w.text = 'u' :: t := by
          rw [text, opened]
          cases w.kind <;> exact ⟨_, rfl⟩
        have hfront : d :: p <+: 'u' :: (t ++ written doc) := by
          rw [← cons_append, ← ht]
          exact h
        exact absurd (cons_prefix_cons.1 hfront).1.symm hp.1

theorem Clean.not_marker_prefix {c : Char} (h : Clean (.char c :: doc)) : ¬ marker <+: c :: written doc := by
  intro hmarker
  obtain ⟨rfl, hrest⟩ := cons_prefix_cons.1 hmarker
  have hplain : marker <+: plain (.char 'u' :: doc) := cons_prefix_cons.2 ⟨rfl, prefix_plain (by decide) hrest⟩
  exact h.unmarked hplain.isInfix

/-- How the recogniser of a kind sees a part of a source. -/
def seen (k : SectionKind) : Text.Segment WrittenSection → List (Text.Segment Section)
  | .found w => if w.kind = k then [.found w.toSection] else w.text.map .char
  | .char c => [.char c]

/-- The recogniser of a kind finds the sections of this kind. -/
theorem segments_written (k : SectionKind) (h : Clean doc) :
    segments (Section.front? k) (written doc) = doc.flatMap (seen k) := by
  induction doc with
  | nil => rw [written, flatMap_nil, segments, flatMap_nil]
  | cons s doc ih =>
    have ih := ih h.of_cons
    rw [flatMap_cons]
    cases s with
    | char c =>
      change segments _ (c :: written doc) = _
      rw [segments_of_none (Section.front?_eq_none h.not_marker_prefix k), ih]
      rfl
    | found w =>
      change segments _ (w.text ++ written doc) = _
      rw [seen]
      split
      next hk =>
        subst hk
        have hlen : (written doc).length < (w.text ++ written doc).length := by
          rw [text, length_append, length_append, length_singleton]
          omega
        rw [segments_of_some (w.front?_text _) hlen, ih]
        rfl
      next hk =>
        have hw : w.Clean := h.clean w (mem_cons_self ..)
        rw [hw.segments_text_append hk, ih]

/-- All sections of a kind are found, in the order in which they are written. -/
theorem findAll_written (k : SectionKind) (h : Clean doc) : findAll (Section.front? k) (written doc) =
      ((sections doc).map toSection).filter (·.kind = k) := by
  rw [findAll, segments_written k h]
  clear h
  induction doc with
  | nil => rfl
  | cons s doc ih =>
    rw [flatMap_cons, filterMap_append, ih]
    cases s with
    | char c => rfl
    | found w =>
      by_cases hk : w.kind = k
      · simp [seen, sections, toSection, hk]
      · simp [seen, sections, toSection, hk, filterMap_map]

def remains (k : SectionKind) : Text.Segment WrittenSection → Bool
  | .found w => w.kind ≠ k
  | .char _ => true

theorem removeFound_written (k : SectionKind) (h : Clean doc) :
    removeFound (Section.front? k) (written doc) = written (doc.filter (remains k)) := by
  rw [removeFound, replaceFound, segments_written k h]
  clear h
  induction doc with
  | nil => rfl
  | cons s doc ih =>
    rw [flatMap_cons, flatMap_append, ih]
    cases s with
    | char c => rfl
    | found w =>
      by_cases hk : w.kind = k
      · simp [seen, written, remains, hk]
      · simp [seen, written, remains, hk, flatMap_map]

theorem plain_filter_remains (k : SectionKind) (doc : List (Text.Segment WrittenSection)) :
    plain (doc.filter (remains k)) = plain doc := by
  induction doc with
  | nil => rfl
  | cons s doc ih =>
    cases s with
    | char c =>
      change c :: plain (doc.filter (remains k)) = c :: plain doc
      rw [ih]
    | found w =>
      change _ = plain doc
      rw [← ih, filter_cons]
      split <;> rfl

theorem Clean.filter_remains (h : Clean doc) (k : SectionKind) : Clean (doc.filter (remains k)) where
  clean w hw := by
    obtain ⟨s, hs, hsw⟩ := mem_filterMap.1 hw
    exact h.clean w (mem_filterMap.2 ⟨s, mem_of_mem_filter hs, hsw⟩)
  unmarked := by
    rw [plain_filter_remains]
    exact h.unmarked

theorem foldl_removeFound_written (ks : List SectionKind) (h : Clean doc) :
    ks.foldl (fun code k => removeFound (Section.front? k) code) (written doc) =
      written (doc.filter fun s => ks.all (remains · s)) := by
  induction ks generalizing doc with
  | nil => simp
  | cons k ks ih =>
    rw [foldl_cons, removeFound_written k h, ih (h.filter_remains k), filter_filter]
    congr 1
    exact filter_congr fun s _ => by rw [all_cons, Bool.and_comm]

/-- Without its sections, a source is what stands outside of them. -/
theorem removeAll_written (h : Clean doc) : Section.removeAll (written doc) = plain doc := by
  rw [Section.removeAll, foldl_removeFound_written _ h]
  clear h
  induction doc with
  | nil => rfl
  | cons s doc ih =>
    cases s with
    | char c =>
      change c :: written _ = c :: plain doc
      rw [ih]
    | found w =>
      have hk : (SectionKind.all.all fun k => remains k (.found w)) = false := by
        simp only [remains]
        cases w.kind <;> rfl
      rw [filter_cons_of_neg (by simp [hk]), ih]
      rfl

/-! ### Texts with sections between them -/

/-- A text, followed by sections with texts behind them. -/
def assemble (t : List Char) (parts : List (WrittenSection × List Char)) :
    List (Text.Segment WrittenSection) :=
  t.map .char ++ parts.flatMap fun p => .found p.1 :: p.2.map .char

theorem written_assemble (t : List Char) (parts : List (WrittenSection × List Char)) :
    written (assemble t parts) = t ++ parts.flatMap fun p => p.1.text ++ p.2 := by
  simp [written, assemble, flatMap_map, flatMap_assoc]

theorem plain_assemble (t : List Char) (parts : List (WrittenSection × List Char)) :
    plain (assemble t parts) = t ++ parts.flatMap (·.2) := by
  simp [plain, assemble, flatMap_map, flatMap_assoc]

theorem sections_assemble (t : List Char) (parts : List (WrittenSection × List Char)) :
    sections (assemble t parts) = parts.map (·.1) := by
  have hmap : parts.flatMap (fun p => [p.1]) = parts.map (·.1) := map_eq_flatMap.symm
  simp [sections, assemble, filterMap_map, filterMap_flatMap, hmap]

/-- **Sections are extracted and removed exactly.** Let a source consist of one or more sections
without the marker in their names and bodies, and of texts around them, and let the marker not occur
in the texts put together. Then exactly these sections are extracted, the elements first, then the
layouts, the styles and the events, each in the order of the source. The compiled program is the
texts put together, followed by what is generated from these sections. -/
theorem compile_of_sections (t : List Char) (parts : List (WrittenSection × List Char))
    (hparts : parts ≠ []) (hclean : ∀ p ∈ parts, p.1.Clean)
    (hmarker : ¬ marker <:+: t ++ parts.flatMap (·.2)) (d : Design) :
    let code := String.ofList (t ++ parts.flatMap fun p => p.1.text ++ p.2)
    let found := SectionKind.all.flatMap fun k =>
      (parts.map fun p => p.1.toSection).filter (·.kind = k)
    let d' := found.foldl Design.addSection { d with source := code }
    Section.extract code.toList = found ∧ d.compile code =
        (⟨String.ofList (t ++ parts.flatMap (·.2)) ++ "\n\n" ++ d'.generate, d'⟩, d') := by
  intro code found d'
  have hcode : code.toList = written (assemble t parts) := by
    rw [written_assemble]
    exact String.toList_ofList
  have hdoc : Clean (assemble t parts) := by
    refine ⟨fun w hw => ?_, by rwa [plain_assemble]⟩
    rw [sections_assemble] at hw
    obtain ⟨p, hp, rfl⟩ := List.mem_map.1 hw
    exact hclean p hp
  have hextract : Section.extract code.toList = found := by
    rw [Section.extract, hcode]
    simp only [findAll_written _ hdoc, sections_assemble, List.map_map]
    rfl
  have hfound : found ≠ [] := by
    obtain ⟨p, ps, rfl⟩ := List.exists_cons_of_ne_nil hparts
    have hmem : p.1.toSection ∈ found := by
      refine List.mem_flatMap.2 ⟨p.1.kind, by cases p.1.kind <;> decide, ?_⟩
      exact List.mem_filter.2 ⟨List.mem_cons_self .., decide_eq_true rfl⟩
    exact List.ne_nil_of_mem hmem
  have hreplace : Design.replaceSections code d'.generate =
      String.ofList (t ++ parts.flatMap (·.2)) ++ "\n\n" ++ d'.generate := by
    rw [Design.replaceSections, hcode, removeAll_written hdoc, plain_assemble]
  refine ⟨hextract, ?_⟩
  rw [← hreplace, Design.compile, hextract, if_neg (by simpa using hfound)]

def blueStyle : WrittenSection where
  kind := .style
  gap := [' ']
  name := "blue".toList
  space := [' ']
  body := " color: blue ".toList
  gap_ne := by decide
  gap_blank := by decide
  name_ne := by decide
  name_word := by decide
  space_blank := by decide
  body_closed := by decide

def buttonElement : WrittenSection where
  kind := .element
  gap := "\t\n".toList
  name := "ok".toList
  space := []
  body := "\n  type: button \x7b\n".toList
  gap_ne := by decide
  gap_blank := by decide
  name_ne := by decide
  name_word := by decide
  space_blank := by decide
  body_closed := by decide

/-- The element comes first, and the texts around the sections are joined. -/
theorem compile_of_blueStyle_buttonElement :
    let t := "u".toList
    let parts := [(blueStyle, "ni_".toList), (buttonElement, "\n".toList)]
    let code := String.ofList (t ++ parts.flatMap fun p => p.1.text ++ p.2)
    let found := [buttonElement.toSection, blueStyle.toSection]
    let d' := found.foldl Design.addSection { source := code }
    Section.extract code.toList = found ∧ Design.compile {} code = (⟨"uni_\n" ++ "\n\n" ++ d'.generate, d'⟩, d') := by
  intro t parts
  have hclean : ∀ p ∈ parts, p.1.Clean := by
    intro p hp
    simp only [parts, List.mem_cons, List.not_mem_nil, or_false] at hp
    rcases hp with rfl | rfl
    · exact ⟨by decide, by decide⟩
    · exact ⟨by decide, by decide⟩
  exact compile_of_sections t parts (by simp [parts]) hclean (by decide) {}

end Ui

end GzLang
