import GzLang.Proofs.Assistant
import GzLang.Proofs.Comments
import GzLang.Proofs.Start

/-!
# What correcting code keeps

The rules that an assistant starts with denote seven patterns with their replacements
(`reads_corrections`). Each of them leaves out a mark, that is a bracket, a brace or a semicolon
(`Unmarking`, `exists_unmarks`). So code stays as it is exactly where no rule applies
(`correctedCode_eq_self_iff`), and where marks are only in comments the rules are silent and the code
runs as before (`MarksInComments.silentAll`). But a call needs its brackets: what is written for it is
not read as a call (`parse_call_ne`).
-/

namespace GzLang.Assistant

open GzLang.Action List Text GzLang.Expr Pattern

variable {s : List Char} {m : Match}
variable {pts : List (Pattern × Template)} {c : Char} {f : Char → Bool} {code : String} {t : Template}

/-! ### The rules -/

def definitionBracket : Pattern :=
  .literally "simula".toList (.seq (.repeated .blank 1) (.seq (.group 1 (.repeated .word 1))
    (.seq (.repeated .blank 0) (.char '('))))

def wordBracket (word : String) : Pattern :=
  .literally word.toList (.seq (.repeated .blank 0) (.char '('))

def callPattern : Pattern :=
  .seq (.group 1 (.repeated .word 1)) (.seq (.repeated .blank 0) (.literally "(".toList
    (.seq (.group 2 (.rep (.set true [.char ')']) 0 none true)) (.char ')'))))

def clausesPattern : Pattern :=
  .literally "para".toList (.seq (.repeated .blank 0) (.literally "(".toList
    (.seq (.group 1 (.repeated .word 1)) (.seq (.repeated .blank 0) (.literally "=".toList
      (.seq (.repeated .blank 0) (.seq (.group 2 (.rep (.set true [.char ';']) 1 none true))
        (.literally ";".toList (.seq (.repeated .blank 0) (.seq (.backref 1)
          (.seq (.repeated .blank 0) (.literally "<=".toList (.seq (.repeated .blank 0)
            (.seq (.group 3 (.rep (.set true [.char ';']) 1 none true)) (.literally ";".toList
              (.seq (.repeated .blank 0) (.seq (.backref 1) (.literally "++".toList
                (.char ')')))))))))))))))))))

def definitionTemplate : Template :=
  "simula ".toList.map .char ++ [.group 1, .char ' ']

def wordTemplate (word : String) : Template :=
  word.toList.map .char ++ [.char ' ']

def callTemplate : Template :=
  [.group 1, .char ' ', .group 2]

def correctionPairs : List (Pattern × Template) :=
  [(definitionBracket, definitionTemplate), (wordBracket "sulat", wordTemplate "sulat"),
    (callPattern, callTemplate), (wordBracket "kung", wordTemplate "kung"),
    (clausesPattern, headerTemplate), (.char ';', []),
    (.set false [.char '{', .char '}'], [])]

theorem reads_corrections : List.Forall₂ (fun r pt => r.Reads pt.1 pt.2) corrections correctionPairs := by
  iterate 7 refine .cons (Rule.reads_of_toOption (by decide +kernel) (by decide +kernel)) ?_
  exact .nil

/-! ### Marks -/

def marks : List Char :=
  ['(', ')', '{', '}', ';']

def isMark (c : Char) : Bool :=
  marks.contains c

theorem ne_of_isMark (h : isMark c) : c ≠ '/' ∧ c ≠ '\n' := by
  constructor <;> rintro rfl <;> cases h

theorem isMark_eq_false (hf : marks.all (!f ·)) (hc : f c) : isMark c = false := by
  cases h : isMark c with
  | false => rfl
  | true =>
    have hmem : c ∈ marks := contains_iff_mem.1 h
    have := all_eq_true.1 hf c hmem
    simp [hc] at this

theorem countP_isMark (hf : marks.all (!f ·)) (hs : ∀ c ∈ s, f c) : s.countP isMark = 0 :=
  countP_eq_zero.2 fun c hc => by simp [isMark_eq_false hf (hs c hc)]

/-- A way to leave out a mark: what stands in front of it and what stands at the end is written anew,
and what is kept between goes as far as another mark. -/
structure Unmarking where
  front : List Char
  mark : Char
  kept : List Char
  back : List Char
  new : List Char
  isMark_mark : isMark mark = true
  slash_front : '/' ∉ front
  kept_back : kept = [] ∨ ∃ c s, back = c :: s ∧ isMark c = true
  countP_new : new.countP isMark ≤ back.countP isMark

namespace Unmarking

def found (u : Unmarking) : List Char :=
  u.front ++ u.mark :: (u.kept ++ u.back)

def written (u : Unmarking) : List Char :=
  u.new ++ u.kept

theorem countP_lt (u : Unmarking) : u.written.countP isMark < u.found.countP isMark := by
  have hnew := u.countP_new
  rw [found, written]
  simp only [countP_append, countP_cons, u.isMark_mark, if_true]
  omega

structure OneLine (u : Unmarking) : Prop where
  back : '\n' ∉ u.back
  new : '\n' ∉ u.new

/-- If marks are only in comments, leaving out one of them is not noticed. -/
theorem OneLine.read_written {u : Unmarking} (hu : u.OneLine) {s t : List Char}
    (hs : ∀ c ∈ codeOf (s ++ (u.found ++ t)), isMark c = false) :
    (Place.code.read s).2.read u.written = (Place.code.read s).2.read u.found := by
  have hmark {v r : List Char} {c : Char} (hc : isMark c)
      (he : s ++ (u.found ++ t) = v ++ c :: r) : (Place.code.read v).2 = .comment := by
    refine place_of_not_mem_codeOf (v := r) (ne_of_isMark hc).1 fun hmem => ?_
    rw [← he] at hmem
    rw [hs c hmem] at hc
    cases hc
  -- the mark is in a comment, and so is what stands in front of it
  have hfront : (Place.code.read (s ++ u.front)).2 = .comment :=
    hmark u.isMark_mark (r := u.kept ++ u.back ++ t) (by simp [found])
  rw [Place.read_append] at hfront
  obtain ⟨hplace, hbreak⟩ := Place.read_eq_comment u.slash_front hfront
  have hopen : Place.comment.read (u.front ++ [u.mark]) = ([], .comment) :=
    Place.read_comment (by simp [hbreak, Ne.symm (ne_of_isMark u.isMark_mark).2])
  -- what is kept ends in a comment too
  have hkept : (Place.comment.read u.kept).2 = .comment := by
    rcases u.kept_back with hnil | ⟨c, r, hback, hc⟩
    · rw [hnil]
      rfl
    · have hend : (Place.code.read (s ++ (u.front ++ [u.mark] ++ u.kept))).2 = .comment :=
        hmark hc (r := r ++ t) (by simp [found, hback])
      rwa [Place.read_append, hplace, Place.read_append, hopen] at hend
  have hfound : u.found = u.front ++ [u.mark] ++ (u.kept ++ u.back) := by simp [found]
  rw [hplace, written, hfound, Place.read_append, Place.read_append, Place.read_comment hu.new,
    hopen, Place.read_append _ u.kept, hkept, Place.read_comment hu.back]
  simp

end Unmarking

/-! ### What the rules find and write -/

/-- What is found and what is written differ by a way to leave out a mark. -/
structure Unmarks (t : Template) (m : Match) (u : Unmarking) : Prop where
  text : m.text = u.found
  fill : t.fill m = u.written

/-- A mark at the end is left out if what is written has no mark and is on one line. -/
theorem unmarks_of_last {f : List Char} (htext : m.text = f ++ [c]) (hc : isMark c) (hslash : '/' ∉ f)
    (hcount : (t.fill m).countP isMark = 0) (hbreak : '\n' ∉ t.fill m) : ∃ u, Unmarks t m u ∧ u.OneLine :=
  ⟨{ front := f, mark := c, kept := [], back := [], new := t.fill m, isMark_mark := hc
     slash_front := hslash, kept_back := .inl rfl, countP_new := Nat.le_of_eq hcount },
    ⟨htext, (append_nil _).symm⟩, ⟨by simp, hbreak⟩⟩

theorem unmarks_wordBracket {word : String} (hword : ∀ c ∈ word.toList, isWord c)
    (hm : m ∈ (wordBracket word).findAll s) :
    ∃ u, Unmarks (wordTemplate word) m u ∧ u.OneLine := by
  have hd := derives_of_mem_findAll hm
  simp only [wordBracket, derives_literally_iff, derives_seq_iff, derives_repeated_iff, derives_char_iff] at hd
  obtain ⟨_, htext, b, _, _, rfl, ⟨-, -, hb⟩, rfl, -⟩ := hd
  have hfill : (wordTemplate word).fill m = word.toList ++ [' '] := fill_chars_append word.toList _ m
  have hslash := not_mem_of_class (by decide : isWord '/' = false) hword
  have hslash' := not_mem_of_class (by decide : isBlank '/' = false) hb
  have hbreak := not_mem_of_class (by decide : isWord '\n' = false) hword
  have hcount := countP_isMark (by decide) hword
  refine unmarks_of_last (f := word.toList ++ b) (c := '(') ?_ rfl ?_ ?_ ?_
  · rw [htext, append_assoc]
  · simp [hslash, hslash']
  · rw [hfill]
    simp [hcount, isMark, marks]
  · rw [hfill]
    simp [hbreak]

theorem unmarks_definitionBracket (hm : m ∈ definitionBracket.findAll s) :
    ∃ u, Unmarks definitionTemplate m u ∧ u.OneLine := by
  have hd := derives_of_mem_findAll hm
  simp only [definitionBracket, derives_literally_iff, derives_seq_iff, derives_group_iff,
    derives_repeated_iff, derives_char_iff] at hd
  obtain ⟨_, htext, b, _, _, rfl, ⟨rfl, -, hb⟩, x, _, _, rfl, ⟨_, ⟨rfl, -, hx⟩, rfl⟩, b', _, _, rfl,
    ⟨rfl, -, hb'⟩, rfl, hg⟩ := hd
  have hgroup : m.group 1 = x := by simp [Match.group, Match.group?, hg]
  have hfill : definitionTemplate.fill m = "simula ".toList ++ (x ++ [' ']) := by
    refine (fill_chars_append "simula ".toList _ m).trans ?_
    simp [Template.fill, hgroup]
  have hslash {t : List Char} (ht : ∀ c ∈ t, isBlank c) : '/' ∉ t := not_mem_of_class (by decide) ht
  have hslash' := not_mem_of_class (by decide : isWord '/' = false) hx
  have hbreak := not_mem_of_class (by decide : isWord '\n' = false) hx
  have hcount := countP_isMark (by decide) hx
  refine unmarks_of_last (f := "simula".toList ++ (b ++ (x ++ b'))) (c := '(') ?_ rfl ?_ ?_ ?_
  · simpa only [append_assoc] using htext
  · simp [hslash hb, hslash hb', hslash']
  · rw [hfill]
    simp [hcount, isMark, marks]
  · rw [hfill]
    simp [hbreak]

structure CallMatch (m : Match) (b : List Char) : Prop where
  text : m.text = m.group 1 ++ (b ++ '(' :: (m.group 2 ++ [')']))
  blank : ∀ c ∈ b, isBlank c = true
  name_word : ∀ c ∈ m.group 1, isWord c = true

theorem callMatch_of_mem (hm : m ∈ callPattern.findAll s) : ∃ b, CallMatch m b := by
  have hd := derives_of_mem_findAll hm
  simp only [callPattern, derives_literally_iff, derives_seq_iff, derives_group_iff, derives_repeated_iff,
    derives_rep_iff, derives_char_iff] at hd
  obtain ⟨x, _, _, htext, ⟨_, ⟨rfl, -, hx⟩, rfl⟩, b, _, _, rfl, ⟨rfl, -, hb⟩, _, rfl, y, _, _, rfl,
    ⟨_, ⟨rfl, -⟩, rfl⟩, rfl, hg⟩ := hd
  have hname : m.group 1 = x := by simp [Match.group, Match.group?, hg]
  have hargs : m.group 2 = y := by simp [Match.group, Match.group?, hg]
  exact ⟨b, ⟨by rw [hname, hargs]; exact htext, hb, hname ▸ hx⟩⟩

theorem fill_callTemplate (m : Match) : callTemplate.fill m = m.group 1 ++ ' ' :: m.group 2 := by
  simp [callTemplate, Template.fill]

theorem unmarks_call (hm : m ∈ callPattern.findAll s) : ∃ u, Unmarks callTemplate m u ∧ u.OneLine := by
  obtain ⟨b, hcall⟩ := callMatch_of_mem hm
  have hslash := not_mem_of_class (by decide : isWord '/' = false) hcall.name_word
  have hslash' := not_mem_of_class (by decide : isBlank '/' = false) hcall.blank
  have hbreak := not_mem_of_class (by decide : isWord '\n' = false) hcall.name_word
  have hcount := countP_isMark (by decide) hcall.name_word
  refine ⟨{ front := m.group 1 ++ b, mark := '(', kept := m.group 2, back := [')']
            new := m.group 1 ++ [' '], isMark_mark := rfl
            slash_front := by simp [hslash, hslash']
            kept_back := .inr ⟨')', [], rfl, rfl⟩
            countP_new := by simp [hcount, isMark, marks] },
    ⟨?_, ?_⟩, ⟨by simp, by simp [hbreak]⟩⟩
  · simpa [Unmarking.found] using hcall.text
  · simpa [Unmarking.written] using fill_callTemplate m

structure ClausesMatch (m : Match) (b z : List Char) : Prop where
  text : m.text = "para".toList ++ (b ++ '(' :: z)
  blank : ∀ c ∈ b, isBlank c = true
  groups : (m.group 1 ++ (m.group 2 ++ m.group 3)).Sublist z

theorem clausesMatch_of_mem (hm : m ∈ clausesPattern.findAll s) : ∃ b z, ClausesMatch m b z := by
  have hd := derives_of_mem_findAll hm
  simp only [clausesPattern, derives_literally_iff, derives_seq_iff, derives_group_iff,
    derives_repeated_iff, derives_rep_iff, derives_backref_iff, derives_char_iff] at hd
  obtain ⟨_, htext, b, _, _, rfl, ⟨rfl, -, hb⟩, z, rfl, hclauses⟩ := hd
  refine ⟨b, z, ⟨htext, hb, ?_⟩⟩
  obtain ⟨x, _, _, rfl, ⟨_, ⟨rfl, -⟩, rfl⟩, _, _, _, rfl, ⟨rfl, -⟩, _, rfl, _, _, _, rfl, ⟨rfl, -⟩, i, _, _,
    rfl, ⟨_, ⟨rfl, -⟩, rfl⟩, hclauses⟩ := hclauses
  obtain ⟨_, rfl, _, _, _, rfl, ⟨rfl, -⟩, _, _, _, rfl, ⟨-, rfl⟩, _, _, _, rfl, ⟨rfl, -⟩, _, rfl, _, _, _,
    rfl, ⟨rfl, -⟩, j, _, _, rfl, ⟨_, ⟨rfl, -⟩, rfl⟩, hclauses⟩ := hclauses
  obtain ⟨_, -, _, _, _, -, ⟨rfl, -⟩, _, _, _, -, ⟨-, rfl⟩, _, -, -, hg⟩ := hclauses
  have hx : m.group 1 = x := by simp [Match.group, Match.group?, hg]
  have hi : m.group 2 = i := by simp [Match.group, Match.group?, hg]
  have hj : m.group 3 = j := by simp [Match.group, Match.group?, hg]
  rw [hx, hi, hj]
  refine (List.Sublist.refl x).append ?_
  iterate 3 refine sublist_append_of_sublist_right ?_
  refine (List.Sublist.refl i).append ?_
  iterate 6 refine sublist_append_of_sublist_right ?_
  exact sublist_append_left j _

theorem unmarks_clauses (hm : m ∈ clausesPattern.findAll s) :
    ∃ u, Unmarks headerTemplate m u ∧ ('\n' ∉ m.text → u.OneLine) := by
  obtain ⟨b, z, hclauses⟩ := clausesMatch_of_mem hm
  have hslash := not_mem_of_class (by decide : isBlank '/' = false) hclauses.blank
  have hcount := hclauses.groups.countP_le (p := isMark)
  have hsub := hclauses.groups.subset
  refine ⟨{ front := "para".toList ++ b, mark := '(', kept := [], back := z
            new := headerTemplate.fill m, isMark_mark := rfl
            slash_front := by simp [hslash]
            kept_back := .inl rfl
            countP_new := ?_ }, ⟨?_, ?_⟩, fun hline => ?_⟩
  · rw [fill_headerTemplate]
    simpa [isMark, marks] using hcount
  · simpa [Unmarking.found] using hclauses.text
  · simp [Unmarking.written]
  · have hz : '\n' ∉ z := by
      intro hz
      exact hline (by simp [hclauses.text, hz])
    refine ⟨hz, fun hnew => hz ?_⟩
    change '\n' ∈ headerTemplate.fill m at hnew
    rw [fill_headerTemplate] at hnew
    exact hsub (by simpa using hnew)

theorem unmarks_semicolon (hm : m ∈ (Pattern.char ';').findAll s) : ∃ u, Unmarks [] m u ∧ u.OneLine := by
  obtain ⟨hx, -⟩ := derives_char_iff.1 (derives_of_mem_findAll hm)
  exact unmarks_of_last (f := []) hx rfl (by simp) rfl (by simp [Template.fill])

theorem unmarks_brace (hm : m ∈ (Pattern.set false [.char '{', .char '}']).findAll s) :
    ∃ u, Unmarks [] m u ∧ u.OneLine := by
  obtain ⟨x, hx, hcovers, -⟩ := derives_set_iff.1 (derives_of_mem_findAll hm)
  have hbrace : '{' = x ∨ '}' = x := by simpa [SetItem.covers] using hcovers
  have hmark : isMark x := by
    rcases hbrace with rfl | rfl <;> rfl
  exact unmarks_of_last (f := []) hx hmark (by simp) rfl (by simp [Template.fill])

/-! ### Silent corrections -/

/-- A rule that only leaves out marks is silent where marks are only in comments. -/
theorem silent_of_unmarks {p : Pattern} (hs : ∀ c ∈ codeOf s, isMark c = false)
    (h : ∀ m ∈ p.findAll s, ∃ u, Unmarks t m u ∧ u.OneLine) : p.Silent t.fill s := by
  intro before m after hpieces
  obtain ⟨u, hu, hline⟩ := h m (mem_findAll (by rw [hpieces]; simp))
  have htext : s = before.flatMap Piece.text ++ (u.found ++ after.flatMap Piece.text) := by
    rw [← text_pieces p s, hpieces, flatMap_append, flatMap_cons, Piece.text, hu.text]
  rw [hu.fill, hu.text]
  exact hline.read_written (by rwa [← htext])

/-- Each rule is silent in what the rules before it made of a text. -/
def SilentAll : List (Pattern × Template) → List Char → Prop
  | [], _ => True
  | pt :: pts, s => pt.1.Silent pt.2.fill s ∧ SilentAll pts (pt.1.replace pt.2.fill s)

theorem SilentAll.codeOf_rewriteAll (h : SilentAll pts s) : codeOf (rewriteAll pts s) = codeOf s := by
  induction pts generalizing s with
  | nil => rfl
  | cons pt pts ih => exact (ih h.2).trans (codeOf_replace_of_silent h.1)

theorem silentAll_append {pts' : List (Pattern × Template)}
    (h : SilentAll pts s) (h' : SilentAll pts' (rewriteAll pts s)) : SilentAll (pts ++ pts') s := by
  induction pts generalizing s with
  | nil => exact h'
  | cons pt pts ih => exact ⟨h.1, ih h.2 h'⟩

/-- Rules that only leave out marks are silent where marks are only in comments. -/
theorem silentAll_of_unmarks (hs : ∀ c ∈ codeOf s, isMark c = false)
    (h : ∀ pt ∈ pts, ∀ s, ∀ m ∈ pt.1.findAll s, ∃ u, Unmarks pt.2 m u ∧ u.OneLine) : SilentAll pts s := by
  induction pts generalizing s with
  | nil => trivial
  | cons pt pts ih =>
    have hfirst := silent_of_unmarks hs (h pt (mem_cons_self ..) s)
    refine ⟨hfirst, ih ?_ fun pt' hpt' => h pt' (mem_cons_of_mem pt hpt')⟩
    rwa [codeOf_replace_of_silent hfirst]

/-- Marks are only in comments, and a loop in three clauses is found on one line only. -/
structure MarksInComments (s : List Char) : Prop where
  marks : ∀ l ∈ lines s, ∀ c ∈ Line.beforeComment l, isMark c = false
  clauses : ∀ m ∈ clausesPattern.findAll (rewriteAll (correctionPairs.take 4) s), '\n' ∉ m.text

/-- Each rule leaves out a mark wherever it finds something, and only one of them writes anew what can
be on several lines. -/
theorem exists_unmarks {pt : Pattern × Template} (hpt : pt ∈ correctionPairs) (hm : m ∈ pt.1.findAll s) :
    ∃ u, Unmarks pt.2 m u ∧ ((pt.1 = clausesPattern → '\n' ∉ m.text) → u.OneLine) := by
  have hline {t : Template} (h : ∃ u, Unmarks t m u ∧ u.OneLine) :
      ∃ u, Unmarks t m u ∧ ((pt.1 = clausesPattern → '\n' ∉ m.text) → u.OneLine) := by
    obtain ⟨u, hu, hone⟩ := h
    exact ⟨u, hu, fun _ => hone⟩
  simp only [correctionPairs, mem_cons, not_mem_nil, or_false] at hpt
  rcases hpt with rfl | rfl | rfl | rfl | rfl | rfl | rfl
  · exact hline (unmarks_definitionBracket hm)
  · exact hline (unmarks_wordBracket (by decide) hm)
  · exact hline (unmarks_call hm)
  · exact hline (unmarks_wordBracket (by decide) hm)
  · obtain ⟨u, hu, hone⟩ := unmarks_clauses hm
    exact ⟨u, hu, fun h => hone (h rfl)⟩
  · exact hline (unmarks_semicolon hm)
  · exact hline (unmarks_brace hm)

theorem lowers_corrections : Lowers (countP isMark) correctionPairs := by
  intro pt hpt s hocc
  have hcount : (pt.1.replace pt.2.fill s).countP isMark + (pt.1.findAll s).length ≤ s.countP isMark := by
    refine countP_replace_add_length_le fun m hm => ?_
    obtain ⟨u, hu, -⟩ := exists_unmarks hpt hm
    rw [hu.text, hu.fill]
    exact u.countP_lt
  have hlen := length_pos_iff.2 (findAll_ne_nil_of_occursIn hocc)
  omega

theorem MarksInComments.silentAll (h : MarksInComments s) : SilentAll correctionPairs s := by
  have hcode : ∀ c ∈ codeOf s, isMark c = false := by
    intro c hc
    cases hmark : isMark c with
    | false => rfl
    | true =>
      obtain ⟨l, hl, hcl⟩ := exists_line_of_mem_codeOf hc (ne_of_isMark hmark).2
      exact hmark.symm.trans (h.marks l hl c hcl)
  -- only the fifth rule writes anew what can be on several lines
  have hothers {pts : List (Pattern × Template)} (hsub : pts ⊆ correctionPairs)
      (hne : ∀ pt ∈ pts, pt.1 ≠ clausesPattern) {s : List Char}
      (hs : ∀ c ∈ codeOf s, isMark c = false) : SilentAll pts s := by
    refine silentAll_of_unmarks hs fun pt hpt s m hm => ?_
    obtain ⟨u, hu, hone⟩ := exists_unmarks (hsub hpt) hm
    exact ⟨u, hu, hone fun he => absurd he (hne pt hpt)⟩
  have hfour : SilentAll (correctionPairs.take 4) s := hothers (take_subset _ _) (by decide) hcode
  have hcode₄ := hcode
  rw [← hfour.codeOf_rewriteAll] at hcode₄
  have hfifth : SilentAll [(clausesPattern, headerTemplate)] (rewriteAll (correctionPairs.take 4) s) := by
    refine ⟨silent_of_unmarks hcode₄ fun m hm => ?_, trivial⟩
    obtain ⟨u, hu, hone⟩ := unmarks_clauses hm
    exact ⟨u, hu, hone (h.clauses m hm)⟩
  have hcode₅ := hcode₄
  rw [← hfifth.codeOf_rewriteAll] at hcode₅
  have hlast : SilentAll (correctionPairs.drop 5) _ := hothers (drop_subset _ _) (by decide) hcode₅
  exact silentAll_append hfour (silentAll_append hfifth hlast)

/-! ### Calls -/

theorem parse_call_ne (hm : m ∈ callPattern.findAll s) (rest : List Char) (source name : String) (args : List Expr) :
    parse (callTemplate.fill m ++ rest) ≠ .call source name args := by
  intro hparse
  obtain ⟨b, hcall⟩ := callMatch_of_mem hm
  obtain ⟨p, hp⟩ := exists_call?_of_parse hparse
  rw [fill_callTemplate, append_assoc, cons_append, Expr.call?_word hcall.name_word (detached_cons (by decide) _)] at hp
  cases hp

/-! ### Corrected code -/

def correctedCode (code : String) : String :=
  String.ofList (rewriteAll correctionPairs code.toList)

/-- An assistant that corrects with the rules that it starts with. -/
structure Corrects (a : Assistant) : Prop where
  initialized : a.initialized = true
  rules : Table.get? a.memory "correction_rules" = some (Rule.documents corrections)

theorem correctedCode_eq_self_iff : correctedCode code = code ↔
    ∀ r ∈ corrections, occurs r.pattern code = .ok false := by
  rw [occurs_eq_false_iff reads_corrections]
  constructor
  · intro h
    refine lowers_corrections.not_occursIn ?_
    have := congrArg String.toList h
    rwa [correctedCode, String.toList_ofList] at this
  · intro h
    rw [correctedCode, rewriteAll_of_not_occursIn h, String.ofList_toList]

theorem SilentAll.run_correctedCode (h : SilentAll correctionPairs code.toList) :
    runSource (correctedCode code) = runSource code := by
  have hlines := ofSource_congr h.codeOf_rewriteAll
  rw [String.ofList_toList] at hlines
  rw [runSource, runSource, correctedCode, hlines]

/-- The rules that are applied give reasons, and some are exactly if the code changes. -/
theorem applyRules_corrections (code : String) : ∃ applied,
    applyRules (corrections.map Rule.entry) (.str code) = .ok (.str (correctedCode code), applied) ∧
      (∀ r ∈ applied, ∃ e, r.2.itemD "explanation" (.str "") = .ok (.str e)) ∧
      (!applied.isEmpty) = (correctedCode code != code) := by
  by_cases hsame : correctedCode code = code
  · have hnone := (occurs_eq_false_iff reads_corrections).1 (correctedCode_eq_self_iff.1 hsame)
    have happly := applyRules_of_not_occursIn reads_corrections hnone
    rw [String.ofList_toList] at happly
    exact ⟨[], by rw [hsame]; exact happly, nofun, by simp [hsame]⟩
  · obtain ⟨applied, happly⟩ := applyRules_of_reads reads_corrections code.toList
    rw [String.ofList_toList] at happly
    obtain ⟨hsub, hnil⟩ := sublist_of_applyRules happly
    refine ⟨applied, happly, fun r hr => ?_, ?_⟩
    · obtain ⟨rule, -, rfl⟩ := mem_map.1 (hsub.subset hr)
      exact ⟨rule.explanation, by simp [Rule.entry, Value.itemD, Table.get?]⟩
    · have hne : applied ≠ [] := fun he => hsame (Value.str.inj (hnil he))
      rw [bne_iff_ne.2 hsame, isEmpty_eq_false_iff.2 hne]
      rfl

/-! ### What correcting keeps -/

/-- An assistant answers with the corrected code and with whether the code changed, unless passing on
what it learned fails. The code stays as it is exactly where no rule applies. It runs as before, from
every machine, where the rules are silent, and they are where marks are only in comments. What is
written for a call is never read as a call, so a call is always lost. -/
theorem correct_keeps_runs {a : Assistant} (ha : a.Corrects) (message : Value) (w : World) (code : String) :
    (∃ v t, (correct (.str code) message).perform (a, w) = (.ok v, t) ∧
      (v.item "corrected_code" = .ok (.str (correctedCode code)) ∧
          v.item "corrections_made" = .ok (.bool (correctedCode code != code)) ∨
        a.collective.isSome = true ∧ ∃ message, v = Answer.failure message)) ∧
    (correctedCode code = code ↔ ∀ r ∈ corrections, Pattern.occurs r.pattern code = .ok false) ∧
    (SilentAll correctionPairs code.toList →
      ∀ m, (runSource (correctedCode code)).perform m = (runSource code).perform m) ∧
    (MarksInComments code.toList → SilentAll correctionPairs code.toList) ∧
    ∀ s, ∀ m ∈ callPattern.findAll s, ∀ rest source name args,
      Expr.parse (callTemplate.fill m ++ rest) ≠ .call source name args := by
  obtain ⟨applied, happly, hreasons, hchanged⟩ := applyRules_corrections code
  refine ⟨?_, correctedCode_eq_self_iff, fun h m => by rw [h.run_correctedCode],
    MarksInComments.silentAll, fun s m hm => parse_call_ne hm⟩
  rw [← hchanged]
  exact perform_correct ha.initialized ha.rules happly hreasons message

/-! ### A program with remarks, and a program with a call -/

def corrector : Assistant where
  initialized := true
  memory := [("correction_rules", Rule.documents corrections)]

def remarked : String :=
  "simula main // main();\n sulat 1 // f(1)"

def calling : String :=
  "simula f n\n balik n\nsimula main\n sulat f(1)"

theorem correctedCode_remarked : correctedCode remarked = "simula main // main \n sulat 1 // f 1" := by
  cbv

theorem correctedCode_calling : correctedCode calling = "simula f n\n balik n\nsimula main\n sulat f 1" := by
  cbv

theorem marksInComments_remarked : MarksInComments remarked.toList where
  marks := by
    rw [lines_eq_splitOn]
    decide +kernel
  clauses := by
    have hnone : clausesPattern.findAll (rewriteAll (correctionPairs.take 4) remarked.toList) = [] := by
      cbv
    rw [hnone]
    exact fun m hm => absurd hm not_mem_nil

theorem remarks_kept_and_call_lost : corrector.Corrects ∧ correctedCode remarked ≠ remarked ∧
      (∃ m, (runSource (correctedCode remarked)).perform {} = (.ok (), m) ∧ m.out = "1\n" ∧ m.err = "") ∧
      (∃ m, (runSource calling).perform {} = (.ok (), m) ∧ m.out = "1\n" ∧ m.err = "") ∧
      ∃ m, (runSource (correctedCode calling)).perform {} = (.ok (), m) ∧ m.out = "None\n" ∧
        m.err = "Error at line 4: Cannot evaluate expression: f1\n" := by
  have hcorrects : corrector.Corrects := ⟨rfl, rfl⟩
  obtain ⟨-, -, hruns, hsilent, -⟩ := correct_keeps_runs hcorrects .null default remarked
  refine ⟨hcorrects, ?_, ?_, exists_perform (by decide +kernel), ?_⟩
  · rw [correctedCode_remarked]
    decide
  · rw [hruns (hsilent marksInComments_remarked)]
    exact exists_perform (by decide +kernel)
  · rw [correctedCode_calling]
    exact exists_perform (by decide +kernel)

end GzLang.Assistant
