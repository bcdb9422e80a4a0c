import GzLang.Proofs.Rewriting

/-!
# Code and comments

A program can be read character by character: a reader is in code, behind a slash in code, or in a
comment (`Place`), and takes what it reads as code or not. The lines of a program only depend on
what is taken as code (`ofSource_congr`). A rule is silent in a text if at each find the reader
takes the same as code from what was written and is then at the same place (`Pattern.Silent`); so
it leaves the lines of the program as they are (`ofSource_replace_of_silent`).
-/

namespace GzLang

open List Line

variable {s : List Char} {c : Char}

/-- Where the reader of a program is: in code, behind a slash in code, or in a comment. -/
inductive Place
  | code
  | slash
  | comment
  deriving DecidableEq

namespace Place

/-- What is taken as code at a character, and the place behind it. A slash is held back until it is
known whether it starts a comment. -/
def step : Place → Char → List Char × Place
  | .code, c => if c = '/' then ([], .slash) else ([c], .code)
  | .slash, c => if c = '/' then ([], .comment) else (['/', c], .code)
  | .comment, c => if c = '\n' then ([c], .code) else ([], .comment)

/-- What is taken as code in a text, and the place behind it. -/
def read : Place → List Char → List Char × Place
  | p, [] => ([], p)
  | p, c :: s => ((p.step c).1 ++ ((p.step c).2.read s).1, ((p.step c).2.read s).2)

def held : Place → List Char
  | .slash => ['/']
  | .code | .comment => []

theorem read_append (p : Place) (s t : List Char) : p.read (s ++ t) =
    ((p.read s).1 ++ ((p.read s).2.read t).1, ((p.read s).2.read t).2) := by
  induction s generalizing p with
  | nil => rfl
  | cons c s ih => rw [cons_append, read, ih, read, append_assoc]

theorem step_newline (p : Place) : p.step '\n' = (p.held ++ ['\n'], .code) := by
  cases p <;> rfl

theorem mem_step {p : Place} (hp : p ≠ .comment) (hc : c ≠ '/') : c ∈ (p.step c).1 := by
  cases p with
  | code => simp [step, hc]
  | slash => simp [step, hc]
  | comment => exact absurd rfl hp

theorem step_eq_comment {p : Place} (hc : c ≠ '/') (h : (p.step c).2 = .comment) : p = .comment ∧ c ≠ '\n' := by
  cases p with
  | code => simp [step, hc] at h
  | slash => simp [step, hc] at h
  | comment =>
    refine ⟨rfl, ?_⟩
    rintro rfl
    cases h

theorem read_eq_comment {p : Place} (hs : '/' ∉ s) (h : (p.read s).2 = .comment) : p = .comment ∧ '\n' ∉ s := by
  induction s generalizing p with
  | nil => exact ⟨h, by simp⟩
  | cons c s ih =>
    obtain ⟨hc, hs⟩ := ne_and_not_mem_of_not_mem_cons hs
    obtain ⟨hstep, hbreak⟩ := ih hs h
    obtain ⟨hp, hc'⟩ := step_eq_comment (Ne.symm hc) hstep
    exact ⟨hp, by simp [hbreak, Ne.symm hc']⟩

theorem read_comment (hs : '\n' ∉ s) : read .comment s = ([], .comment) := by
  induction s with
  | nil => rfl
  | cons c s ih =>
    obtain ⟨hc, hs⟩ := ne_and_not_mem_of_not_mem_cons hs
    rw [read, step, if_neg (Ne.symm hc), ih hs]
    rfl

end Place

namespace Text

/-- What is taken as code in a text, from a place on to the end. -/
def codeFrom (p : Place) (s : List Char) : List Char :=
  (p.read s).1 ++ (p.read s).2.held

def codeOf (s : List Char) : List Char :=
  codeFrom .code s

theorem codeFrom_cons (p : Place) (c : Char) (s : List Char) :
    codeFrom p (c :: s) = (p.step c).1 ++ codeFrom (p.step c).2 s := by
  rw [codeFrom, Place.read, append_assoc]
  rfl

theorem codeFrom_of_oneLine {l : List Char} (hl : '\n' ∉ l) :
    codeFrom .code l = beforeComment l ∧ codeFrom .slash l = beforeComment ('/' :: l) ∧ codeFrom .comment l = [] := by
  induction l with
  | nil => exact ⟨rfl, rfl, rfl⟩
  | cons c l ih =>
    obtain ⟨hc, hl⟩ := ne_and_not_mem_of_not_mem_cons hl
    obtain ⟨hcode, hslash, hcomment⟩ := ih hl
    have hrest : codeFrom .comment (c :: l) = [] := by
      rw [codeFrom_cons, Place.step, if_neg (Ne.symm hc), hcomment]
      rfl
    by_cases h : c = '/'
    · subst h
      refine ⟨by rw [codeFrom_cons]; exact hslash, ?_, hrest⟩
      rw [codeFrom_cons]
      exact hcomment
    · have hone : beforeComment (c :: l) = c :: beforeComment l := beforeComment_cons (by simp [isPrefixOf, Ne.symm h])
      have htwo : beforeComment ('/' :: c :: l) = '/' :: beforeComment (c :: l) :=
        beforeComment_cons (by simp [isPrefixOf, Ne.symm h])
      refine ⟨?_, ?_, hrest⟩
      · rw [codeFrom_cons, Place.step, if_neg h, hcode, hone]
        rfl
      · rw [codeFrom_cons, Place.step, if_neg h, hcode, htwo, hone]
        rfl

theorem codeOf_append_break (l s : List Char) : codeOf (l ++ '\n' :: s) = codeOf l ++ '\n' :: codeOf s := by
  unfold codeOf codeFrom
  rw [Place.read_append, Place.read, Place.step_newline]
  simp

/-- Line by line, code is what stands in front of the comments. -/
theorem lines_codeOf (s : List Char) : lines (codeOf s) = (lines s).map beforeComment := by
  induction hn : s.length using Nat.strongRecOn generalizing s with
  | ind n ih =>
    -- the first line ends the text or at the first line feed
    have hline {l : List Char} (hl : '\n' ∉ l) : lines l = [l] ∧ lines (codeOf l) = [beforeComment l] := by
      have hcode : codeOf l = beforeComment l := (codeFrom_of_oneLine hl).1
      have hbefore : '\n' ∉ beforeComment l := by
        unfold beforeComment
        split
        · rename_i u v hcut
          rw [eq_append_of_cutFirst hcut] at hl
          simp_all
        · exact hl
      rw [hcode]
      exact ⟨splitAll_of_not_mem hl, splitAll_of_not_mem hbefore⟩
    by_cases hs : '\n' ∈ s
    · obtain ⟨l, t, rfl, hl⟩ := eq_append_cons_of_mem hs
      have ih := ih t.length (by simp [← hn]; omega) t rfl
      rw [codeOf_append_break, lines_append_break, lines_append_break, (hline hl).2, (hline hl).1, ih]
      rfl
    · rw [(hline hs).2, (hline hs).1]
      rfl

theorem exists_line_of_mem (hc : c ∈ s) (hbreak : c ≠ '\n') : ∃ l ∈ lines s, c ∈ l := by
  induction s with
  | nil => cases hc
  | cons x s ih =>
    by_cases hx : x = '\n'
    · subst hx
      obtain ⟨l, hl, hcl⟩ := ih ((mem_cons.1 hc).resolve_left hbreak)
      exact ⟨l, by rw [lines_cons_break]; exact mem_cons_of_mem _ hl, hcl⟩
    · obtain ⟨l, ls, hls⟩ := exists_cons_of_ne_nil (lines_ne_nil s)
      rw [lines_cons hx, hls, modifyHead_cons]
      rcases mem_cons.1 hc with rfl | hc
      · exact ⟨c :: l, by simp, by simp⟩
      · obtain ⟨l', hl', hcl⟩ := ih hc
        rw [hls] at hl'
        rcases mem_cons.1 hl' with rfl | hl'
        · exact ⟨x :: l', by simp, mem_cons_of_mem x hcl⟩
        · exact ⟨l', mem_cons_of_mem _ hl', hcl⟩

theorem exists_line_of_mem_codeOf (hc : c ∈ codeOf s) (hbreak : c ≠ '\n') : ∃ l ∈ lines s, c ∈ beforeComment l := by
  obtain ⟨l', hl', hcl⟩ := exists_line_of_mem hc hbreak
  rw [lines_codeOf] at hl'
  obtain ⟨l, hl, rfl⟩ := mem_map.1 hl'
  exact ⟨l, hl, hcl⟩

/-- A character that is nowhere in the code only stands in comments. -/
theorem place_of_not_mem_codeOf {u v : List Char} (hc : c ≠ '/') (h : c ∉ codeOf (u ++ c :: v)) :
    (Place.code.read u).2 = .comment := by
  by_contra hp
  refine h ?_
  have hmem := Place.mem_step hp hc
  rw [codeOf, codeFrom, Place.read_append, Place.read]
  simp [hmem]

end Text

open Text

/-! ### Silent rules -/

/-- The lines of a program only depend on what is taken as code. -/
theorem ofSource_congr {t : List Char} (h : codeOf s = codeOf t) :
    ofSource (String.ofList s) = ofSource (String.ofList t) := by
  -- a line is read from what stands in front of its comment
  obtain ⟨f, hf⟩ : ∃ f : Nat → List Char → Option Line, ∀ n l, read? n l = f n (beforeComment l) :=
    ⟨fun n code => if (trim code).isEmpty then none else
      some ⟨n, code.length - (trimLeft code).length, String.ofList (trim code)⟩,
      fun _ _ => rfl⟩
  have hread (s : List Char) : ofSource (String.ofList s) =
      ((lines (codeOf s)).zipIdx 1).filterMap fun p => f p.2 p.1 := by
    rw [ofSource, String.toList_ofList, lines_codeOf, zipIdx_map, filterMap_map]
    exact filterMap_congr fun p _ => hf p.2 p.1
  rw [hread, hread, h]

/-- At each find the reader takes the same as code from what is written as from what was found, and
is then at the same place. -/
def Pattern.Silent (p : Pattern) (write : Match → List Char) (s : List Char) : Prop :=
  ∀ before m after, p.pieces s = before ++ .found m :: after →
    (Place.code.read (before.flatMap Piece.text)).2.read (write m) =
      (Place.code.read (before.flatMap Piece.text)).2.read m.text

theorem read_written {write : Match → List Char} {ps : List Piece} {p : Place}
    (h : ∀ before m after, ps = before ++ .found m :: after → (p.read (before.flatMap Piece.text)).2.read (write m) =
        (p.read (before.flatMap Piece.text)).2.read m.text) :
    p.read (ps.flatMap (Piece.written write)) = p.read (ps.flatMap Piece.text) := by
  induction ps generalizing p with
  | nil => rfl
  | cons x ps ih =>
    have hx : p.read (x.written write) = p.read x.text := by
      cases x with
      | found m => exact h [] m ps rfl
      | char c => rfl
    rw [flatMap_cons, flatMap_cons, Place.read_append, Place.read_append, hx, ih]
    intro before m after hps
    have := h (x :: before) m after (by rw [hps]; rfl)
    rwa [flatMap_cons, Place.read_append] at this

theorem codeOf_replace_of_silent {p : Pattern} {write : Match → List Char} (h : p.Silent write s) :
    codeOf (p.replace write s) = codeOf s := by
  have hread : Place.code.read (p.replace write s) = Place.code.read s :=
    (read_written h).trans (congrArg _ (Pattern.text_pieces p s))
  rw [codeOf, codeFrom, hread]
  rfl

end GzLang
