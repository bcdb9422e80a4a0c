import Mathlib.Data.List.Forall2
import GzLang.Proofs.Matching
import GzLang.Proofs.Text
import GzLang.Source.Line

/-!
# Rewriting the lines of a program

A rule cuts a text into pieces and writes something else for those that it found. If what it finds
stands apart in its line (`Pattern.Apart`), the lines of the program stay where they are, and a
line stays as it is or has what was found as its whole content before and what was written after
(`forall₂_ofSource_replace`). What the rule does in comments does not matter.
-/

namespace GzLang

open List Text Line

variable {u : List Char} {ps : List Piece}

variable {s : List Char} {write : Match → List Char}

/-! ### Lines and comments -/

theorem Text.lines_nil : lines [] = [[]] := splitAll_of_not_mem (by simp)

theorem Text.lines_cons_break (s : List Char) : lines ('\n' :: s) = [] :: lines s :=
  splitAll_append (l := []) (by simp) s

/-- Text in front of the first line feed belongs to the first line. -/
theorem Text.lines_append (hu : '\n' ∉ u) (s : List Char) : lines (u ++ s) = (lines s).modifyHead (u ++ ·) := by
  by_cases hs : '\n' ∈ s
  · obtain ⟨a, b, rfl, ha⟩ := eq_append_cons_of_mem hs
    have hua : '\n' ∉ u ++ a := by simp [hu, ha]
    rw [← append_assoc, lines, lines, splitAll_append hua, splitAll_append ha, modifyHead_cons]
  · have hus : '\n' ∉ u ++ s := by simp [hu, hs]
    rw [lines, lines, splitAll_of_not_mem hus, splitAll_of_not_mem hs, modifyHead_cons]

theorem Text.lines_cons {c : Char} (hc : c ≠ '\n') (s : List Char) : lines (c :: s) = (lines s).modifyHead (c :: ·) :=
  lines_append (u := [c]) (by simpa using Ne.symm hc) s

theorem Text.lines_eq_splitOn (s : List Char) : lines s = s.splitOn '\n' := by
  induction s with
  | nil => exact lines_nil
  | cons c s ih =>
    rw [splitOn, splitOnP_cons_eq_if_modifyHead]
    by_cases hc : c = '\n'
    · subst hc
      rw [lines_cons_break, ih]
      rfl
    · rw [if_neg (by simpa using hc)]
      rw [lines_cons hc, ih]
      rfl

theorem Text.lines_ne_nil (s : List Char) : lines s ≠ [] := by
  rw [lines_eq_splitOn]
  exact splitOnP_ne_nil _ _

theorem Text.lines_append_break (s t : List Char) : lines (s ++ '\n' :: t) = lines s ++ lines t := by
  induction s with
  | nil => rw [nil_append, lines_cons_break, lines_nil]; rfl
  | cons c s ih =>
    by_cases hc : c = '\n'
    · rw [hc, cons_append, lines_cons_break, lines_cons_break, ih, cons_append]
    · obtain ⟨l, ls, hls⟩ := exists_cons_of_ne_nil (lines_ne_nil s)
      rw [cons_append, lines_cons hc, lines_cons hc, ih, hls]
      rfl

theorem Line.beforeComment_cons {c : Char} (h : ['/', '/'].isPrefixOf (c :: s) = false) :
    beforeComment (c :: s) = c :: beforeComment s := by
  unfold beforeComment
  rw [cutFirst, if_neg (by simp [h])]
  cases cutFirst ['/', '/'] s <;> rfl

theorem Line.beforeComment_append (hu : '/' ∉ u) (s : List Char) : beforeComment (u ++ s) = u ++ beforeComment s := by
  unfold beforeComment
  rw [cutFirst_append_of_not_mem hu]
  cases cutFirst ['/', '/'] s <;> rfl

/-! ### Pieces -/

namespace Piece

def written (write : Match → List Char) : Piece → List Char
  | .found m => write m
  | .char c => [c]

def isBreak : Piece → Bool
  | .found _ => false
  | .char c => c == '\n'

def code : List Piece → List Piece
  | .char '/' :: .char '/' :: _ => []
  | x :: ps => x :: code ps
  | [] => []

theorem code_subset (ps : List Piece) : code ps ⊆ ps := by
  fun_induction code ps with
  | case1 => simp
  | case2 x ps _ ih => exact cons_subset_cons x ih
  | case3 => simp

variable {f : Piece → List Char}

/-- The lines of what pieces spell, if line feeds are pieces of their own. -/
theorem lines_flatMap (hf : ∀ c, f (.char c) = [c]) (hps : ∀ m, .found m ∈ ps → '\n' ∉ f (.found m)) :
    lines (ps.flatMap f) = (ps.splitOnP isBreak).map (·.flatMap f) := by
  induction ps with
  | nil => exact lines_nil
  | cons x ps ih =>
    have ih := ih fun m hm => hps m (mem_cons_of_mem x hm)
    rw [flatMap_cons, splitOnP_cons_eq_if_modifyHead]
    by_cases hx : x = .char '\n'
    · subst hx
      rw [if_pos (by rfl), hf, singleton_append, lines_cons_break, ih]
      rfl
    · have hfx : '\n' ∉ f x := by
        cases x with
        | found m => exact hps m (mem_cons_self ..)
        | char c =>
          rw [hf, mem_singleton]
          rintro rfl
          exact hx rfl
      have hbreak : x.isBreak ≠ true := by
        cases x with
        | found m => exact Bool.false_ne_true
        | char c => exact fun h => hx (congrArg Piece.char (eq_of_beq h))
      obtain ⟨q, qs, hq⟩ := exists_cons_of_ne_nil (splitOnP_ne_nil isBreak ps)
      rw [if_neg hbreak, lines_append hfx, ih, hq]
      rfl

/-- What pieces spell in front of a comment, if a slash is a piece of its own. -/
theorem beforeComment_flatMap (hf : ∀ c, f (.char c) = [c])
    (hps : ∀ m, .found m ∈ ps → f (.found m) ≠ [] ∧ '/' ∉ f (.found m)) :
    beforeComment (ps.flatMap f) = (code ps).flatMap f := by
  fun_induction code ps with
  | case1 ps =>
    rw [flatMap_cons, flatMap_cons, hf]
    rfl
  | case2 x ps hcomment ih =>
    have ih := ih fun m hm => hps m (mem_cons_of_mem x hm)
    rw [flatMap_cons, flatMap_cons, ← ih]
    cases x with
    | found m => exact beforeComment_append (hps m (mem_cons_self ..)).2 _
    | char c =>
      rw [hf]
      refine beforeComment_cons ?_
      -- the next character is a slash only if the next piece is
      cases ps with
      | nil => simp [isPrefixOf]
      | cons y ps =>
        cases y with
        | found m =>
          obtain ⟨hne, hslash⟩ := hps m (by simp)
          obtain ⟨d, t, ht⟩ := exists_cons_of_ne_nil hne
          have hd : '/' ≠ d := by
            rintro rfl
            exact hslash (by simp [ht])
          simp [isPrefixOf, ht, hd]
        | char d =>
          have : ¬ ('/' = c ∧ '/' = d) := by
            rintro ⟨rfl, rfl⟩
            exact hcomment ps rfl rfl
          simpa [isPrefixOf, hf] using this
  | case3 => rfl

end Piece

open Piece

/-- If less of something is written for a find than was found, each find costs some of it. -/
theorem countP_replace_add_length_le {p : Pattern}
    {f : Char → Bool} (h : ∀ m ∈ p.findAll s, (write m).countP f < m.text.countP f) :
    (p.replace write s).countP f + (p.findAll s).length ≤ s.countP f := by
  have hfound (m : Match) (hm : .found m ∈ p.pieces s) := h m (Pattern.mem_findAll hm)
  have htext : s.countP f = ((p.pieces s).flatMap text).countP f := by
    rw [Pattern.text_pieces]
  rw [htext, Pattern.replace, Pattern.findAll]
  generalize p.pieces s = ps at hfound
  induction ps with
  | nil => exact Nat.le_refl 0
  | cons x ps ih =>
    have ih := ih fun m hm => hfound m (mem_cons_of_mem x hm)
    rw [flatMap_cons, flatMap_cons, countP_append, countP_append]
    cases x with
    | char c =>
      simp only [filterMap_cons, text]
      omega
    | found m =>
      have hm := hfound m (mem_cons_self ..)
      simp only [filterMap_cons, length_cons, text]
      omega

/-! ### Blanks around the content of a line -/

theorem Text.exists_blanks_around (s : List Char) :
    ∃ u v, (∀ c ∈ u, isBlank c) ∧ (∀ c ∈ v, isBlank c) ∧ s = u ++ (trim s ++ v) := by
  refine ⟨s.takeWhile isBlank, ((trimLeft s).reverse.takeWhile isBlank).reverse,
    fun c hc => mem_takeWhile_imp hc, fun c hc => ?_, ?_⟩
  · exact mem_takeWhile_imp (mem_reverse.1 hc)
  · have hend := congrArg reverse (takeWhile_append_dropWhile (p := isBlank) (l := (trimLeft s).reverse))
    rw [reverse_append, reverse_reverse] at hend
    rw [trim, trimRight, dropEndWhile, hend]
    exact takeWhile_append_dropWhile.symm

/-- If trimming a text leaves a part of it, the rest is blank. -/
theorem Text.blank_of_trim_eq {s v : List Char} (h : trim (u ++ (s ++ v)) = s) :
    (∀ c ∈ u, isBlank c) ∧ ∀ c ∈ v, isBlank c := by
  obtain ⟨a, b, ha, hb, he⟩ := exists_blanks_around (u ++ (s ++ v))
  have hzero {t : List Char} : t.countP (fun c => !isBlank c) = 0 ↔ ∀ c ∈ t, isBlank c := by
    simp
  have hcount := congrArg (countP fun c => !isBlank c) he
  rw [h] at hcount
  simp only [countP_append] at hcount
  have ha := hzero.2 ha
  have hb := hzero.2 hb
  exact ⟨hzero.1 (by omega), hzero.1 (by omega)⟩

theorem Line.read?_of_around {n : Nat} {l s v : List Char} (hs : Text.Solid s)
    (hu : ∀ c ∈ u, isBlank c) (hv : ∀ c ∈ v, isBlank c)
    (hl : beforeComment l = u ++ (s ++ v)) : read? n l = some ⟨n, u.length, String.ofList s⟩ := by
  have hindent : u.length + (s.length + v.length) - (s.length + v.length) = u.length := by omega
  simp [read?, hl, trim_around hs hu hv, trimLeft_blanks hu, trimLeft_solid_append hs, hs.ne_nil, hindent]

theorem Line.read?_congr {n : Nat} {l l' : List Char}
    (h : beforeComment l = beforeComment l') : read? n l = read? n l' := by
  rw [read?, read?, h]

/-! ### Rewritten programs -/

/-- A text that can be the whole content of a line. -/
structure Text.Tidy (s : List Char) : Prop where
  solid : Solid s
  slash : '/' ∉ s

theorem Text.tidy_of_isWord (hne : s ≠ []) (hs : ∀ c ∈ s, isWord c) : Tidy s :=
  ⟨solid_of_isWord hne hs, not_mem_of_class (by decide) hs⟩

theorem Text.tidy_of_isDecimal (hne : s ≠ []) (hs : ∀ c ∈ s, isDecimal c) : Tidy s :=
  ⟨solid_of_not_blank hne fun c hc => isBlank_of_isDecimal (hs c hc), not_mem_of_class (by decide) hs⟩

theorem Text.Tidy.around {s v : List Char} (hu : Tidy u) (hs : '/' ∉ s) (hv : Tidy v) : Tidy (u ++ (s ++ v)) := by
  obtain ⟨c, t, rfl, hc⟩ := hu.solid.head
  obtain ⟨w, d, rfl, hd⟩ := hv.solid.last
  exact ⟨⟨⟨c, t ++ (s ++ (w ++ [d])), rfl, hc⟩, ⟨c :: t ++ (s ++ w), d, by simp, hd⟩⟩,
    by simp only [mem_append, not_or]; exact ⟨hu.slash, hs, by simpa using hv.slash⟩⟩

def Pattern.FoundInCode (p : Pattern) (s : List Char) (m : Match) : Prop :=
  m ∈ p.findAll s ∧ ∃ l ∈ lines s, m.text <:+: beforeComment l

/-- What a pattern finds in a text stands apart: it lies on one line, and if it is code, it is all
that the line says. -/
structure Pattern.Apart (p : Pattern) (s : List Char) : Prop where
  oneLine : ∀ m ∈ p.findAll s, '\n' ∉ m.text
  alone : ∀ m ∈ p.findAll s, ∀ l ∈ lines s, m.text <:+: beforeComment l →
    trim (beforeComment l) = m.text

/-- A line of a rewritten program: the same, or what was written for all that the line said. -/
def Line.Rewritten (found : Match → Prop) (write : Match → List Char) (l l' : Line) : Prop :=
  l' = l ∨ ∃ m, found m ∧ l.content = String.ofList m.text ∧
    l' = { l with content := String.ofList (write m) }

theorem written_of_blank (write : Match → List Char) (hps : ∀ m, .found m ∈ ps → Text.Tidy m.text)
    (hblank : ∀ c ∈ ps.flatMap text, isBlank c) :
    ps.flatMap (written write) = ps.flatMap text := by
  refine flatMap_congr fun x hx => ?_
  cases x with
  | char c => rfl
  | found m =>
    obtain ⟨c, t, ht, hc⟩ := (hps m hx).solid.head
    rw [hblank c (mem_flatMap.2 ⟨_, hx, by simp [text, ht]⟩)] at hc
    cases hc

/-- One line, as its pieces spell it and as it is written. -/
theorem read?_written {found : Match → Prop}
    (hps : ∀ m, .found m ∈ ps → m.text <:+: beforeComment (ps.flatMap text) → found m)
    (htext : ∀ m, .found m ∈ ps → Text.Tidy m.text) (hwrite : ∀ m, .found m ∈ ps → Text.Tidy (write m))
    (halone : ∀ m, .found m ∈ ps → m.text <:+: beforeComment (ps.flatMap text) →
      trim (beforeComment (ps.flatMap text)) = m.text)
    (n : Nat) : Option.Rel (Line.Rewritten found write)
      (read? n (ps.flatMap text)) (read? n (ps.flatMap (written write))) := by
  have hcode : beforeComment (ps.flatMap text) = (code ps).flatMap text :=
    beforeComment_flatMap (fun _ => rfl) fun m hm =>
      ⟨(htext m hm).solid.ne_nil, (htext m hm).slash⟩
  have hcode' : beforeComment (ps.flatMap (written write)) = (code ps).flatMap (written write) :=
    beforeComment_flatMap (fun _ => rfl) fun m hm =>
      ⟨(hwrite m hm).solid.ne_nil, (hwrite m hm).slash⟩
  by_cases hfound : ∃ m, .found m ∈ code ps
  · obtain ⟨m, hm⟩ := hfound
    have hmem : Piece.found m ∈ ps := code_subset ps hm
    obtain ⟨a, b, hab⟩ := append_of_mem hm
    have hsub {x : Piece} (hx : x ∈ a ∨ x ∈ b) : x ∈ ps :=
      code_subset ps (by rw [hab]; simpa using hx.elim .inl fun h => .inr (.inr h))
    rw [hab, flatMap_append, flatMap_cons] at hcode hcode'
    have hinfix : m.text <:+: beforeComment (ps.flatMap text) := by
      rw [hcode, ← append_assoc]
      exact ⟨_, _, rfl⟩
    -- the find is all that the line says, so what stands around it is blank and is not rewritten
    have halone := halone m hmem hinfix
    rw [hcode] at halone
    obtain ⟨ha, hb⟩ := blank_of_trim_eq halone
    have ha' := written_of_blank write (fun m hm => htext m (hsub (.inl hm))) ha
    have hb' := written_of_blank write (fun m hm => htext m (hsub (.inr hm))) hb
    rw [ha', hb'] at hcode'
    rw [read?_of_around (htext m hmem).solid ha hb hcode, read?_of_around (hwrite m hmem).solid ha hb hcode']
    exact .some (.inr ⟨m, hps m hmem hinfix, rfl, rfl⟩)
  · have hsame : (code ps).flatMap (written write) = (code ps).flatMap text := by
      refine flatMap_congr fun x hx => ?_
      cases x with
      | char c => rfl
      | found m => exact absurd ⟨m, hx⟩ hfound
    rw [read?_congr (hcode'.trans (hsame.trans hcode.symm))]
    cases read? n (ps.flatMap text) with
    | none => exact .none
    | some l => exact .some (.inl rfl)

theorem forall₂_filterMap {α β : Type} {R : β → β → Prop} {f g : α → Option β} {l : List α}
    (h : ∀ x ∈ l, Option.Rel R (f x) (g x)) :
    List.Forall₂ R (l.filterMap f) (l.filterMap g) := by
  induction l with
  | nil => exact .nil
  | cons x l ih =>
    have ih := ih fun y hy => h y (mem_cons_of_mem x hy)
    have hx := h x (mem_cons_self ..)
    rw [filterMap_cons, filterMap_cons]
    generalize f x = a at hx
    generalize g x = b at hx
    cases hx with
    | none => exact ih
    | some hab => exact .cons hab ih

theorem mem_of_mem_splitOnP {α : Type} {f : α → Bool} {l q : List α} (hq : q ∈ l.splitOnP f)
    {x : α} (hx : x ∈ q) : x ∈ l := by
  induction l generalizing q with
  | nil =>
    rw [splitOnP_nil, mem_singleton] at hq
    rwa [hq] at hx
  | cons y l ih =>
    rw [splitOnP_cons_eq_if_modifyHead] at hq
    obtain ⟨a, as, ha⟩ := exists_cons_of_ne_nil (splitOnP_ne_nil f l)
    split at hq
    · rcases mem_cons.1 hq with rfl | hq
      · cases hx
      · exact mem_cons_of_mem y (ih hq hx)
    · rw [ha, modifyHead_cons] at hq
      rcases mem_cons.1 hq with rfl | hq
      · rcases mem_cons.1 hx with rfl | hx
        · exact mem_cons_self ..
        · exact mem_cons_of_mem y (ih (by rw [ha]; exact mem_cons_self ..) hx)
      · exact mem_cons_of_mem y (ih (by rw [ha]; exact mem_cons_of_mem a hq) hx)

/-- A rule whose finds stand apart rewrites a program line by line. -/
theorem forall₂_ofSource_replace {p : Pattern} (hs : p.Apart s) (htext : ∀ m ∈ p.findAll s, Text.Tidy m.text)
    (hwrite : ∀ m ∈ p.findAll s, Text.Tidy (write m) ∧ '\n' ∉ write m) :
    List.Forall₂ (Line.Rewritten (p.FoundInCode s) write) (ofSource (String.ofList s))
      (ofSource (String.ofList (p.replace write s))) := by
  have hlines : lines s = ((p.pieces s).splitOnP isBreak).map (·.flatMap text) := by
    have htexts (m : Match) (hm : .found m ∈ p.pieces s) : '\n' ∉ text (.found m) :=
      hs.oneLine m (Pattern.mem_findAll hm)
    have := lines_flatMap (fun _ => rfl) htexts
    rwa [Pattern.text_pieces] at this
  have hlines' : lines (p.replace write s) = ((p.pieces s).splitOnP isBreak).map (·.flatMap (written write)) :=
    lines_flatMap (f := written write) (fun _ => rfl) fun m hm => (hwrite m (Pattern.mem_findAll hm)).2
  rw [ofSource, ofSource, String.toList_ofList, String.toList_ofList, hlines', hlines,
    zipIdx_map, zipIdx_map, filterMap_map, filterMap_map]
  refine forall₂_filterMap fun ⟨q, n⟩ hq => ?_
  have hq : q ∈ (p.pieces s).splitOnP isBreak := fst_mem_of_mem_zipIdx hq
  have hmem (m : Match) (hm : .found m ∈ q) : m ∈ p.findAll s := Pattern.mem_findAll (mem_of_mem_splitOnP hq hm)
  have hline : q.flatMap text ∈ lines s := by
    rw [hlines]
    exact mem_map_of_mem hq
  exact read?_written (fun m hm hcode => ⟨hmem m hm, _, hline, hcode⟩)
    (fun m hm => htext m (hmem m hm)) (fun m hm => (hwrite m (hmem m hm)).1)
    (fun m hm => hs.alone m (hmem m hm) _ hline) n

end GzLang
