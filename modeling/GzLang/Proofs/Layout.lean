import GzLang.Proofs.Order

/-!
# The layout of a program

Blank lines, comments and the width of indents do not matter. A text in another layout
(`Text.Relaid`) is read as the same lines with other numbers, where the indents are mapped by one
function (`forall₂_ofSource`). If this function is strictly increasing on the indents, the lines form
the same blocks, so the two programs run alongside (`runLines_alongside`): they end alike, with the
same output, variables and functions, and report the same at lines of other numbers
(`run_of_relaid`).

The functions of a machine keep the layout of the program that defined them. So what is carried
through calls is that each function has *some* other layout on the second side (`Function.Relaid`).
-/

namespace GzLang

open GzLang.Action List Table Line

variable {name : String} {f : Function}
variable {s : List Char} {shift : Nat → Nat}

/-! ### Texts in another layout -/

namespace Text

/-- A text without code: blanks, and then maybe a comment. -/
def Idle (s : List Char) : Prop :=
  ∃ b c, s = b ++ c ∧ (∀ x ∈ b, isBlank x = true) ∧ (c = [] ∨ ['/', '/'] <+: c)

/-- What may be appended to a line: a text without code that does not start with the comment. -/
structure Tail (s : List Char) : Prop where
  idle : Idle s
  head : s.head? ≠ some '/'

/-- A line in another layout. If it is not blank, the number of blanks in front is mapped by a
function. -/
inductive RelaidLine (f : Nat → Nat) : List Char → List Char → Prop
  | blank {l t : List Char} (hl : ∀ x ∈ l, isBlank x = true) (ht : Tail t) : RelaidLine f l (l ++ t)
  | text {u u' s t : List Char} {c : Char} (hu : ∀ x ∈ u, isBlank x = true)
    (hu' : ∀ x ∈ u', isBlank x = true) (hlength : u'.length = f u.length)
    (hc : isBlank c = false) (ht : Tail t) : RelaidLine f (u ++ c :: s) (u' ++ (c :: s ++ t))

/-- Lines in another layout. Lines without code may be inserted anywhere. -/
inductive Relaid (f : Nat → Nat) : List (List Char) → List (List Char) → Prop
  | nil : Relaid f [] []
  | line {l l' : List Char} {ls ls' : List (List Char)} (h : RelaidLine f l l')
    (hs : Relaid f ls ls') : Relaid f (l :: ls) (l' :: ls')
  | insert {l : List Char} {ls ls' : List (List Char)} (h : Idle l) (hs : Relaid f ls ls') :
    Relaid f ls (l :: ls')

theorem slash_not_mem_of_blank (hs : ∀ x ∈ s, isBlank x) : '/' ∉ s := not_mem_of_class (by decide) hs

theorem Idle.blank_beforeComment (h : Idle s) : ∀ x ∈ beforeComment s, isBlank x := by
  obtain ⟨b, c, rfl, hb, hc⟩ := h
  have hnil : beforeComment c = [] := by
    rcases hc with rfl | ⟨r, rfl⟩ <;> rfl
  rw [beforeComment_append (slash_not_mem_of_blank hb), hnil, append_nil]
  exact hb

theorem Tail.beforeComment_append {t : List Char} (ht : Tail t) (s : List Char) : ∃ v, (∀ x ∈ v, isBlank x) ∧
      beforeComment (s ++ t) = beforeComment s ++ v := by
  induction s with
  | nil => exact ⟨_, ht.idle.blank_beforeComment, rfl⟩
  | cons c s ih =>
    by_cases hcomment : ['/', '/'].isPrefixOf (c :: s)
    · obtain ⟨r, hr⟩ := isPrefixOf_iff_prefix.1 hcomment
      refine ⟨[], by simp, ?_⟩
      rw [← hr]
      rfl
    · -- the comment does not start with the last character of the line
      have happend : ['/', '/'].isPrefixOf (c :: (s ++ t)) = false := by
        cases s with
        | nil =>
          cases t with
          | nil => simp [isPrefixOf]
          | cons d t =>
            have hd : d ≠ '/' := fun h => ht.head (by rw [h]; rfl)
            simp [isPrefixOf, Ne.symm hd]
        | cons d s => simpa [isPrefixOf] using hcomment
      obtain ⟨v, hv, hcode⟩ := ih
      refine ⟨v, hv, ?_⟩
      rw [cons_append, beforeComment_cons happend, hcode,
        beforeComment_cons (eq_false_of_ne_true hcomment), cons_append]

/-- A text that does not start with a blank is a solid text and blanks. -/
theorem exists_solid {c : Char} (hc : isBlank c = false) (s : List Char) :
    ∃ a v, c :: s = a ++ v ∧ Solid a ∧ ∀ x ∈ v, isBlank x := by
  rcases blank_or_exists (c :: s).reverse with h | ⟨l, d, r, hr, hl, hd⟩
  · rw [h c (by simp)] at hc
    cases hc
  · have he : c :: s = (r.reverse ++ [d]) ++ l.reverse := by
      rw [← reverse_reverse (c :: s), hr]
      simp
    refine ⟨r.reverse ++ [d], l.reverse, he, ⟨?_, r.reverse, d, rfl, hd⟩, fun x hx =>
      hl x (mem_reverse.1 hx)⟩
    obtain ⟨e, t, ht⟩ := exists_cons_of_ne_nil (append_ne_nil_of_right_ne_nil r.reverse (cons_ne_nil d []))
    rw [ht, cons_append] at he
    obtain ⟨rfl, -⟩ := List.cons.inj he
    exact ⟨c, t, ht, hc⟩

end Text

open Text

/-! ### Lines in another layout -/

/-- A line with the same content, whose indent is mapped by a function. -/
structure Line.Relaid (f : Nat → Nat) (l l' : Line) : Prop where
  indent : l'.indent = f l.indent
  content : l'.content = l.content

theorem Line.read?_of_blank (h : ∀ x ∈ beforeComment s, isBlank x) (n : Nat) : read? n s = none := by
  rw [read?, trim_of_blank h]
  rfl

theorem Line.read?_of_relaidLine {f : Nat → Nat} {l l' : List Char} (h : Text.RelaidLine f l l')
    (i j : Nat) : Option.Rel (Line.Relaid f) (read? i l) (read? j l') := by
  cases h with
  | @blank _ t hl ht =>
    have hidle : ∀ x ∈ beforeComment l, isBlank x :=
      Text.Idle.blank_beforeComment ⟨l, [], (append_nil l).symm, hl, .inl rfl⟩
    have hidle' : ∀ x ∈ beforeComment (l ++ t), isBlank x := by
      obtain ⟨v, hv, hcode⟩ := ht.beforeComment_append l
      rw [hcode, forall_mem_append]
      exact ⟨hidle, hv⟩
    rw [read?_of_blank hidle, read?_of_blank hidle']
    exact .none
  | @text u u' s t c hu hu' hlength hc ht =>
    obtain ⟨v, hv, hcode⟩ := ht.beforeComment_append (c :: s)
    have hcode' := beforeComment_append (slash_not_mem_of_blank hu') (c :: s ++ t)
    have hcode₀ := beforeComment_append (slash_not_mem_of_blank hu) (c :: s)
    rw [hcode] at hcode'
    by_cases hcomment : ['/', '/'].isPrefixOf (c :: s)
    · -- nothing but a comment
      have hnil : beforeComment (c :: s) = [] := by
        obtain ⟨r, hr⟩ := isPrefixOf_iff_prefix.1 hcomment
        rw [← hr]
        rfl
      rw [hnil] at hcode₀ hcode'
      rw [read?_of_blank (by rw [hcode₀]; simpa using hu),
        read?_of_blank (by rw [hcode', nil_append, forall_mem_append]; exact ⟨hu', hv⟩)]
      exact .none
    · rw [beforeComment_cons (eq_false_of_ne_true hcomment)] at hcode₀ hcode'
      obtain ⟨a, w, ha, hsolid, hw⟩ := exists_solid hc (beforeComment s)
      rw [ha] at hcode₀ hcode'
      have hwv : ∀ x ∈ w ++ v, isBlank x := forall_mem_append.2 ⟨hw, hv⟩
      rw [append_assoc a w v] at hcode'
      rw [read?_of_around hsolid hu hw hcode₀, read?_of_around hsolid hu' hwv hcode']
      exact .some ⟨hlength, rfl⟩

theorem Line.readAll_cons (k : Nat) (l : List Char) (ls : List (List Char)) :
    readAll k (l :: ls) = (read? k l).toList ++ readAll (k + 1) ls := by
  rw [readAll, zipIdx_cons, filterMap_cons]
  dsimp only
  cases read? k l <;> rfl

theorem forall₂_readAll {f : Nat → Nat} {ls ls' : List (List Char)} (h : Text.Relaid f ls ls')
    (i j : Nat) : List.Forall₂ (Line.Relaid f) (readAll i ls) (readAll j ls') := by
  induction h generalizing i j with
  | nil => exact .nil
  | @line l l' ls ls' hl _ ih =>
    have hread := read?_of_relaidLine hl i j
    rw [readAll_cons, readAll_cons]
    generalize read? i l = a at hread ⊢
    generalize read? j l' = a' at hread ⊢
    cases hread with
    | none => exact ih (i + 1) (j + 1)
    | some hline => exact .cons hline (ih (i + 1) (j + 1))
  | @insert l ls ls' hl _ ih =>
    rw [readAll_cons j, read?_of_blank hl.blank_beforeComment]
    exact ih i (j + 1)

/-- A text in another layout is read as the same lines in another layout. -/
theorem forall₂_ofSource {f : Nat → Nat} {code code' : String}
    (h : Text.Relaid f (lines code.toList) (lines code'.toList)) :
    List.Forall₂ (Line.Relaid f) (ofSource code) (ofSource code') :=
  forall₂_readAll h 1 1

structure Function.Relaid (f g : Function) : Prop where
  params : g.params = f.params
  body : ∃ shift, StrictMonoOn shift (indents f.body) ∧
    List.Forall₂ (Line.Relaid shift) f.body g.body

theorem Function.Relaid.refl (f : Function) : f.Relaid f where
  params := rfl
  body := ⟨id, strictMono_id.strictMonoOn _, forall₂_same.2 fun _ _ => ⟨rfl, rfl⟩⟩

/-- Functions of the same names in the same order, in another layout. -/
def FunctionsRelaid (t u : Table Function) : Prop :=
  List.Forall₂ (fun p q => q.1 = p.1 ∧ p.2.Relaid q.2) t u

namespace FunctionsRelaid

variable {t u : Table Function}

theorem get? (h : FunctionsRelaid t u) (name : String) : Option.Rel Function.Relaid (get? t name) (get? u name) := by
  induction h with
  | nil => exact .none
  | @cons p q t u hpq _ ih =>
    rw [Table.get?, Table.get?, hpq.1]
    split
    · exact .some hpq.2
    · exact ih

theorem exists_get? (h : FunctionsRelaid t u) (hf : Table.get? t name = some f) :
    ∃ g, Table.get? u name = some g ∧ f.Relaid g := by
  have hget := h.get? name
  rw [hf] at hget
  generalize Table.get? u name = o at hget
  cases hget with
  | some hfg => exact ⟨_, rfl, hfg⟩

theorem get?_eq_none (h : FunctionsRelaid t u) (hf : Table.get? t name = none) : Table.get? u name = none := by
  have hget := h.get? name
  rw [hf] at hget
  generalize Table.get? u name = o at hget
  cases hget
  rfl

theorem put (h : FunctionsRelaid t u) (name : String) {g : Function} (hfg : f.Relaid g) :
    FunctionsRelaid (put t name f) (put u name g) := by
  induction h with
  | nil => exact .cons ⟨rfl, hfg⟩ .nil
  | @cons p q t u hpq hrest ih =>
    rw [Table.put, Table.put, hpq.1]
    split
    · exact .cons ⟨rfl, hfg⟩ hrest
    · exact .cons ⟨rfl, hpq.2⟩ ih

theorem map_params (h : FunctionsRelaid t u) :
    u.map (fun p => (p.1, p.2.params)) = t.map fun p => (p.1, p.2.params) := by
  induction h with
  | nil => rfl
  | cons hpq _ ih => rw [map_cons, map_cons, ih, hpq.1, hpq.2.params]

end FunctionsRelaid

/-! ### Reports at other lines -/

def reportStart : List Char :=
  "Error at line ".toList

def eraseNumber (l : List Char) : List Char :=
  if reportStart.isPrefixOf l then
    reportStart ++ (l.drop reportStart.length).dropWhile Char.isDigit
  else l

def eraseNumbers (err : String) : List (List Char) :=
  (lines err.toList).map eraseNumber

/-- Two texts consist of the same reports, at lines of other numbers. -/
inductive Renumbered : String → String → Prop
  | nil : Renumbered "" ""
  | snoc {e e' : String} (h : Renumbered e e') (i j : Nat) (message : String) :
    Renumbered (e ++ reportText i message) (e' ++ reportText j message)

theorem eraseNumber_report (n : Nat) (s : List Char) :
    eraseNumber (("Error at line " ++ toString n).toList ++ ':' :: s) = reportStart ++ ':' :: s := by
  have hstart : ("Error at line " ++ toString n).toList ++ ':' :: s =
      reportStart ++ ((toString n).toList ++ ':' :: s) := by
    rw [String.toList_append, append_assoc]
    rfl
  have hdigits : ∀ c ∈ (toString n).toList, c.isDigit := fun c hc =>
    isDigit_of_mem_toString hc
  have hprefix : reportStart.isPrefixOf (reportStart ++ ((toString n).toList ++ ':' :: s)) :=
    isPrefixOf_iff_prefix.2 ⟨_, rfl⟩
  rw [hstart, eraseNumber, if_pos hprefix, drop_left, dropWhile_append_of_pos hdigits]
  rfl

theorem lines_reportText (n : Nat) (message : String) (s : List Char) :
    ∃ l ls, lines (':' :: ' ' :: message.toList) = (':' :: l) :: ls ∧ lines ((reportText n message).toList ++ s) =
        (("Error at line " ++ toString n).toList ++ ':' :: l) :: ls ++ lines s := by
  obtain ⟨l, ls, hl⟩ := exists_cons_of_ne_nil (lines_ne_nil (' ' :: message.toList))
  have hmessage : lines (':' :: ' ' :: message.toList) = (':' :: l) :: ls := by
    rw [lines_cons (by decide), hl, modifyHead_cons]
  have htext : (reportText n message).toList ++ s =
      (("Error at line " ++ toString n).toList ++ ':' :: ' ' :: message.toList) ++ '\n' :: s := by
    simp [reportText]
  refine ⟨l, ls, hmessage, ?_⟩
  rw [htext, lines_append_break, lines_append (not_mem_number rfl (by decide) n), hmessage,
    modifyHead_cons]

theorem Renumbered.lines_append {e e' : String} (h : Renumbered e e') :
    ∃ ls ls', ls'.map eraseNumber = ls.map eraseNumber ∧ ∀ s, lines (e.toList ++ s) = ls ++ lines s ∧
        lines (e'.toList ++ s) = ls' ++ lines s := by
  induction h with
  | nil => exact ⟨[], [], rfl, fun s => by simp⟩
  | @snoc e e' _ i j message ih =>
    obtain ⟨ls, ls', herase, hls⟩ := ih
    obtain ⟨l, rest, hmessage, -⟩ := lines_reportText i message []
    refine ⟨ls ++ (("Error at line " ++ toString i).toList ++ ':' :: l) :: rest,
      ls' ++ (("Error at line " ++ toString j).toList ++ ':' :: l) :: rest, ?_, fun s => ?_⟩
    · simp only [map_append, map_cons, eraseNumber_report, herase]
    · have hreport (n : Nat) : lines ((reportText n message).toList ++ s) =
          (("Error at line " ++ toString n).toList ++ ':' :: l) :: rest ++ lines s := by
        obtain ⟨l', rest', hmessage', htext⟩ := lines_reportText n message s
        rw [hmessage] at hmessage'
        obtain ⟨hl, rfl⟩ := List.cons.inj hmessage'
        obtain ⟨-, rfl⟩ := List.cons.inj hl
        exact htext
      have happend (d : String) (n : Nat) : (d ++ reportText n message).toList ++ s =
          d.toList ++ ((reportText n message).toList ++ s) := by
        rw [String.toList_append, append_assoc]
      constructor
      · rw [happend, (hls _).1, hreport, append_assoc]
      · rw [happend, (hls _).2, hreport, append_assoc]

theorem Renumbered.eraseNumbers_eq {e e' : String} (h : Renumbered e e') : eraseNumbers e' = eraseNumbers e := by
  obtain ⟨ls, ls', herase, hls⟩ := h.lines_append
  obtain ⟨hleft, hright⟩ := hls []
  rw [append_nil] at hleft hright
  rw [eraseNumbers, eraseNumbers, hleft, hright, map_append, map_append, herase]

/-! ### Runs in two layouts -/

/-- Two machines that only differ in the layout of their functions, and in the numbers of the lines at
which something was reported since a given time. -/
structure Alongside (start : String) (m n : Machine) : Prop where
  out : n.out = m.out
  bindings : n.bindings = m.bindings
  functions : FunctionsRelaid m.functions n.functions
  reports : ∃ e e', m.err = start ++ e ∧ n.err = start ++ e' ∧ Renumbered e e'

def AlongsideWith (start : String) (t u : Table Function) (_ : Option Fault) (m n : Machine) : Prop :=
  Alongside start m n ∧ m.functions = t ∧ n.functions = u

variable {start : String} {t u : Table Function}

theorem lockstep_alongside : Lockstep t u (AlongsideWith start t u) fun _ _ => False where
  bindings h := h.1.bindings
  fault _ h := .inr h
  astray _ := id
  functions h := h.2
  out _ h := ⟨⟨by rw [h.1.out], h.1.bindings, h.1.functions, h.1.reports⟩, h.2⟩
  rebind _ h := ⟨⟨h.1.out, rfl, h.1.functions, h.1.reports⟩, h.2⟩
  astray_functions := False.elim
  astray_stays h := h.elim

theorem tracks_report_alongside (message : String) :
    Tracks (AlongsideWith start t u) (fun _ _ => False) (Machine.report message) (Machine.report message) := by
  refine tracks_modify (fun _ => id) ?_
  rintro m n ⟨⟨hout, hb, hf, e, e', he, he', h⟩, ht⟩
  refine ⟨⟨hout, hb, hf, _, _, ?_, ?_, h.snoc m.line n.line message⟩, ht⟩
  · simp only [he, reportText, String.append_assoc]
  · simp only [he', reportText, String.append_assoc]

theorem tracks_callAt_alongside (h : FunctionsRelaid t u) (depth : Nat) (hf : Table.get? t name = some f)
    (args : List Value) : Tracks (AlongsideWith start t u) (fun _ _ => False) (callAt depth name args)
      (callAt depth name args) := by
  refine lockstep_alongside.tracks_callAt (L := fun l l' => l'.content = l.content) ?_ ?_ ?_ ?_ ?_ depth hf args
  · intro l l' hl
    refine ⟨tracks_modify (fun _ => id) ?_, hl⟩
    rintro m n ⟨⟨hout, hb, hf, hreports⟩, ht⟩
    exact ⟨⟨hout, hb, hf, hreports⟩, ht⟩
  · intro _ _ _ source _
    exact tracks_report_alongside _
  · intro name f hf
    obtain ⟨g, hg, hparams, shift, hshift, hbody⟩ := h.exists_get? hf
    exact ⟨g, hg, hparams, shift, hshift, hbody.imp fun _ _ hl => ⟨hl.indent, hl.content⟩⟩
  · intro name _ hnone depth args
    rw [if_neg (by simp [Table.has, h.get?_eq_none hnone])]
    exact (tracks_report_alongside _).bind fun _ => tracks_pure _
  · exact tracks_throw (fun _ => id) fun _ _ hmn => .inr hmn

namespace Alongside

variable {m n : Machine}

theorem atLine (h : Alongside start m n) (i j : Nat) : Alongside start { m with line := i } { n with line := j } :=
  ⟨h.out, h.bindings, h.functions, h.reports⟩

theorem added (h : Alongside start m n) {d d' : Definition} (hname : d'.name = d.name)
    (hd : d.function.Relaid d'.function) : Alongside start (m.added d) (n.added d') := by
  refine ⟨h.out, h.bindings, ?_, h.reports⟩
  rw [Machine.added, Machine.added, hname]
  exact h.functions.put d.name hd

theorem flagged (h : Alongside start m n) : Alongside start m.flagged n.flagged := by
  refine ⟨h.out, ?_, h.functions, h.reports⟩
  rw [Machine.flagged, Machine.flagged, h.bindings]

theorem mainCalled_eq (h : Alongside start m n) : n.mainCalled = m.mainCalled := by
  rw [Machine.mainCalled, Machine.mainCalled, h.bindings]

theorem callFunction (h : Alongside start m n) (hf : get? m.functions name = some f) (args : List Value) :
    let a := (GzLang.callFunction name args).perform m
    let b := (GzLang.callFunction name args).perform n
    b.1 = a.1 ∧ Alongside start a.2 b.2 := by
  intro a b
  rcases (tracks_callAt_alongside h.functions maxDepth hf args).inStep ⟨h, rfl, rfl⟩ with
    hastray | ⟨hsame, hR, -⟩
  · exact hastray.elim
  · exact ⟨hsame, hR⟩

end Alongside

theorem relaid_defined {l l' : Line} {rest rest' : List Line}
    (hshift : StrictMonoOn shift (indents (l :: rest))) (hl : l.Relaid shift l')
    (hrest : List.Forall₂ (Line.Relaid shift) rest rest') (name : String) (params : List String) :
    (l.defined rest name params).function.Relaid (l'.defined rest' name params).function ∧
      List.Forall₂ (Line.Relaid shift) (afterBlock l.indent rest) (afterBlock l'.indent rest') := by
  obtain ⟨hblock, hafter⟩ := forall₂_blocks hshift (fun _ _ h => h.indent) hrest
    (indents_mono (subset_cons_self l rest)) (mem_indents (mem_cons_self ..))
  rw [← hl.indent] at hblock hafter
  refine ⟨⟨rfl, shift, hshift.mono ?_, hblock⟩, hafter⟩
  exact indents_mono fun k hk => mem_cons_of_mem l ((takeWhile_sublist _).subset hk)

theorem get?_added_main {m : Machine} {d : Definition} (hd : d.name = "main") :
    get? (m.added d).flagged.functions "main" = some d.function := by
  rw [← hd]
  exact get?_put_self ..

theorem runLines_alongside {lines lines' : List Line} (hshift : StrictMonoOn shift (indents lines))
    (hlines : List.Forall₂ (Line.Relaid shift) lines lines') {m n : Machine} (h : Alongside start m n) :
    let a := (runLines lines).perform m
    let b := (runLines lines').perform n
    b.1 = a.1 ∧ Alongside start a.2 b.2 := by
  induction hlen : lines.length using Nat.strongRecOn generalizing lines lines' m n with
  | ind len ih =>
    cases hlines with
    | nil =>
      rw [runLines]
      exact ⟨rfl, h⟩
    | @cons l l' rest rest' hl hrest =>
      have hafter := length_afterBlock_le l.indent rest
      have hmono {c : List Line} (hc : c ⊆ rest) : StrictMonoOn shift (indents c) :=
        hshift.mono (indents_mono fun k hk => mem_cons_of_mem l (hc hk))
      rw [length_cons] at hlen
      cases hdef : definition? l.content with
      | none =>
        have hdef' : definition? l'.content = none := by rw [hl.content, hdef]
        rw [perform_runLines_of_none hdef, perform_runLines_of_none hdef']
        exact ih _ (by omega) (hmono (List.Subset.refl _)) hrest (h.atLine _ _) rfl
      | some words =>
        have hdef' : definition? l'.content = some words := by rw [hl.content, hdef]
        cases words with
        | nil =>
          rw [runLines, runLines, bind_of_ok (perform_atLine ..), bind_of_ok (perform_atLine ..), hdef, hdef']
          exact ⟨rfl, h.atLine _ _⟩
        | cons name params =>
          obtain ⟨hd, hrest'⟩ := relaid_defined hshift hl hrest name params
          have hmono' := hmono (c := afterBlock l.indent rest) (dropWhile_sublist _).subset
          have hadded : Alongside start (m.added (l.defined rest name params))
              (n.added (l'.defined rest' name params)) := h.added rfl hd
          by_cases hmain : name = "main" ∧ m.mainCalled = false
          · obtain ⟨rfl, hflag⟩ := hmain
            have hflag' : n.mainCalled = false := h.mainCalled_eq.trans hflag
            obtain ⟨hsame, hcall⟩ := hadded.flagged.callFunction
              (get?_added_main (m := m) (d := l.defined rest "main" params) rfl) []
            rw [perform_runLines_of_some hdef, perform_runLines_of_some hdef', perform_bind,
              perform_bind, perform_define_main rfl hflag, perform_define_main rfl hflag']
            generalize (GzLang.callFunction "main" []).perform
              (m.added (l.defined rest "main" params)).flagged = r at hsame hcall
            generalize (GzLang.callFunction "main" []).perform
              (n.added (l'.defined rest' "main" params)).flagged = r' at hsame hcall
            obtain ⟨r₁, m'⟩ := r
            obtain ⟨r₁', n'⟩ := r'
            cases hsame
            cases r₁ with
            | error e => exact ⟨rfl, hcall⟩
            | ok v => exact ih _ (by omega) hmono' hrest' hcall rfl
          · have hmain' : ¬ (name = "main" ∧ n.mainCalled = false) := by rwa [h.mainCalled_eq]
            rw [perform_runLines_of_not_main hdef rest hmain, perform_runLines_of_not_main hdef' rest' hmain']
            exact ih _ (by omega) hmono' hrest' hadded rfl

/-- **The layout does not matter.** Let a text differ from a program in its layout: lines without code
are inserted, blanks or comments are appended to lines, and the blanks in front of lines that are not
blank are mapped by a function that is strictly increasing on the indents of the program. From every
machine, the two end alike, with the same output and the same variables, and they define functions of
the same names and parameters. What they report is the same without the numbers of lines. -/
theorem run_of_relaid (f : Nat → Nat) (code code' : String) (hf : StrictMonoOn f (indents (Line.ofSource code)))
    (h : Text.Relaid f (Text.lines code.toList) (Text.lines code'.toList)) (m : Machine) :
    let a := (runSource code).perform m
    let b := (runSource code').perform m
    b.1 = a.1 ∧ b.2.out = a.2.out ∧ b.2.bindings = a.2.bindings ∧ b.2.functions.map (fun p => (p.1, p.2.params)) =
        a.2.functions.map (fun p => (p.1, p.2.params)) ∧
      ∃ e e', a.2.err = m.err ++ e ∧ b.2.err = m.err ++ e' ∧ eraseNumbers e' = eraseNumbers e := by
  intro a b
  have hm : Alongside m.err m m := by
    refine ⟨rfl, rfl, List.forall₂_same.2 fun p _ => ⟨rfl, .refl p.2⟩, "", "", ?_, ?_, .nil⟩
    · rw [String.append_empty]
    · rw [String.append_empty]
  obtain ⟨hsame, hout, hbindings, hfunctions, e, e', he, he', hreports⟩ := runLines_alongside hf (forall₂_ofSource h) hm
  exact ⟨hsame, hout, hbindings, hfunctions.map_params, e, e', he, he', hreports.eraseNumbers_eq⟩

def wideCode : String := "simula main\n    kung tama\n        f()"

def narrowCode : String := "// start\nsimula main // once\n  kung tama\n\n    f() "

theorem lines_wideCode : lines wideCode.toList =
    ["simula main".toList, "    kung tama".toList, "        f()".toList] := by
  cbv

theorem lines_narrowCode : lines narrowCode.toList =
    ["// start".toList, "simula main // once".toList, "  kung tama".toList, [], "    f() ".toList] := by
  cbv

theorem ofSource_wideCode : ofSource wideCode = [⟨1, 0, "simula main"⟩, ⟨2, 4, "kung tama"⟩, ⟨3, 8, "f()"⟩] := by
  cbv

theorem relaid_narrowCode : Text.Relaid (· / 2) (lines wideCode.toList) (lines narrowCode.toList) := by
  have hremark : Text.Tail " // once".toList := ⟨⟨[' '], "// once".toList, rfl, by decide, .inr (by decide)⟩, by decide⟩
  have hblank : Text.Tail [' '] := ⟨⟨[' '], [], rfl, by decide, .inl rfl⟩, by decide⟩
  have hnil : Text.Tail [] := ⟨⟨[], [], rfl, by decide, .inl rfl⟩, by decide⟩
  rw [lines_wideCode, lines_narrowCode]
  refine .insert ⟨[], _, rfl, by decide, .inr (by decide)⟩ ?_
  refine .line (@Text.RelaidLine.text _ [] [] "imula main".toList _ 's' (by decide) (by decide) rfl
    (by decide) hremark) ?_
  refine .line (@Text.RelaidLine.text _ "    ".toList "  ".toList "ung tama".toList [] 'k'
    (by decide) (by decide) rfl (by decide) hnil) ?_
  refine .insert hnil.idle ?_
  exact .line (@Text.RelaidLine.text _ "        ".toList "    ".toList "()".toList _ 'f'
    (by decide) (by decide) rfl (by decide) hblank) .nil

/-- Halving the indents of the program gives the same run, with the report at another line. -/
theorem run_of_narrowCode :
    let a := (runSource wideCode).perform {}
    let b := (runSource narrowCode).perform {}
    b.1 = a.1 ∧ b.2.out = a.2.out ∧ b.2.bindings = a.2.bindings ∧ b.2.functions.map (fun p => (p.1, p.2.params)) =
        a.2.functions.map (fun p => (p.1, p.2.params)) ∧
      eraseNumbers b.2.err = eraseNumbers a.2.err := by
  have hindents : StrictMonoOn (· / 2) (indents (Line.ofSource wideCode)) := by
    rw [ofSource_wideCode]
    rintro i ⟨l, hl, rfl⟩ j ⟨l', hl', rfl⟩ hij
    simp only [List.mem_cons, List.not_mem_nil, or_false] at hl hl'
    rcases hl with rfl | rfl | rfl <;> rcases hl' with rfl | rfl | rfl <;> revert hij <;> decide
  obtain ⟨hsame, hout, hbindings, hfunctions, e, e', he, he', herase⟩ :=
    run_of_relaid _ _ _ hindents relaid_narrowCode {}
  rw [String.empty_append] at he he'
  refine ⟨hsame, hout, hbindings, hfunctions, ?_⟩
  rw [he, he', herase]

end GzLang
