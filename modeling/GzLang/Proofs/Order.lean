import GzLang.Proofs.Report
import GzLang.Proofs.Start
import GzLang.Proofs.Track
import GzLang.Ui.Design

/-!
# The order of definitions

A program calls `main` where it is defined, so functions defined behind it are not known there. Moving
`main` to the end makes a difference exactly if the program reports one of them as not defined.

The two runs go side by side (`Abreast`) until the first one misses a function that is defined later
(`Missed`). The second one never misses it (`Unmissed`), so from there on the reports differ.
-/

namespace GzLang

open GzLang.Action Text List Table Line

variable {name : String}
variable {ds post : List Definition} {o : Option Fault} {d d' : Definition} {f : Function} {l : Line}
  {message code code' : String}

/-! ### Programs without their line numbers -/

def Line.unnumbered (l : Line) : Line :=
  { l with number := 0 }

def Function.unnumbered (f : Function) : Function :=
  { f with body := f.body.map Line.unnumbered }

/-- A definition without the numbers of its lines. -/
def Definition.unnumbered (d : Definition) : Definition :=
  ⟨0, d.name, d.function.unnumbered⟩

theorem Definition.name_eq (h : d'.unnumbered = d.unnumbered) : d'.name = d.name := by
  injection h

/-- What a name stands for depends on the numbers of lines by these numbers only. -/
theorem get?_unnumbered (ds : List Definition) (name : String) :
    (get? (addFunctions [] ds) name).map Function.unnumbered =
      (((ds.map Definition.unnumbered).filter (·.name = name)).getLast?).map (·.function) := by
  rw [get?_addFunctions, filter_map, getLast?_map, Option.map_map, get?_nil, Option.or_none, Option.map_map]
  rfl

theorem forall₂_unnumbered {b b' : List Line} (h : b'.map Line.unnumbered = b.map Line.unnumbered) :
    List.Forall₂ (fun l l' => l'.indent = l.indent ∧ l'.content = l.content) b b' := by
  induction b generalizing b' with
  | nil =>
    obtain rfl : b' = [] := by simpa using h
    exact .nil
  | cons l b ih =>
    obtain ⟨l', b', rfl, hl, hb⟩ := map_eq_cons_iff.1 h
    injection hl with _ hindent hcontent
    exact .cons ⟨hindent, hcontent⟩ (ih hb)

/-! ### Reports of a call -/

def undefinedMessage (name : String) : String :=
  "Function '" ++ name ++ "' not defined"

theorem undefinedMessage_inj {name name' : String}
    (h : undefinedMessage name = undefinedMessage name') : name = name' := by
  have hchars := congrArg String.toList h
  refine String.toList_inj.1 ?_
  simpa [undefinedMessage, String.toList_append] using hchars

theorem newline_not_mem_undefinedMessage (h : ∀ c ∈ name.toList, isWord c) : '\n' ∉ (undefinedMessage name).toList := by
  have hname : '\n' ∉ name.toList := not_mem_of_class (by decide) h
  simpa [undefinedMessage, String.toList_append] using hname

theorem newline_not_mem_unread {source : String} {s : List Char} (hs : '\n' ∉ s) (h : DrawnFrom source.toList s) :
    '\n' ∉ ("Cannot evaluate expression: " ++ source).toList := by
  have hsource : '\n' ∉ source.toList := fun hmem => hs (h.subset hmem)
  simpa [String.toList_append] using hsource

theorem undefinedMessage_ne_unread (name source : String) :
    undefinedMessage name ≠ "Cannot evaluate expression: " ++ source := by
  intro h
  have := congrArg String.toList h
  simp [undefinedMessage, String.toList_append] at this

/-! ### Two runs side by side -/

structure SameOutput (m n : Machine) : Prop where
  out : n.out = m.out
  reports : ∃ ms, Reports m.err ms ∧ Reports n.err ms

/-- Two machines with given functions that are otherwise the same, line numbers aside. -/
structure Abreast (t u : Table Function) (m n : Machine) : Prop extends SameOutput m n where
  bindings : n.bindings = m.bindings
  left : m.functions = t
  right : n.functions = u

/-- A machine has reported one of the given names as not defined. -/
def Missed (later : List String) (m : Machine) : Prop :=
  ∃ ms, Reports m.err ms ∧ ∃ name ∈ later, undefinedMessage name ∈ ms

/-- How the two runs are related: after a fault only the output counts. -/
def AbreastAfter (t u : Table Function) : Option Fault → Machine → Machine → Prop
  | none => Abreast t u
  | some _ => SameOutput

def MissedAfter (t : Table Function) (later : List String) : Option Fault → Machine → Prop
  | none => fun m => m.functions = t ∧ Missed later m
  | some _ => Missed later

variable {t u : Table Function} {later : List String}

theorem AbreastAfter.sameOutput {m n : Machine} (h : AbreastAfter t u o m n) : SameOutput m n := by
  cases o with
  | none => exact h.toSameOutput
  | some _ => exact h

theorem MissedAfter.missed {m : Machine} (h : MissedAfter t later o m) : Missed later m := by
  cases o with
  | none => exact h.2
  | some _ => exact h

theorem lockstep_abreast : Lockstep t u (AbreastAfter t u) (MissedAfter t later) where
  bindings h := h.bindings
  fault _ h := .inr h.toSameOutput
  astray _ h := h.2
  functions h := ⟨h.left, h.right⟩
  out s h := ⟨⟨by rw [h.out], h.reports⟩, h.bindings, h.left, h.right⟩
  rebind b h := ⟨⟨h.out, h.reports⟩, rfl, h.left, h.right⟩
  astray_functions h := h.1
  astray_stays h hf he := ⟨hf.trans h.1, by unfold Missed; rw [he]; exact h.2⟩

theorem tracks_report_abreast (hmessage : '\n' ∉ message.toList) :
    Tracks (AbreastAfter t u) (MissedAfter t later) (Machine.report message) (Machine.report message) := by
  refine tracks_modify ?_ ?_
  · rintro m ⟨hf, ms, hms, name, hname, hmem⟩
    exact ⟨hf, _, hms.snoc m.line hmessage, name, hname, mem_append_left _ hmem⟩
  · rintro m n ⟨⟨hout, ms, hm, hn⟩, hb, hl, hr⟩
    exact ⟨⟨hout, _, hm.snoc m.line hmessage, hn.snoc n.line hmessage⟩, hb, hl, hr⟩

theorem tracks_reportUndefined_abreast (hname : name ∈ later)
    (hmessage : '\n' ∉ (undefinedMessage name).toList) (b : Run Value) :
    Tracks (AbreastAfter t u) (MissedAfter t later) (reportUndefined name) b := by
  refine ⟨?_, ?_⟩
  · rintro m ⟨hf, ms, hms, name', hname', hmem⟩
    exact ⟨hf, _, hms.snoc m.line hmessage, name', hname', mem_append_left _ hmem⟩
  · rintro m n ⟨⟨-, ms, hm, -⟩, -, hl, -⟩
    exact .inl ⟨hl, _, hm.snoc m.line hmessage, name, hname, by simp [undefinedMessage]⟩

/-- The functions of the two sides: those of the first are known on the second with the same lines, and
what is known on the second only is defined later. -/
structure Extends (t u : Table Function) (later : List String) : Prop where
  known : ∀ name f, get? t name = some f → ∃ g, get? u name = some g ∧
    g.unnumbered = f.unnumbered
  unknown : ∀ name, get? t name = none → has u name = true → name ∈ later

def OneLined (t : Table Function) : Prop :=
  ∀ name f, get? t name = some f → ∀ l ∈ f.body, '\n' ∉ l.content.toList

theorem tracks_callAt_abreast (h : Extends t u later) (ht : OneLined t) (depth : Nat)
    (hf : get? t name = some f) (args : List Value) :
    Tracks (AbreastAfter t u) (MissedAfter t later) (callAt depth name args) (callAt depth name args) := by
  refine lockstep_abreast.tracks_callAt (L := fun l l' => '\n' ∉ l.content.toList ∧ l'.content = l.content)
    ?_ ?_ ?_ ?_ ?_ depth hf args
  · rintro l l' ⟨-, hl⟩
    refine ⟨tracks_modify (fun m hm => hm) ?_, hl⟩
    rintro m n ⟨⟨hout, herr⟩, hb, hl, hr⟩
    exact ⟨⟨hout, herr⟩, hb, hl, hr⟩
  · rintro l l' ⟨hl, -⟩ source hsource
    exact tracks_report_abreast (newline_not_mem_unread hl hsource)
  · intro name f hf
    obtain ⟨g, hg, hfg⟩ := h.known name f hf
    injection hfg with hparams hbody
    refine ⟨g, hg, hparams, id, strictMono_id.strictMonoOn _, ?_⟩
    refine ((forall₂_and_left _ _).2 ⟨ht name f hf, forall₂_unnumbered hbody⟩).imp ?_
    rintro l l' ⟨hl, hindent, hcontent⟩
    exact ⟨hindent, hl, hcontent⟩
  · intro name hword hnone depth args
    have hmessage := newline_not_mem_undefinedMessage hword
    cases hu : has u name with
    | false => exact (tracks_report_abreast hmessage).bind fun _ => tracks_pure _
    | true => exact tracks_reportUndefined_abreast (h.unknown name hnone hu) hmessage _
  · exact tracks_throw (fun _ hm => hm.2) fun _ _ hmn => .inr hmn.toSameOutput

/-! ### A run that misses nothing -/

/-- The same machine, which has reported none of the given names as not defined. -/
structure Unmissed (later : List String) (m n : Machine) : Prop where
  same : n = m
  reports : ∃ ms, Reports m.err ms ∧ ∀ name ∈ later, undefinedMessage name ∉ ms

/-- The same machine at all times, with the given functions until a fault. -/
def UnmissedAfter (t : Table Function) (later : List String) : Option Fault → Machine → Machine → Prop
  | none => fun m n => Unmissed later m n ∧ m.functions = t
  | some _ => Unmissed later

theorem UnmissedAfter.unmissed {m n : Machine} (h : UnmissedAfter t later o m n) : Unmissed later m n := by
  cases o with
  | none => exact h.1
  | some _ => exact h

theorem lockstep_unmissed : Lockstep t t (UnmissedAfter t later) fun _ _ => False where
  bindings := by rintro m _ ⟨⟨rfl, -⟩, -⟩; rfl
  fault _ h := .inr h.1
  astray _ := id
  functions := by rintro m _ ⟨⟨rfl, -⟩, h⟩; exact ⟨h, h⟩
  out _ := by rintro ⟨⟨rfl, h⟩, ht⟩; exact ⟨⟨rfl, h⟩, ht⟩
  rebind _ := by rintro ⟨⟨rfl, h⟩, ht⟩; exact ⟨⟨rfl, h⟩, ht⟩
  astray_functions := False.elim
  astray_stays h := h.elim

theorem tracks_report_unmissed (hmessage : '\n' ∉ message.toList)
    (hne : ∀ name ∈ later, undefinedMessage name ≠ message) :
    Tracks (UnmissedAfter t later) (fun _ _ => False) (Machine.report message) (Machine.report message) := by
  refine tracks_modify (fun _ => id) ?_
  rintro m _ ⟨⟨rfl, ms, hms, hnone⟩, ht⟩
  refine ⟨⟨rfl, _, hms.snoc _ hmessage, fun name hname hmem => ?_⟩, ht⟩
  rcases mem_append.1 hmem with hmem | hmem
  · exact hnone name hname hmem
  · exact hne name hname (mem_singleton.1 hmem)

theorem tracks_callAt_unmissed (hlater : ∀ name ∈ later, has t name) (ht : OneLined t)
    (depth : Nat) (hf : get? t name = some f) (args : List Value) :
    Tracks (UnmissedAfter t later) (fun _ _ => False) (callAt depth name args) (callAt depth name args) := by
  refine lockstep_unmissed.tracks_callAt
    (L := fun l l' => '\n' ∉ l.content.toList ∧ l' = l) ?_ ?_ ?_ ?_ ?_ depth hf args
  · rintro l _ ⟨-, rfl⟩
    refine ⟨tracks_modify (fun _ => id) ?_, rfl⟩
    rintro m _ ⟨⟨rfl, h⟩, ht⟩
    exact ⟨⟨rfl, h⟩, ht⟩
  · rintro l _ ⟨hl, rfl⟩ source hsource
    exact tracks_report_unmissed (newline_not_mem_unread hl hsource) fun name _ =>
      undefinedMessage_ne_unread name source
  · intro name f hf
    exact ⟨f, hf, rfl, id, strictMono_id.strictMonoOn _, forall₂_same.2 fun l hl => ⟨rfl, ht name f hf l hl, rfl⟩⟩
  · intro name hword hnone depth args
    rw [if_neg (by simp [has, hnone])]
    refine Tracks.bind (tracks_report_unmissed (newline_not_mem_undefinedMessage hword) ?_) fun _ => tracks_pure _
    intro name' hname' heq
    have := hlater name' hname'
    rw [undefinedMessage_inj heq] at this
    simp [has, hnone] at this
  · exact tracks_throw (fun _ => id) fun _ _ hmn => .inr hmn.1

/-! ### Moving `main` to the end -/

theorem exists_of_get?_addFunctions (h : get? (addFunctions [] ds) name = some f) :
    ∃ d ∈ ds, d.name = name ∧ d.function = f := by
  rw [get?_addFunctions, get?_nil, Option.or_none] at h
  obtain ⟨d, hd, rfl⟩ := Option.map_eq_some_iff.1 h
  obtain ⟨hmem, hname⟩ := mem_filter.1 (mem_of_getLast? hd)
  exact ⟨d, hmem, of_decide_eq_true hname, rfl⟩

theorem has_addFunctions (hd : d ∈ ds) : has (addFunctions [] ds) d.name := by
  have hmem : d ∈ ds.filter (·.name = d.name) := mem_filter.2 ⟨hd, by simp⟩
  rw [has, get?_addFunctions, get?_nil, Option.or_none, getLast?_eq_getLast_of_ne_nil (ne_nil_of_mem hmem)]
  rfl

theorem get?_addFunctions_skip (h : name ∉ post.map (·.name)) (pre rest : List Definition) :
    get? (addFunctions [] (pre ++ post ++ rest)) name = get? (addFunctions [] (pre ++ rest)) name := by
  have hnone : post.filter (·.name = name) = [] := by
    simpa [filter_eq_nil_iff] using h
  rw [get?_addFunctions, get?_addFunctions, filter_append, filter_append, hnone, append_nil, filter_append]

theorem mem_of_mem_body {lines : List Line} (hd : d ∈ definitions lines) (hl : l ∈ d.function.body) : l ∈ lines := by
  fun_induction definitions lines with
  | case1 => cases hd
  | case2 l' rest name params hdef ih =>
    rcases mem_cons.1 hd with rfl | hd
    · exact mem_cons_of_mem _ ((takeWhile_sublist _).subset hl)
    · exact mem_cons_of_mem _ ((dropWhile_sublist _).subset (ih hd))
  | case3 l' rest _ ih => exact mem_cons_of_mem _ (ih hd)

theorem oneLined_of_subset (code : String) (h : ds ⊆ definitions (ofSource code)) : OneLined (addFunctions [] ds) := by
  intro name f hf l hl
  obtain ⟨d, hd, -, rfl⟩ := exists_of_get?_addFunctions hf
  exact newline_not_mem (mem_of_mem_body (h hd) hl)

section Moved

variable {pre post ds : List Definition} {d : Definition}

/-- With `main` at the end, a name that is not defined behind `main` stands for the same function. -/
theorem get?_moved (h : ds.map Definition.unnumbered = (pre ++ post ++ [d]).map Definition.unnumbered)
    {name : String} (hname : name ∉ post.map (·.name)) :
    (get? (addFunctions [] ds) name).map Function.unnumbered =
      (get? (addFunctions [] (pre ++ [d])) name).map Function.unnumbered := by
  rw [get?_unnumbered, h, ← get?_unnumbered, get?_addFunctions_skip hname]

theorem extends_moved (hnames : ((pre ++ d :: post).map (·.name)).Nodup)
    (h : ds.map Definition.unnumbered = (pre ++ post ++ [d]).map Definition.unnumbered) :
    Extends (addFunctions [] (pre ++ [d])) (addFunctions [] ds) (post.map (·.name)) where
  known name f hf := by
    obtain ⟨e, he, rfl, -⟩ := exists_of_get?_addFunctions hf
    have hpost : e.name ∉ post.map (·.name) := by
      intro hmem
      rw [append_cons, map_append] at hnames
      exact (nodup_append.1 hnames).2.2 _ (mem_map_of_mem he) _ hmem rfl
    have hsame := get?_moved h hpost
    rw [hf] at hsame
    obtain ⟨g, hg, hfg⟩ := Option.map_eq_some_iff.1 hsame
    exact ⟨g, hg, hfg⟩
  unknown name hnone hhas := by
    by_contra hpost
    have hsame := get?_moved h hpost
    rw [hnone, Option.map_none, Option.map_eq_none_iff] at hsame
    simp [has, hsame] at hhas

theorem has_moved (h : ds.map Definition.unnumbered = (pre ++ post ++ [d]).map Definition.unnumbered)
    {name : String} (hname : name ∈ post.map (·.name)) :
    has (addFunctions [] ds) name := by
  obtain ⟨e, he, rfl⟩ := mem_map.1 hname
  have hmem : e.unnumbered ∈ ds.map Definition.unnumbered := by
    rw [h]
    exact mem_map_of_mem (by simp [he])
  obtain ⟨e', he', heq⟩ := mem_map.1 hmem
  rw [← Definition.name_eq heq]
  exact has_addFunctions he'

/-- The call of `main` where it stands goes along with the call at the end, unless it misses a
function. -/
theorem calls_of_moved {pre' : List Definition} (hcode : definitions (Line.ofSource code) = pre ++ d :: post)
    (hcode' : definitions (Line.ofSource code') = pre' ++ [d']) (hd : d.name = "main")
    (hnames : ((pre ++ d :: post).map (·.name)).Nodup)
    (h : (pre' ++ [d']).map Definition.unnumbered = (pre ++ post ++ [d]).map Definition.unnumbered) :
    let r := (callFunction "main" []).perform (.atMain pre d)
    let r' := (callFunction "main" []).perform (.atMain pre' d')
    (Missed (post.map (·.name)) r.2 ∨ r'.1 = r.1 ∧ SameOutput r.2 r'.2) ∧
      ∃ ms, Reports r'.2.err ms ∧ ∀ e ∈ post, undefinedMessage e.name ∉ ms := by
  intro r r'
  have hmain : ∃ f, get? (addFunctions [] (pre ++ [d])) "main" = some f := by
    rw [← Option.isSome_iff_exists, ← hd]
    exact has_addFunctions (by simp)
  obtain ⟨f, hf⟩ := hmain
  have hextends := extends_moved hnames h
  obtain ⟨g, hg, -⟩ := hextends.known _ f hf
  have ht : OneLined (addFunctions [] (pre ++ [d])) := oneLined_of_subset code (by
      rw [hcode, append_cons pre d post]
      exact subset_append_left _ _)
  have hu : OneLined (addFunctions [] (pre' ++ [d'])) := oneLined_of_subset code' (hcode' ▸ List.Subset.refl _)
  have hstart : Abreast (addFunctions [] (pre ++ [d])) (addFunctions [] (pre' ++ [d']))
      (.atMain pre d) (.atMain pre' d') := ⟨⟨rfl, [], .nil, .nil⟩, rfl, rfl, rfl⟩
  constructor
  · rcases (tracks_callAt_abreast hextends ht maxDepth hf []).inStep hstart with hX | ⟨hsame, hR⟩
    · exact .inl hX.missed
    · exact .inr ⟨hsame, hR.sameOutput⟩
  · have hstart' : UnmissedAfter (addFunctions [] (pre' ++ [d'])) (post.map (·.name)) none
        (.atMain pre' d') (.atMain pre' d') := ⟨⟨rfl, [], .nil, by simp⟩, rfl⟩
    have hcall := tracks_callAt_unmissed (fun _ => has_moved h) hu maxDepth hg []
    rcases hcall.inStep hstart' with hX | ⟨-, hR⟩
    · exact hX.elim
    · obtain ⟨ms, hms, hnone⟩ := hR.unmissed.reports
      exact ⟨ms, hms, fun e he => hnone _ (mem_map_of_mem he)⟩

/-- Moving `main` behind all other definitions changes what a program does exactly if the program
reports one of the functions defined behind `main` as not defined. -/
theorem same_of_moved_iff (hcode : definitions (Line.ofSource code) = pre ++ d :: post)
    (hcode' : (definitions (Line.ofSource code')).map Definition.unnumbered =
      (pre ++ post ++ [d]).map Definition.unnumbered)
    (hd : d.name = "main") (hnames : ((pre ++ d :: post).map (·.name)).Nodup) :
    let a := (runSource code).perform {}
    let b := (runSource code').perform {}
    (b.1 = a.1 ∧ b.2.out = a.2.out ∧ messages b.2.err = messages a.2.err) ↔
      ∀ e ∈ post, undefinedMessage e.name ∉ messages a.2.err := by
  intro a b
  obtain ⟨pre', ds, hds, hpre', hlast⟩ := map_eq_append_iff.1 (hcode'.trans (map_append ..))
  obtain ⟨d', rfl, hd'⟩ := map_eq_singleton_iff.1 hlast
  have hname : d'.name = "main" := (Definition.name_eq hd').trans hd
  -- no other definition has the name of `main`, before and after the move
  have hother : ∀ e ∈ pre ++ post, e.name ≠ "main" := by
    rw [map_append, map_cons, nodup_middle, nodup_cons, ← map_append, hd] at hnames
    intro e he hmain
    exact hnames.1 (hmain ▸ mem_map_of_mem he)
  have hother' : ∀ e ∈ pre', e.name ≠ "main" := by
    intro e he
    have hmem : e.unnumbered ∈ (pre ++ post).map Definition.unnumbered := hpre' ▸ mem_map_of_mem he
    obtain ⟨e', he', heq⟩ := mem_map.1 hmem
    exact Definition.name_eq heq ▸ hother e' he'
  obtain ⟨ha, haout, haerr⟩ := perform_runLines_start (named_ofSource code) hcode hd
    fun e he => hother e (mem_append_left _ he)
  obtain ⟨hb, hbout, hberr⟩ := perform_runLines_start (named_ofSource code') hds hname hother'
  obtain ⟨hcalls, ms', hms', hnone'⟩ := calls_of_moved hcode hds hd hnames (hds ▸ hcode')
  constructor
  · rintro ⟨-, -, hmessages⟩ e he hmem
    rw [← hmessages, show b.2.err = _ from hberr, hms'.messages_eq] at hmem
    exact hnone' e he hmem
  · intro hnone
    rw [show a.2.err = _ from haerr] at hnone
    rcases hcalls with ⟨ms, hms, name, hmem, hmissed⟩ | ⟨hsame, hout, ms, hms, hms''⟩
    · obtain ⟨e, he, rfl⟩ := mem_map.1 hmem
      rw [hms.messages_eq] at hnone
      exact absurd hmissed (hnone e he)
    · refine ⟨hb.trans (hsame ▸ ha.symm), hbout.trans (hout.trans haout.symm), ?_⟩
      rw [show b.2.err = _ from hberr, show a.2.err = _ from haerr, hms.messages_eq, hms''.messages_eq]

end Moved

/-! ### Programs that build an interface -/

theorem Line.blocks_append (hl : l.indent = 0) (k : Nat) (lines rest : List Line) :
    block k (lines ++ l :: rest) = block k lines ∧
      afterBlock k (lines ++ l :: rest) = afterBlock k lines ++ l :: rest := by
  unfold block afterBlock
  induction lines with
  | nil => simp [hl]
  | cons m lines ih =>
    by_cases hm : k < m.indent
    · simp [hm, ih.1, ih.2]
    · simp [hm]

theorem definitions_append (hl : l.indent = 0) (lines rest : List Line) :
    definitions (lines ++ l :: rest) = definitions lines ++ definitions (l :: rest) := by
  induction hlen : lines.length using Nat.strongRecOn generalizing lines with
  | ind len ih =>
    cases lines with
    | nil => simp [definitions]
    | cons m lines =>
      have hafter := length_afterBlock_le m.indent lines
      rw [length_cons] at hlen
      obtain ⟨hblock, hrest⟩ := blocks_append hl m.indent lines rest
      rw [cons_append, definitions, definitions]
      split
      · rw [defined, hblock, hrest, ih _ (by omega) _ rfl]
        rfl
      · exact ih _ (by omega) lines rfl

/-- The lines that a list of texts is read as, numbered from `k` on. -/
def Line.readAll (k : Nat) (texts : List (List Char)) : List Line :=
  (texts.zipIdx k).filterMap fun (s, n) => read? n s

theorem Line.readAll_append (k : Nat) (texts texts' : List (List Char)) : readAll k (texts ++ texts') =
      readAll k texts ++ readAll (k + texts.length) texts' := by
  simp [readAll, zipIdx_append]

namespace Ui.Design

theorem generate_eq (d : Design) : ∃ rest, d.generate.toList =
    "// Generated UI code".toList ++ '\n' :: ("simula init_ui".toList ++ '\n' :: rest) := by
  obtain ⟨l, ls, hls⟩ : ∃ l ls, d.generatedLines = "// Generated UI code" :: "simula init_ui" :: l :: ls := by
    have hne : d.generatedLines.drop 2 ≠ [] := by simp [generatedLines]
    obtain ⟨l, ls, hls⟩ := exists_cons_of_ne_nil hne
    refine ⟨l, ls, ?_⟩
    rw [← hls]
    simp [generatedLines]
  rw [generate, hls, String.toList_intercalate]
  simp [intercalate]

/-- The generated program starts behind the own lines of the source, with `init_ui`. -/
theorem ofSource_replaceSections (d : Design) (code : String) : ∃ k rest, ofSource (replaceSections code d.generate) =
      ofSource (String.ofList (Section.removeAll code.toList)) ++ ⟨k, 0, "simula init_ui"⟩ :: rest := by
  obtain ⟨rest, hrest⟩ := d.generate_eq
  have htext : (replaceSections code d.generate).toList =
      Section.removeAll code.toList ++ '\n' :: ([] ++ '\n' :: d.generate.toList) := by
    simp [replaceSections]
  have hcomment : lines "// Generated UI code".toList = ["// Generated UI code".toList] :=
    splitAll_of_not_mem (by decide)
  have hinit : lines "simula init_ui".toList = ["simula init_ui".toList] := splitAll_of_not_mem (by decide)
  have hread (n : Nat) (ls : List (List Char)) :
      readAll n ([] :: "// Generated UI code".toList :: "simula init_ui".toList :: ls) =
        ⟨n + 2, 0, "simula init_ui"⟩ :: readAll (n + 3) ls := by
    simp only [readAll, zipIdx_cons]
    rfl
  have hall : ofSource (replaceSections code d.generate) = ofSource (String.ofList (Section.removeAll code.toList)) ++
        readAll (1 + (lines (Section.removeAll code.toList)).length)
          ([] :: "// Generated UI code".toList :: "simula init_ui".toList :: lines rest) := by
    have hown : (String.ofList (Section.removeAll code.toList)).toList =
        Section.removeAll code.toList := String.toList_ofList ..
    change readAll 1 _ = readAll 1 _ ++ _
    rw [hown, htext, hrest, lines_append_break, lines_append_break,
      lines_append_break, lines_append_break, hcomment, hinit, readAll_append,
      lines_nil]
    rfl
  rw [hall, hread]
  exact ⟨_, _, rfl⟩

end Ui.Design

/-- The program that is compiled from a source with sections does what the `main` of the source does
without `init_ui`, although it defines that function. -/
theorem interface_defined_behind_main (design : Ui.Design)
    (hsections : Ui.Section.extract code.toList ≠ []) {pre : List Definition}
    (hcode : definitions (ofSource (String.ofList (Ui.Section.removeAll code.toList))) =
      pre ++ d :: post) (hd : d.name = "main")
    (hpre : ∀ e ∈ pre, e.name ≠ "main" ∧ e.name ≠ "init_ui") :
    let compiled := (design.compile code).1.code
    let a := (runSource compiled).perform {}
    let r := (callFunction "main" []).perform (.atMain pre d)
    (∃ e ∈ definitions (ofSource compiled), e.name = "init_ui") ∧
      get? (Machine.atMain pre d).functions "init_ui" = none ∧
      a.1 = r.1.map (fun _ => ()) ∧ a.2.out = r.2.out ∧ a.2.err = r.2.err := by
  intro compiled a r
  obtain ⟨k, rest, hlines⟩ := Ui.Design.ofSource_replaceSections
    ((Ui.Section.extract code.toList).foldl Ui.Design.addSection { design with source := code }) code
  have hcompiled : ofSource compiled = ofSource (String.ofList (Ui.Section.removeAll code.toList)) ++
        ⟨k, 0, "simula init_ui"⟩ :: rest := by
    rw [← hlines]
    simp only [compiled, Ui.Design.compile]
    rw [if_neg (by simpa using hsections)]
  have hinit : definition? "simula init_ui" = some ["init_ui"] := rfl
  have hdefs : definitions (ofSource compiled) =
      pre ++ d :: (post ++ definitions (⟨k, 0, "simula init_ui"⟩ :: rest)) := by
    rw [hcompiled, definitions_append rfl, hcode]
    simp
  refine ⟨?_, ?_, perform_runLines_start (named_ofSource compiled) hdefs hd fun e he => (hpre e he).1⟩
  · rw [hdefs, definitions_of_some hinit]
    exact ⟨defined _ _ _ _, mem_append_right _ (mem_cons_of_mem _ (mem_append_right _ (mem_cons_self ..))), rfl⟩
  · cases hnone : get? (Machine.atMain pre d).functions "init_ui" with
    | none => rfl
    | some f =>
      obtain ⟨e, he, hname, -⟩ := exists_of_get?_addFunctions hnone
      rcases mem_append.1 he with he | he
      · exact absurd hname (hpre e he).2
      · rw [mem_singleton.1 he, hd] at hname
        exact absurd hname (by decide)

/-- **`main` sees only what is defined before it.** Let the functions of a program have distinct names,
one of them `main`, and let another program have the same definitions with `main` moved to the end. The
two end alike, with the same output and the same messages, exactly if the first one does not report a
function that is defined behind `main`. A program compiled from a source with sections defines `init_ui`
behind its `main`, and so it does what `main` does where `init_ui` is not known. -/
theorem main_sees_earlier_definitions {code code' : String} {pre post : List Definition}
    {d : Definition} (hcode : definitions (Line.ofSource code) = pre ++ d :: post)
    (hcode' : (definitions (Line.ofSource code')).map Definition.unnumbered =
      (pre ++ post ++ [d]).map Definition.unnumbered)
    (hd : d.name = "main") (hnames : ((pre ++ d :: post).map (·.name)).Nodup) :
    (let a := (runSource code).perform {}
      let b := (runSource code').perform {}
      (b.1 = a.1 ∧ b.2.out = a.2.out ∧ messages b.2.err = messages a.2.err) ↔
        ∀ e ∈ post, undefinedMessage e.name ∉ messages a.2.err) ∧
    ∀ (design : Ui.Design) (source : String) (pre post : List Definition) (d : Definition),
      Ui.Section.extract source.toList ≠ [] →
      definitions (Line.ofSource (String.ofList (Ui.Section.removeAll source.toList))) = pre ++ d :: post →
      d.name = "main" → (∀ e ∈ pre, e.name ≠ "main" ∧ e.name ≠ "init_ui") →
      let compiled := (design.compile source).1.code
      let a := (runSource compiled).perform {}
      let r := (callFunction "main" []).perform (.atMain pre d)
      (∃ e ∈ definitions (Line.ofSource compiled), e.name = "init_ui") ∧
        Table.get? (Machine.atMain pre d).functions "init_ui" = none ∧
        a.1 = r.1.map (fun _ => ()) ∧ a.2.out = r.2.out ∧ a.2.err = r.2.err := by
  refine ⟨same_of_moved_iff hcode hcode' hd hnames, ?_⟩
  intro design source pre post d hsections hsource hd hpre
  exact interface_defined_behind_main design hsections hsource hd hpre

def lateMain : Definition := ⟨1, "main", ⟨[], [⟨2, 1, "sulat f()"⟩]⟩⟩

def lateFunction : Definition := ⟨3, "f", ⟨[], [⟨4, 1, "balik 1"⟩]⟩⟩

def lateCode : String := "simula main\n sulat f()\nsimula f\n balik 1"

def lateCodeMoved : String := "simula f\n balik 1\nsimula main\n sulat f()"

theorem definitions_lateCode : definitions (ofSource lateCode) = [] ++ lateMain :: [lateFunction] := by
  cbv

theorem definitions_lateCodeMoved : (definitions (Line.ofSource lateCodeMoved)).map Definition.unnumbered =
      ([] ++ [lateFunction] ++ [lateMain]).map Definition.unnumbered := by
  cbv

/-- A source with a section whose `main` sets up the interface. -/
def interfaceCode : String := "ui_element w\x7b\x7d\nsimula main\n init_ui()"

/-- A `main` that calls a function defined behind it reports it, and so the program does something else
with `main` at the end. A `main` that sets up an interface reports that `init_ui` is not defined. -/
theorem late_definitions_are_missed :
    let a := (runSource lateCode).perform {}
    let b := (runSource lateCodeMoved).perform {}
    let c := (runSource (Ui.Design.compile {} interfaceCode).1.code).perform {}
    a.2.out = "None\n" ∧ messages a.2.err = [undefinedMessage "f"] ∧
      ¬ (b.1 = a.1 ∧ b.2.out = a.2.out ∧ messages b.2.err = messages a.2.err) ∧
      messages c.2.err = [undefinedMessage "init_ui"] := by
  intro a b c
  have hmessages : messages a.2.err = [undefinedMessage "f"] := by decide +kernel
  refine ⟨by decide +kernel, hmessages, fun hsame => ?_, by decide +kernel⟩
  have hnone := (main_sees_earlier_definitions definitions_lateCode definitions_lateCodeMoved rfl
    (by decide)).1.1 hsame lateFunction (List.mem_singleton_self _)
  rw [show ((runSource lateCode).perform {}).2.err = a.2.err from rfl, hmessages] at hnone
  exact hnone (List.mem_singleton_self _)

end GzLang
