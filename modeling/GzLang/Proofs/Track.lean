import Mathlib.Data.List.Forall2
import Mathlib.Data.Set.Monotone
import GzLang.Proofs.Drawn
import GzLang.Proofs.Shallow

/-!
# Programs that track one another

Here the interpreter is gone through case by case, once for all: what two runs have in common, what
calls keep, and how deep they nest are instances. Two blocks track one another if their lines do,
one by one (`tracks_execBlock`); the numbers of the lines may differ, and so may their indents as
long as they are mapped by a function that is strictly increasing on them. An expression, and so a
line, tracks itself if the calls do that can be read in its text, and the reports of what cannot be
read (`Steady.tracks_evaluate`, `Lockstep.tracked`).

Which faults the two runs may end with is up to the relation, except that values never fail for the
depth of calls (`Shallow`).
-/

namespace GzLang

open Action Text List Table Line Expr Machine

variable {s : List Char} {L : Line → Line → Prop} {shift : Nat → Nat}

/-! ### Expressions -/

variable {R : Option Fault → Machine → Machine → Prop} {X : Option Fault → Machine → Prop}
  {call call' : Caller}

/-- A relation between machines, and what is astray, that evaluation can go along with. -/
structure Steady (R : Option Fault → Machine → Machine → Prop)
    (X : Option Fault → Machine → Prop) : Prop where
  bindings {m n : Machine} : R none m n → n.bindings = m.bindings
  fault {m n : Machine} {f : Fault} (hf : f ≠ .tooDeep) : R none m n → X (some f) m ∨ R (some f) m n
  astray {m : Machine} (f : Fault) : X none m → X (some f) m

theorem Steady.tracks_ofExcept {α : Type} (h : Steady R X) {e : Except Fault α} (he : Shallow e) :
    Tracks R X (Action.ofExcept e) (Action.ofExcept e) := by
  cases e with
  | ok x => exact tracks_pure x
  | error f => exact tracks_throw (fun _ => h.astray f) fun _ _ => h.fault (he f rfl)

theorem Steady.tracks_orVariable (h : Steady R X) (source : String) {a b : Run Value}
    (hab : Tracks R X a b) : Tracks R X (orVariable source a) (orVariable source b) := by
  have hlookup : Tracks R X (lookup source) (lookup source) :=
    ⟨fun _ hm => hm, fun m n hmn => .inr ⟨by simp [h.bindings hmn], hmn⟩⟩
  refine hlookup.bind fun v => ?_
  cases v with
  | none => exact hab
  | some v => exact tracks_pure v

theorem tracks_evalAll {es : List Expr} (h : ∀ e ∈ es, Tracks R X (e.eval call) (e.eval call')) :
    Tracks R X (evalAll call es) (evalAll call' es) := by
  induction es with
  | nil =>
    rw [evalAll, evalAll]
    exact tracks_pure _
  | cons e es ih =>
    rw [evalAll, evalAll]
    exact (h e (mem_cons_self ..)).bind fun _ =>
      (ih fun d hd => h d (mem_cons_of_mem _ hd)).bind fun _ => tracks_pure _

/-- Two ways to call do the same with all calls that can be read in a text, and what cannot be read
in it can be reported. -/
structure TracksIn (R : Option Fault → Machine → Machine → Prop)
    (X : Option Fault → Machine → Prop) (call call' : Caller) (s : List Char) : Prop where
  calls {name : String} (args : List Value) : Calls s name →
    Tracks R X (callKnown call name args) (callKnown call' name args)
  report {source : String} : DrawnFrom source.toList s →
    Tracks R X (report ("Cannot evaluate expression: " ++ source))
      (report ("Cannot evaluate expression: " ++ source))

theorem TracksIn.mono {e : List Char} (h : TracksIn R X call call' s) (hes : DrawnFrom e s) :
    TracksIn R X call call' e :=
  ⟨fun args he => h.calls args (he.mono hes), fun he => h.report (he.trans hes)⟩

theorem Steady.tracks_eval (h : Steady R X) (hs : TracksIn R X call call' s)
    {e : Expr} (he : e.DrawnFrom s) : Tracks R X (e.eval call) (e.eval call') := by
  induction he with
  | text t => rw [eval, eval]; exact tracks_pure _
  | digits t =>
    rw [eval, eval]
    exact (h.tracks_ofExcept (mild_integer t).shallow).bind fun _ => tracks_pure _
  | constant => rw [eval, eval]; exact tracks_pure _
  | @call source name args hname _ ih =>
    rw [eval, eval]
    exact h.tracks_orVariable source ((tracks_evalAll ih).bind fun vs => hs.calls vs hname)
  | @binary source op l r _ _ ihl ihr =>
    rw [eval, eval]
    exact h.tracks_orVariable source (ihl.bind fun v => ihr.bind fun w =>
      h.tracks_ofExcept (mild_apply op v w).shallow)
  | @other source hsource =>
    rw [eval, eval]
    exact h.tracks_orVariable source ((hs.report hsource).bind fun _ => tracks_pure _)

theorem Steady.tracks_evaluate (h : Steady R X) (hs : TracksIn R X call call' s) :
    Tracks R X (evaluate call s) (evaluate call' s) :=
  h.tracks_eval hs (drawnFrom_parse (drawnFrom_of_isInfix (infix_refl s)))

theorem Steady.tracks_evalPrintArgs (h : Steady R X) (hs : TracksIn R X call call' s) :
    Tracks R X (evalPrintArgs call s) (evalPrintArgs call' s) := by
  refine Tracks.mapM fun a ha => ?_
  cases a with
  | text t => exact tracks_pure _
  | expr e => exact h.tracks_evaluate (hs.mono (PrintArg.drawnFrom_ofText ha))

theorem Steady.tracks_printLine (h : Steady R X) (hw : ∀ s, Tracks R X (write s) (write s)) (vs : List Value) :
    Tracks R X (printLine vs) (printLine vs) := by
  refine Tracks.bind ?_ fun _ => hw _
  induction vs with
  | nil => exact tracks_pure _
  | cons v vs ih =>
    have hv := (h.tracks_ofExcept (mild_display v).shallow).bind hw
    cases vs with
    | nil => exact hv
    | cons w vs =>
      unfold printValues
      simpa only [bind_assoc] using hv.bind fun _ => (hw _).bind fun _ => ih

/-! ### Blocks -/

/-- What the statement of one line does, that of another does too. -/
inductive Statement.Tracked (R : Option Fault → Machine → Machine → Prop)
    (X : Option Fault → Machine → Prop) (call call' : Caller) : Statement → Statement → Prop
  | giveBack {e : List Char} (h : Tracks R X (GzLang.evaluate call e) (GzLang.evaluate call' e)) :
    Tracked R X call call' (.giveBack e) (.giveBack e)
  | print {args : List Char}
    (h : Tracks R X (do printLine (← evalPrintArgs call args))
      do printLine (← evalPrintArgs call' args)) : Tracked R X call call' (.print args) (.print args)
  | branch {c c' : List Char}
    (h : Tracks R X (do return (← GzLang.evaluate call c).isTrue)
      do return (← GzLang.evaluate call' c').isTrue) :
    Tracked R X call call' (.branch c) (.branch c')
  | loop {x : String} {bounds : Except Fault (Int × Int)}
    (hbounds : Tracks R X (Action.ofExcept bounds) (Action.ofExcept bounds))
    (hset : ∀ i, Tracks R X (Machine.assign x (.int i)) (Machine.assign x (.int i))) :
    Tracked R X call call' (.loop x bounds) (.loop x bounds)
  | assign {x : String} {e : List Char}
    (h : Tracks R X (do Machine.assign x (← GzLang.evaluate call e))
      do Machine.assign x (← GzLang.evaluate call' e)) :
    Tracked R X call call' (.assign x e) (.assign x e)
  | evaluate {e : List Char} (h : Tracks R X (GzLang.evaluate call e) (GzLang.evaluate call' e)) :
    Tracked R X call call' (.evaluate e) (.evaluate e)
  | skip : Tracked R X call call' .skip .skip
  /-- A loop without bounds that goes astray, whatever takes its place. -/
  | fault (x : String) {f : Fault} (h : ∀ b : Run Value, Tracks R X (throw f) b) (s : Statement) :
    Tracked R X call call' (.loop x (.error f)) s

/-- A line in the place of another one, whose indent is mapped by a function. -/
structure Line.Tracked (shift : Nat → Nat) (R : Option Fault → Machine → Machine → Prop)
    (X : Option Fault → Machine → Prop) (call call' : Caller) (l l' : Line) : Prop where
  number : Tracks R X (Machine.atLine l.number) (Machine.atLine l'.number)
  indent : l'.indent = shift l.indent
  statement : Statement.Tracked R X call call' (Statement.parse l.content.toList)
    (Statement.parse l'.content.toList)

def indents (b : List Line) : Set Nat :=
  {k | ∃ l ∈ b, l.indent = k}

theorem mem_indents {b : List Line} {l : Line} (h : l ∈ b) : l.indent ∈ indents b := ⟨l, h, rfl⟩

theorem indents_mono {b c : List Line} (h : b ⊆ c) : indents b ⊆ indents c := fun _ ⟨l, hl, hk⟩ => ⟨l, h hl, hk⟩

/-- Lines whose indents are mapped by a function that is strictly increasing on them form the same
blocks. -/
theorem forall₂_blocks {s : Set Nat} (hshift : StrictMonoOn shift s)
    (hL : ∀ l l', L l l' → l'.indent = shift l.indent) {b b' : List Line}
    (h : List.Forall₂ L b b') (hb : indents b ⊆ s) {k : Nat} (hk : k ∈ s) :
    List.Forall₂ L (block k b) (block (shift k) b') ∧ List.Forall₂ L (afterBlock k b) (afterBlock (shift k) b') := by
  induction h with
  | nil => exact ⟨.nil, .nil⟩
  | @cons l l' b b' hl hrest ih =>
    have ih := ih fun i hi => hb (indents_mono (subset_cons_self l b) hi)
    have hiff : shift k < l'.indent ↔ k < l.indent := by
      rw [hL l l' hl]
      exact hshift.lt_iff_lt hk (hb (mem_indents (mem_cons_self ..)))
    by_cases hk : k < l.indent
    · have hk' := hiff.2 hk
      simp only [block, afterBlock, takeWhile_cons, dropWhile_cons, hk, hk', decide_true, if_true]
      exact ⟨.cons hl ih.1, ih.2⟩
    · have hk' := mt hiff.1 hk
      simp only [block, afterBlock, takeWhile_cons, dropWhile_cons, hk, hk', decide_false, Bool.false_eq_true, if_false]
      exact ⟨.nil, .cons hl hrest⟩

theorem tracks_repeatBlock {x : String} {a b : Run Value} (hx : ∀ i, Tracks R X (assign x (.int i)) (assign x (.int i)))
    (h : Tracks R X a b) (count : Nat) (i : Int) :
    Tracks R X (repeatBlock x a count i) (repeatBlock x b count i) := by
  induction count generalizing i with
  | zero => exact tracks_pure _
  | succ count ih =>
    refine (hx i).bind fun _ => h.bind fun v => ?_
    split
    · exact ih (i + 1)
    · exact tracks_pure v

theorem tracks_execBlock {b b' : List Line} (hshift : StrictMonoOn shift (indents b))
    (h : List.Forall₂ (Line.Tracked shift R X call call') b b') :
    Tracks R X (execBlock call b) (execBlock call' b') := by
  -- the block of a line and what is behind it are no longer than the lines that they are cut from
  induction hn : b.length using Nat.strongRecOn generalizing b b' with
  | ind n ih =>
    cases h with
    | nil =>
      rw [execBlock, execBlock]
      exact tracks_pure _
    | @cons l l' rest rest' hl hrest =>
      have hsub : ∀ {c c' : List Line}, List.Forall₂ (Line.Tracked shift R X call call') c c' →
          List.Sublist c rest → Tracks R X (execBlock call c) (execBlock call' c') := by
        intro c c' hc hsub
        have hlen := hsub.length_le
        have hmono := indents_mono fun k hk => mem_cons_of_mem l (hsub.subset hk)
        exact ih _ (by simp only [length_cons] at hn; omega) (hshift.mono hmono) hc rfl
      obtain ⟨hblock, hafterBlock⟩ := forall₂_blocks hshift (fun _ _ h => h.indent) hrest
        (indents_mono (subset_cons_self l rest)) (mem_indents (mem_cons_self ..))
      have hin := hsub hblock (takeWhile_sublist _)
      have hafter := hsub hafterBlock (dropWhile_sublist _)
      have hnext := hsub hrest (List.Sublist.refl _)
      have hthen (r : Value) : Tracks R X (if r.isNull then execBlock call (afterBlock l.indent rest) else return r)
          (if r.isNull then execBlock call' (afterBlock (shift l.indent) rest')
            else return r) := by
        split
        · exact hafter
        · exact tracks_pure r
      rw [execBlock, execBlock, hl.indent]
      refine hl.number.bind fun _ => ?_
      obtain hs := hl.statement
      generalize Statement.parse l.content.toList = s at hs
      generalize Statement.parse l'.content.toList = s' at hs
      cases hs with
      | giveBack he =>
        dsimp only
        split
        · exact tracks_pure _
        · exact he
      | print hargs => simpa only [bind_assoc] using hargs.bind fun _ => hnext
      | branch hc =>
        -- the conditions may differ as long as their truth does not
        have hboth (t : Bool) : Tracks R X (if t then execBlock call (block l.indent rest) >>= fun r =>
                if r.isNull then execBlock call (afterBlock l.indent rest) else return r
              else execBlock call (afterBlock l.indent rest))
            (if t then execBlock call' (block (shift l.indent) rest') >>= fun r =>
                if r.isNull then execBlock call' (afterBlock (shift l.indent) rest')
                else return r
              else execBlock call' (afterBlock (shift l.indent) rest')) := by
          split
          · exact hin.bind hthen
          · exact hafter
        simpa only [bind_assoc, pure_bind] using hc.bind hboth
      | loop hbounds hset =>
        exact hbounds.bind fun p => (tracks_repeatBlock hset hin _ _).bind hthen
      | assign he => simpa only [bind_assoc] using he.bind fun _ => hnext
      | evaluate he => exact he.bind fun _ => hnext
      | skip => exact hnext
      | fault x hf s => exact hf _

/-! ### Lines that track themselves -/

variable {t u : Table Function}

/-- A relation between machines with given functions that lines can go along with. Being astray is
a matter of what was reported. -/
structure Lockstep (t u : Table Function) (R : Option Fault → Machine → Machine → Prop)
    (X : Option Fault → Machine → Prop) : Prop extends Steady R X where
  functions {m n : Machine} : R none m n → m.functions = t ∧ n.functions = u
  out {m n : Machine} (s : String) :
    R none m n → R none { m with out := m.out ++ s } { n with out := n.out ++ s }
  rebind {m n : Machine} (b : Table Value) :
    R none m n → R none { m with bindings := b } { n with bindings := b }
  astray_functions {m : Machine} : X none m → m.functions = t
  astray_stays {m n : Machine} : X none m → n.functions = m.functions → n.err = m.err → X none n

namespace Lockstep

variable {name : String}

variable (h : Lockstep t u R X)
variable {args : List Value}

include h

theorem tracks_assign (x : String) (v : Value) : Tracks R X (assign x v) (assign x v) :=
  tracks_modify (fun _ hm => h.astray_stays hm rfl rfl) fun m n hmn => by
    rw [h.bindings hmn]
    exact h.rebind _ hmn

theorem tracks_printLine (vs : List Value) : Tracks R X (printLine vs) (printLine vs) :=
  h.toSteady.tracks_printLine (fun s =>
    tracks_modify (fun _ hm => h.astray_stays hm rfl rfl) fun _ _ hmn => h.out s hmn) vs

/-- A statement tracks itself if what can be called and reported in its line does. -/
theorem tracked_parse (hs : TracksIn R X call call' s) :
    Statement.Tracked R X call call' (Statement.parse s) (Statement.parse s) := by
  have hin {e : List Char} (he : (Statement.parse s).text? = some e) :
      TracksIn R X call call' e := hs.mono (Statement.drawnFrom_of_text? he)
  cases hp : Statement.parse s <;> rw [hp] at hin
  case giveBack e => exact .giveBack (h.tracks_evaluate (hin rfl))
  case print args =>
    exact .print ((h.tracks_evalPrintArgs (hin rfl)).bind fun vs => h.tracks_printLine vs)
  case branch c => exact .branch ((h.tracks_evaluate (hin rfl)).bind fun _ => tracks_pure _)
  case loop x bounds =>
    exact .loop (h.tracks_ofExcept (mild_of_parse hp).shallow) fun i => h.tracks_assign x (.int i)
  case assign x e =>
    exact .assign ((h.tracks_evaluate (hin rfl)).bind fun v => h.tracks_assign x v)
  case evaluate e => exact .evaluate (h.tracks_evaluate (hin rfl))
  case skip => exact .skip

/-- A call tracks another one if the bodies do: it sets the variables of both machines alike. -/
theorem tracks_invoke {f g : Function} (hparams : g.params = f.params)
    (hbody : Tracks R X (execBlock call f.body) (execBlock call' g.body)) (args : List Value) :
    Tracks R X (invoke call f args) (invoke call' g args) := by
  have hset (b : Table Value) : Tracks R X (modify fun m => { m with bindings := b })
      (modify fun m => { m with bindings := b }) :=
    tracks_modify (fun _ hm => h.astray_stays hm rfl rfl) fun _ _ hmn => h.rebind b hmn
  have hbind : Tracks R X (modify fun m => { m with bindings := bindParams f.params args m.bindings })
      (modify fun m => { m with bindings := bindParams g.params args m.bindings }) :=
    tracks_modify (fun _ hm => h.astray_stays hm rfl rfl) fun m n hmn => by
      rw [h.bindings hmn, hparams]
      exact h.rebind _ hmn
  have hrest (b : Table Value) : Tracks R X (do
        modify fun m => { m with bindings := bindParams f.params args m.bindings }
        let v ← execBlock call f.body
        modify fun m => { m with bindings := b }
        return v)
      (do
        modify fun m => { m with bindings := bindParams g.params args m.bindings }
        let v ← execBlock call' g.body
        modify fun m => { m with bindings := b }
        return v) :=
    hbind.bind fun _ => hbody.bind fun _ => (hset b).bind fun _ => tracks_pure _
  refine tracks_get (fun m _ => ⟨_, hrest m.bindings⟩) fun m n hmn => ?_
  rw [h.bindings hmn]
  exact hrest m.bindings

/-- Actions may be replaced by others that do the same with the functions of the two sides. -/
theorem tracks_congr {α : Type} {a a' b b' : Run α} (ha : ∀ m, m.functions = t → a.perform m = a'.perform m)
    (hb : ∀ n, n.functions = u → b.perform n = b'.perform n) (hab : Tracks R X a' b') :
    Tracks R X a b := by
  refine ⟨fun m hm => ?_, fun m n hmn => ?_⟩
  · rw [ha m (h.astray_functions hm)]
    exact hab.astray hm
  · obtain ⟨hm, hn⟩ := h.functions hmn
    rw [ha m hm, hb n hn]
    exact hab.inStep hmn

/-- A known function is called on both sides. An unknown one is reported, whatever the other side
does with it. -/
theorem tracks_callKnown (hknown : ∀ f, get? t name = some f →
      has u name ∧ Tracks R X (call name args) (call' name args))
    (hunknown : get? t name = none → Tracks R X (reportUndefined name)
      (if has u name then call' name args else reportUndefined name)) :
    Tracks R X (callKnown call name args) (callKnown call' name args) := by
  have hsides : Tracks R X (if has t name then call name args else reportUndefined name)
      (if has u name then call' name args else reportUndefined name) := by
    cases hf : get? t name with
    | none =>
      rw [if_neg (by simp [has, hf])]
      exact hunknown hf
    | some f =>
      rw [if_pos (by simp [has, hf]), if_pos (hknown f hf).1]
      exact (hknown f hf).2
  exact h.tracks_congr (fun m hm => by rw [perform_callKnown, hm])
    (fun n hn => by rw [perform_callKnown, hn]) hsides

theorem tracks_callAt_none (ht : get? t name = none) (hu : get? u name = none)
    (hreport : Tracks R X (reportUndefined name) (reportUndefined name)) (depth depth' : Nat)
    (args : List Value) : Tracks R X (callAt depth name args) (callAt depth' name args) :=
  h.tracks_congr (fun _ hm => perform_callAt_none (hm ▸ ht) depth args)
    (fun _ hn => perform_callAt_none (hn ▸ hu) depth' args) hreport

theorem tracks_callAt_succ {f g : Function} {depth depth' : Nat} (hf : get? t name = some f) (hg : get? u name = some g)
    (hfg : Tracks R X (invoke (callAt depth) f args) (invoke (callAt depth') g args)) :
    Tracks R X (callAt (depth + 1) name args) (callAt (depth' + 1) name args) :=
  h.tracks_congr (fun _ hm => perform_callAt_invoke (hm ▸ hf) depth args)
    (fun _ hn => perform_callAt_invoke (hn ▸ hg) depth' args) hfg

/-- Calls track one another at the same depth if known functions have the same parameters and bodies
that differ in numbers and indents only, and unknown ones are reported. -/
theorem tracks_callAt (hline : ∀ l l', L l l' → Tracks R X (atLine l.number) (atLine l'.number) ∧
      l'.content = l.content)
    (hreport : ∀ l l', L l l' → ∀ source : String, DrawnFrom source.toList l.content.toList →
      Tracks R X (report ("Cannot evaluate expression: " ++ source))
        (report ("Cannot evaluate expression: " ++ source)))
    (hknown : ∀ name f, get? t name = some f → ∃ g, get? u name = some g ∧
      g.params = f.params ∧ ∃ shift, StrictMonoOn shift (indents f.body) ∧
        List.Forall₂ (fun l l' => l'.indent = shift l.indent ∧ L l l') f.body g.body)
    (hunknown : ∀ name : String, (∀ c ∈ name.toList, Text.isWord c) →
      get? t name = none → ∀ depth args, Tracks R X (reportUndefined name)
        (if has u name then callAt depth name args else reportUndefined name))
    (hdeep : Tracks R X (throw .tooDeep : Run Value) (throw .tooDeep))
    (depth : Nat) {f : Function} (hf : get? t name = some f)
    (args : List Value) : Tracks R X (callAt depth name args) (callAt depth name args) := by
  induction depth generalizing name f args with
  | zero =>
    obtain ⟨g, hg, -⟩ := hknown name f hf
    exact h.tracks_congr (fun _ hm => perform_callAt_zero (hm ▸ hf) args)
      (fun _ hn => perform_callAt_zero (hn ▸ hg) args) hdeep
  | succ depth ih =>
    obtain ⟨g, hg, hparams, shift, hshift, hbody⟩ := hknown name f hf
    refine h.tracks_callAt_succ hf hg (h.tracks_invoke hparams ?_ args)
    refine tracks_execBlock hshift (hbody.imp fun l l' hl => ?_)
    obtain ⟨hnumber, hcontent⟩ := hline l l' hl.2
    have hin : TracksIn R X (callAt depth) (callAt depth) l.content.toList := by
      refine ⟨fun {callee} vs hcalls => h.tracks_callKnown (fun f' hf' => ?_) fun hnone => ?_,
        fun hsource => hreport l l' hl.2 _ hsource⟩
      · obtain ⟨g', hg', -⟩ := hknown callee f' hf'
        exact ⟨by simp [has, hg'], ih hf' vs⟩
      · exact hunknown callee hcalls.isWord hnone depth vs
    exact ⟨hnumber, hl.1, by rw [hcontent]; exact h.tracked_parse hin⟩

end Lockstep

end GzLang
