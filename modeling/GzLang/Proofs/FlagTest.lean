import GzLang.Proofs.Track
import GzLang.Proofs.FormulaReading

/-!
# Programs that differ in the tests of flags

A flag is a variable that is only ever set to a truth value: a constant, the outcome of a comparison
or another flag. So it is true exactly when it equals the true constant (`Settled`). Two programs
are alike when they have the same lines, except that a test of a flag against the true constant may
be a test of the flag alone, and a loop header that cannot be carried out may be anything
(`Line.Alike`). The main result is that the second one follows the first: if the first runs without
a fault, so does the second, with the same output and the same reports (`runSource_of_alike`).
-/

namespace GzLang

open Action List Table Text Expr Statement Operator

variable {call : Caller}
variable {x : String} {t : Table Value} {e s : List Char} {l l' : Line} {v w r : Value}

/-! ### Tests -/

/-- The test of a variable against the true constant, with blanks around the sign. -/
def Variable.test (x : Variable) (u v : List Char) : List Char :=
  x.chars ++ u ++ (Operator.eq.sign ++ (v ++ "tama".toList))

theorem isSign_of_isBlank {c : Char} (h : isBlank c) : isSign c = false := by
  have hall : ∀ d ∈ "+-*/<>=!".toList, isBlank d = false := by decide
  cases hs : isSign c with
  | false => rfl
  | true =>
    have := hall c (by simpa [isSign] using hs)
    rw [h] at this
    cases this

theorem Variable.parse_test (x : Variable) {u v : List Char} (hu : ∀ c ∈ u, isBlank c) (hv : ∀ c ∈ v, isBlank c) :
    Expr.parse (x.test u v) = .binary (String.ofList (x.test u v)) .eq (.other x.name) (.constant (.bool true)) := by
  have hxu : ∀ c ∈ x.chars ++ u, isSign c = false := by
    intro c hc
    rcases mem_append.1 hc with h | h
    · exact Expr.isSign_of_isWord (x.word c h)
    · exact isSign_of_isBlank (hu c h)
  have hvt : ∀ c ∈ v ++ "tama".toList, isSign c = false := by
    intro c hc
    rcases mem_append.1 hc with h | h
    · exact isSign_of_isBlank (hv c h)
    · have : ∀ d ∈ "tama".toList, isSign d = false := by decide
      exact this c h
  have hsplit : split? (x.test u v) = some (.eq, _, _) := Comparison.split?_compare .eq hxu hvt
  have hdetached : Expr.Detached (u ++ (Operator.eq.sign ++ (v ++ "tama".toList))) := by
    refine Expr.Detached.append ?_ (Expr.detached_cons (by decide) _)
    rintro c r rfl
    have hc := hu c (by simp)
    refine ⟨?_, ?_⟩
    · cases hw : isWord c with
      | false => rfl
      | true => rw [isBlank_of_isWord hw] at hc; cases hc
    · rintro rfl
      revert hc
      decide
  have hcall : Expr.call? (x.test u v) = none := by
    rw [Variable.test, append_assoc]
    exact Expr.call?_word x.word hdetached
  have hquoted : Expr.quoted (x.test u v) = false := by
    obtain ⟨c, t, ht⟩ := exists_cons_of_ne_nil x.ne_nil
    have hc : c ≠ '"' := by
      rintro rfl
      have := x.word '"' (by simp [ht])
      revert this
      decide
    rw [Variable.test, ht]
    exact Expr.quoted_of_head hc
  have hx : trim (x.chars ++ u) = x.chars := trim_around (u := []) (solid_of_isWord x.ne_nil x.word) (by simp) hu
  have ht : trim (v ++ "tama".toList) = "tama".toList := by
    have := trim_around (s := "tama".toList) (v := []) (solid_of_isWord (by decide) (by decide)) hv (by simp)
    rwa [append_nil] at this
  rw [Expr.parse_of_split hquoted hcall hsplit, hx, ht, Expr.parse_variable, Expr.parse_of_constant rfl]

/-! ### Lines and programs that are alike -/

def Operator.isComparison : Operator → Bool
  | .add | .sub | .mul | .div => false
  | .le | .ge | .eq | .ne | .lt | .gt => true

section

variable (flag : String → Prop)

/-- A line that may stand in the place of another one: the same, or the test of a flag without the
comparison, or anything for a loop header that cannot be carried out. -/
inductive Line.Alike : Line → Line → Prop
  | same (l : Line) : Alike l l
  | test {l l' : Line} (hnumber : l'.number = l.number) (hindent : l'.indent = l.indent)
    {x : Variable} {u v : List Char} (hx : flag x.name)
    (hu : ∀ c ∈ u, isBlank c = true) (hv : ∀ c ∈ v, isBlank c = true)
    (hl : Statement.parse l.content.toList = .branch (x.test u v))
    (hl' : Statement.parse l'.content.toList = .branch x.chars) : Alike l l'
  | header {l l' : Line} (hnumber : l'.number = l.number) (hindent : l'.indent = l.indent)
    {name : String} {fault : Fault}
    (hl : Statement.parse l.content.toList = .loop name (.error fault))
    (hl' : definition? l'.content = none) : Alike l l'

def SignFree (x : String) : Prop := ∀ c ∈ x.toList, isSign c = false

instance (x : String) : Decidable (SignFree x) :=
  inferInstanceAs (Decidable (∀ c ∈ x.toList, isSign c = false))

/-- A name that a program may set to any value: no flag, and not like a comparison. -/
def FreeName (x : String) : Prop := SignFree x ∧ ¬ flag x

/-- An expression that says whether something holds: a constant, a comparison, or another flag. -/
def TruthText (e : List Char) : Prop :=
  (∃ v, Expr.constant? e = some v) ∨
    (∃ op l r, Expr.parse e = .binary (String.ofList e) op l r ∧ op.isComparison = true) ∨
    ∃ x, Expr.parse e = .other x ∧ flag x

/-- A line that sets flags to truth values only, and no names with signs. -/
structure Line.Tame (l : Line) : Prop where
  assign : ∀ x e, Statement.parse l.content.toList = .assign x e →
    SignFree x ∧ (flag x → TruthText flag e)
  loop : ∀ x bounds, Statement.parse l.content.toList = .loop x bounds → FreeName flag x
  params : ∀ name params, definition? l.content = some (name :: params) →
    ∀ p ∈ params, FreeName flag p

structure Function.Alike (f g : Function) : Prop where
  params : g.params = f.params
  body : List.Forall₂ (Line.Alike flag) f.body g.body
  tame : ∀ l ∈ f.body, l.Tame flag
  free : ∀ p ∈ f.params, FreeName flag p

/-- Every flag is true exactly when it equals the true constant. -/
def Settled (t : Table Value) : Prop :=
  ∀ x v, get? t x = some v →
    SignFree x ∧ (flag x → v.isTrue = v.equal (.bool true))

def AlikeFunctions (t u : Table Function) : Prop :=
  List.Forall₂ (fun a b => b.1 = a.1 ∧ a.2.Alike flag b.2) t u

structure Machine.Alike (m n : Machine) : Prop where
  bindings : n.bindings = m.bindings
  functions : AlikeFunctions flag m.functions n.functions
  line : n.line = m.line
  out : n.out = m.out
  err : n.err = m.err
  settled : Settled flag m.bindings

end

variable {flag : String → Prop}

theorem Settled.put (ht : Settled flag t) (hx : SignFree x) (hv : flag x → v.isTrue = v.equal (.bool true)) :
    Settled flag (put t x v) := by
  intro y w hy
  by_cases hxy : x = y
  · subst hxy
    rw [get?_put_self] at hy
    cases hy
    exact ⟨hx, hv⟩
  · rw [get?_put_of_ne t hxy] at hy
    exact ht y w hy

theorem Settled.bindParams (ht : Settled flag t) {ps : List String}
    (hps : ∀ p ∈ ps, FreeName flag p) (vs : List Value) : Settled flag (bindParams ps vs t) := by
  induction ps generalizing vs t with
  | nil => exact ht
  | cons p ps ih =>
    cases vs with
    | nil => exact ht
    | cons v vs =>
      have hp := hps p (by simp)
      exact ih (ht.put hp.1 fun h => absurd h hp.2) (fun q hq => hps q (mem_cons_of_mem p hq)) vs

theorem isTrue_constant (h : constant? e = some v) : v.isTrue = v.equal (.bool true) := by
  unfold constant? at h
  split at h
  · cases h; rfl
  · split at h
    · cases h; rfl
    · split at h
      · cases h; rfl
      · cases h

namespace AlikeFunctions

variable {t u : Table Function}

theorem get? (h : AlikeFunctions flag t u) (name : String) : (Table.get? t name = none ∧ Table.get? u name = none) ∨
      ∃ f g, Table.get? t name = some f ∧ Table.get? u name = some g ∧ f.Alike flag g := by
  induction h with
  | nil => exact .inl ⟨rfl, rfl⟩
  | @cons a b as bs hab _ ih =>
    by_cases ha : a.1 = name
    · right
      refine ⟨a.2, b.2, ?_, ?_, hab.2⟩
      · rw [Table.get?, if_pos ha]
      · rw [Table.get?, if_pos (hab.1.trans ha)]
    · rw [Table.get?, Table.get?, if_neg ha, if_neg (by rw [hab.1]; exact ha)]
      exact ih

theorem put (h : AlikeFunctions flag t u) (name : String) {f g : Function}
    (hfg : f.Alike flag g) : AlikeFunctions flag (Table.put t name f) (Table.put u name g) := by
  induction h with
  | nil => exact .cons ⟨rfl, hfg⟩ .nil
  | @cons a b as bs hab h ih =>
    by_cases ha : a.1 = name
    · rw [Table.put, Table.put, if_pos ha, if_pos (hab.1.trans ha)]
      exact .cons ⟨rfl, hfg⟩ h
    · rw [Table.put, Table.put, if_neg ha, if_neg (by rw [hab.1]; exact ha)]
      exact .cons hab ih

end AlikeFunctions

/-! ### Alike machines -/

theorem steady_alike : Steady (fun _ => Machine.Alike flag) fun f _ => f ≠ none where
  bindings h := h.bindings
  fault _ _ := .inl nofun
  astray _ h := absurd rfl h

theorem follows_report (message : String) :
    Follows (Machine.Alike flag) (Machine.report message) (Machine.report message) :=
  follows_modify fun _ _ h =>
    ⟨h.bindings, h.functions, h.line, h.out, by rw [h.err, h.line], h.settled⟩

theorem follows_reportUndefined (name : String) :
    Follows (Machine.Alike flag) (reportUndefined name) (reportUndefined name) :=
  (follows_report _).bind fun _ => tracks_pure _

theorem follows_atLine (k : Nat) : Follows (Machine.Alike flag) (Machine.atLine k) (Machine.atLine k) :=
  follows_modify fun _ _ h => ⟨h.bindings, h.functions, rfl, h.out, h.err, h.settled⟩

theorem follows_assign (hx : SignFree x) (hv : flag x → v.isTrue = v.equal (.bool true)) :
    Follows (Machine.Alike flag) (Machine.assign x v) (Machine.assign x v) :=
  follows_modify fun _ _ h =>
    ⟨by rw [h.bindings], h.functions, h.line, h.out, h.err, h.settled.put hx hv⟩

/-! ### Truth values -/

/-- What has a sign in its text is no variable. -/
theorem Settled.get?_eq_none (ht : Settled flag t) {c : Char}
    (hc : c ∈ s) (hs : isSign c) : get? t (String.ofList s) = none := by
  cases hget : get? t (String.ofList s) with
  | none => rfl
  | some v =>
    have := (ht _ v hget).1 c (by simpa using hc)
    rw [hs] at this
    cases this

theorem isTrue_of_flag {m m' : Machine} (hm : Settled flag m.bindings) (hx : flag x)
    (h : ((Expr.other x).eval call).perform m = (.ok w, m')) : w.isTrue = w.equal (.bool true) := by
  rw [eval] at h
  cases hget : get? m.bindings x with
  | some v =>
    rw [perform_orVariable_some hget] at h
    cases h
    exact (hm x _ hget).2 hx
  | none =>
    rw [perform_orVariable_none hget] at h
    cases h
    rfl

theorem exists_bool_of_map {e : Except Fault Bool} (h : e.map Value.bool = .ok r) : ∃ b, r = .bool b := by
  cases e with
  | error f => cases h
  | ok b => cases h; exact ⟨b, rfl⟩

theorem exists_bool_of_apply {op : Operator} (hop : op.isComparison) (h : op.apply v w = .ok r) : ∃ b, r = .bool b := by
  cases op with
  | add | sub | mul | div => cases hop
  | eq | ne => cases h; exact ⟨_, rfl⟩
  | le | ge | lt | gt => exact exists_bool_of_map h

theorem isTrue_of_truthText {m m' : Machine} (hm : Settled flag m.bindings) (he : TruthText flag e)
    (h : (evaluate call e).perform m = (.ok w, m')) : w.isTrue = w.equal (.bool true) := by
  rw [evaluate] at h
  rcases he with ⟨v, hv⟩ | ⟨op, l, r, hp, hop⟩ | ⟨x, hp, hx⟩
  · rw [parse_of_constant hv, eval] at h
    cases h
    exact isTrue_constant hv
  · obtain ⟨c, t, hc⟩ := exists_cons_of_ne_nil (sign_ne_nil op)
    have hmem : c ∈ op.sign := by simp [hc]
    -- the text has the sign of the comparison in it, so it is no variable
    have hsource := hm.get?_eq_none (sign_subset_of_parse hp hmem) (isSign_of_mem_sign hmem)
    rw [hp, eval, perform_orVariable_none hsource] at h
    obtain ⟨v, m₁, -, h⟩ := bind_eq_ok.1 h
    obtain ⟨u, m₂, -, h⟩ := bind_eq_ok.1 h
    rw [perform_ofExcept] at h
    obtain ⟨b, rfl⟩ := exists_bool_of_apply hop (congrArg Prod.fst h)
    cases b <;> rfl
  · rw [hp] at h
    exact isTrue_of_flag hm hx h

/-! ### Lines and blocks -/

theorem Line.Alike.number (h : l.Alike flag l') : l'.number = l.number := by
  cases h with
  | same => rfl
  | test hnumber | header hnumber => exact hnumber

theorem Line.Alike.indent (h : l.Alike flag l') : l'.indent = l.indent := by
  cases h with
  | same => rfl
  | test _ hindent | header _ hindent => exact hindent

theorem forall₂_block {b b' : List Line} (h : List.Forall₂ (Line.Alike flag) b b') (k : Nat) :
    List.Forall₂ (Line.Alike flag) (Line.block k b) (Line.block k b') ∧
      List.Forall₂ (Line.Alike flag) (Line.afterBlock k b) (Line.afterBlock k b') :=
  forall₂_blocks (strictMono_id.strictMonoOn Set.univ) (fun _ _ h => h.indent) h (Set.subset_univ _) (Set.mem_univ k)

section

variable (hcall : ∀ name args, Follows (Machine.Alike flag) (call name args) (call name args))

include hcall

theorem tracksIn_alike (s : List Char) : TracksIn (fun _ => Machine.Alike flag) (fun f _ => f ≠ none) call call s where
  calls {name} args _ := by
    refine follows_get fun m n h => ?_
    have hhas : Table.has n.functions name = Table.has m.functions name := by
      rcases h.functions.get? name with ⟨h₁, h₂⟩ | ⟨f, g, h₁, h₂, -⟩ <;> simp [Table.has, h₁, h₂]
    rw [hhas]
    split
    · exact hcall name args
    · exact follows_reportUndefined name
  report _ := follows_report _

theorem follows_evaluate (s : List Char) : Follows (Machine.Alike flag) (evaluate call s) (evaluate call s) :=
  steady_alike.tracks_evaluate (tracksIn_alike hcall s)

/-- The test of a flag comes out as the flag itself does. -/
theorem follows_test {x : Variable} (hx : flag x.name) {u v : List Char} (hu : ∀ c ∈ u, isBlank c)
    (hv : ∀ c ∈ v, isBlank c) :
    Follows (Machine.Alike flag) (do return (← evaluate call (x.test u v)).isTrue)
      do return (← evaluate call x.chars).isTrue := by
  refine follows_iff.2 fun m n h b m' hm => ?_
  -- a variable with the whole test as its name would be taken first, but names have no signs
  have hsource : Table.get? m.bindings (String.ofList (x.test u v)) = none :=
    h.settled.get?_eq_none (c := '=') (by simp [Variable.test, sign]) (by decide)
  rw [evaluate, x.parse_test hu hv, Expr.eval] at hm
  obtain ⟨_, m₁, hm, hb⟩ := bind_eq_ok.1 hm
  rw [perform_orVariable_none hsource] at hm
  obtain ⟨w, m₂, hw, hm⟩ := bind_eq_ok.1 hm
  rw [Expr.eval] at hm
  cases hm
  cases hb
  have hvariable : (evaluate call x.chars).perform m = (.ok w, m') := by
    rw [evaluate, Expr.parse_variable]
    exact hw
  obtain ⟨n', hn, hn'⟩ := follows_iff.1 (follows_evaluate hcall x.chars) h hvariable
  refine ⟨n', ?_, hn'⟩
  rw [bind_of_ok hn, isTrue_of_flag h.settled hx hw]
  rfl

theorem Line.Tame.follows_assign (h : l.Tame flag) (hl : Statement.parse l.content.toList = .assign x e) :
    Follows (Machine.Alike flag) (do Machine.assign x (← evaluate call e))
      (do Machine.assign x (← evaluate call e)) := by
  obtain ⟨hx, htruth⟩ := h.assign x e hl
  refine follows_iff.2 fun m n hmn _ m' hm => ?_
  obtain ⟨w, m₁, hw, hm⟩ := bind_eq_ok.1 hm
  obtain ⟨n₁, hn, hmn₁⟩ := follows_iff.1 (follows_evaluate hcall e) hmn hw
  rw [bind_of_ok hn]
  exact follows_iff.1 (GzLang.follows_assign hx fun hf => isTrue_of_truthText hmn.settled (htruth hf) hw) hmn₁ hm

theorem Line.Alike.tracked (h : l.Alike flag l') (ht : l.Tame flag) :
    Line.Tracked id (fun _ => Machine.Alike flag) (fun f _ => f ≠ none) call call l l' := by
  refine ⟨by rw [h.number]; exact follows_atLine _, h.indent, ?_⟩
  cases h with
  | same =>
    have heval := follows_evaluate hcall
    cases hs : Statement.parse l.content.toList with
    | giveBack e => exact .giveBack (heval e)
    | print args =>
      refine .print ((steady_alike.tracks_evalPrintArgs (tracksIn_alike hcall args)).bind fun vs =>
        steady_alike.tracks_printLine (fun s => follows_modify fun _ _ h => ?_) vs)
      exact ⟨h.bindings, h.functions, h.line, by rw [h.out], h.err, h.settled⟩
    | branch c => exact .branch ((heval c).bind fun _ => tracks_pure _)
    | loop x bounds =>
      have hx := ht.loop x bounds hs
      exact .loop (steady_alike.tracks_ofExcept (mild_of_parse hs).shallow) fun _ =>
        GzLang.follows_assign hx.1 fun hf => absurd hf hx.2
    | assign x e => exact .assign (ht.follows_assign hcall hs)
    | evaluate e => exact .evaluate (heval e)
    | skip => exact .skip
  | test _ _ hx hu hv hl hl' =>
    rw [hl, hl']
    exact .branch (follows_test hcall hx hu hv)
  | header _ _ hl hl' =>
    rw [hl]
    exact .fault _ (follows_throw _) _

theorem follows_of_alike {b b' : List Line} (h : List.Forall₂ (Line.Alike flag) b b')
    (ht : ∀ l ∈ b, l.Tame flag) : Follows (Machine.Alike flag) (execBlock call b) (execBlock call b') :=
  tracks_execBlock (strictMono_id.strictMonoOn _)
    (((forall₂_and_left _ _).2 ⟨ht, h⟩).imp fun _ _ hl => hl.2.tracked hcall hl.1)

end

/-! ### Calls and programs -/

theorem follows_callAt (depth : Nat) (name : String) (args : List Value) :
    Follows (Machine.Alike flag) (callAt depth name args) (callAt depth name args) := by
  induction depth generalizing name args with
  | zero =>
    rw [callAt]
    refine follows_get fun m n h => ?_
    rcases h.functions.get? name with ⟨h₁, h₂⟩ | ⟨f, g, h₁, h₂, -⟩ <;> rw [h₁, h₂]
    · exact follows_reportUndefined name
    · exact follows_throw _ _
  | succ depth ih =>
    rw [callAt]
    refine follows_get fun m n h => ?_
    rcases h.functions.get? name with ⟨h₁, h₂⟩ | ⟨f, g, h₁, h₂, hfg⟩ <;> rw [h₁, h₂]
    · exact follows_reportUndefined name
    · refine follows_get fun m n h => ?_
      rw [h.bindings, hfg.params]
      refine (follows_modify fun _ _ h' => ?_).bind fun _ =>
        (follows_of_alike ih hfg.body hfg.tame).bind fun _ =>
          (follows_modify fun _ _ h' => ?_).bind fun _ => tracks_pure _
      · exact ⟨by rw [h'.bindings], h'.functions, h'.line, h'.out, h'.err,
          h'.settled.bindParams hfg.free args⟩
      · -- the variables of the caller come back, and with them the flags
        exact ⟨rfl, h'.functions, h'.line, h'.out, h'.err, h.settled⟩

theorem follows_define (name : String) {f g : Function} (hfg : f.Alike flag g) :
    Follows (Machine.Alike flag) (define name f) (define name g) := by
  refine (follows_modify fun m n h => ?_).bind fun _ => follows_get fun m n h => ?_
  · exact ⟨h.bindings, h.functions.put name hfg, h.line, h.out, h.err, h.settled⟩
  · have hcalled : n.mainCalled = m.mainCalled := by rw [Machine.mainCalled, h.bindings]; rfl
    rw [hcalled]
    split
    · exact (follows_assign (by decide) fun _ => rfl).bind fun _ =>
        (follows_callAt maxDepth "main" []).bind fun _ => tracks_pure _
    · exact tracks_pure _

/-- A definition starts with a keyword of its own. -/
theorem definition?_eq_none {s : String} (h : (∃ c, Statement.parse s.toList = .branch c) ∨
    ∃ x b, Statement.parse s.toList = .loop x b) : definition? s = none := by
  have hs := spells_parse s.toList
  unfold definition?
  obtain ⟨c, h⟩ | ⟨x, b, h⟩ := h <;> rw [h] at hs <;> cases hs
  case branch hs | loop hs _ =>
    rw [hs]
    rfl

theorem Line.Alike.definition?_eq (h : l.Alike flag l') : definition? l'.content = definition? l.content := by
  cases h with
  | same => rfl
  | test _ _ _ _ _ hl hl' =>
    rw [definition?_eq_none (.inl ⟨_, hl⟩), definition?_eq_none (.inl ⟨_, hl'⟩)]
  | header _ _ hl hl' => rw [definition?_eq_none (.inr ⟨_, _, hl⟩), hl']

theorem follows_runLines {ls ls' : List Line} (h : List.Forall₂ (Line.Alike flag) ls ls')
    (ht : ∀ l ∈ ls, l.Tame flag) : Follows (Machine.Alike flag) (runLines ls) (runLines ls') := by
  induction hn : ls.length using Nat.strongRecOn generalizing ls ls' with
  | ind k ih =>
    cases h with
    | nil =>
      rw [runLines]
      exact tracks_pure _
    | @cons l l' rest rest' hl hrest =>
      have hrun {c c' : List Line} (hc : List.Forall₂ (Line.Alike flag) c c')
          (hlen : c.length ≤ rest.length) (hmem : ∀ x ∈ c, x ∈ rest) :
          Follows (Machine.Alike flag) (runLines c) (runLines c') :=
        ih c.length (by simp only [length_cons] at hn; omega) hc
          (fun x hx => ht x (mem_cons_of_mem l (hmem x hx))) rfl
      rw [runLines, runLines, hl.number, hl.definition?_eq]
      refine (follows_atLine _).bind fun _ => ?_
      obtain ⟨hblock, hafter⟩ := forall₂_block hrest l.indent
      split
      · exact hrun hrest (Nat.le_refl _) fun _ hx => hx
      · exact follows_throw _ _
      · rename_i name params hdef
        have hbody : Function.Alike flag ⟨params, Line.block l.indent rest⟩ ⟨params, Line.block l.indent rest'⟩ :=
          ⟨rfl, hblock, fun x hx => ht x (mem_cons_of_mem l ((takeWhile_sublist _).subset hx)),
            (ht l (mem_cons_self ..)).params name params hdef⟩
        rw [hl.indent]
        exact (follows_define name hbody).bind fun _ =>
          hrun hafter (Line.length_afterBlock_le l.indent rest) fun x hx => (dropWhile_sublist _).subset hx

/-- A program alike to a tame one that runs without a fault prints and reports the same. -/
theorem runSource_of_alike {code code' : String}
    (h : List.Forall₂ (Line.Alike flag) (Line.ofSource code) (Line.ofSource code'))
    (ht : ∀ l ∈ Line.ofSource code, l.Tame flag) {m : Machine}
    (hm : (runSource code).perform {} = (.ok (), m)) :
    ∃ n, (runSource code').perform {} = (.ok (), n) ∧ n.out = m.out ∧ n.err = m.err := by
  have hstart : Machine.Alike flag {} {} := ⟨rfl, .nil, rfl, rfl, rfl, fun _ _ h => by cases h⟩
  obtain ⟨n, hn, hmn⟩ := follows_iff.1 (follows_runLines h ht) hstart hm
  exact ⟨n, hn, hmn.out, hmn.err⟩

theorem tame_of_read {s : Statement} {d : Option (List String)}
    (hs : Statement.parse l.content.toList = s) (hd : definition? l.content = d)
    (hassign : ∀ x e, s = .assign x e → SignFree x ∧ (flag x → TruthText flag e))
    (hloop : ∀ x bounds, s = .loop x bounds → FreeName flag x)
    (hparams : ∀ name params, d = some (name :: params) → ∀ p ∈ params, FreeName flag p) : l.Tame flag := by
  subst hs hd
  exact ⟨hassign, hloop, hparams⟩

theorem tame_of_branch {c : List Char} (hl : Statement.parse l.content.toList = .branch c) : l.Tame flag :=
  tame_of_read hl (definition?_eq_none (.inl ⟨c, hl⟩)) nofun nofun nofun

end GzLang
