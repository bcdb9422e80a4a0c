import Mathlib.Tactic.ByContra
import GzLang.Proofs.Activation
import GzLang.Proofs.Reading

/-!
# When giving back a value ends a call

A block says that it gave back nothing by the null value itself. A line that gives back a value
therefore ends the call when the value is not null, and a null passes for the end of the innermost
block: the activation goes on with what is left of the blocks around it, if anything is
(`giveBack_ends_call_iff`).
-/

namespace GzLang.Activation

open Action Relation

variable {c d : Position × Machine}

variable {fs : List Frame}

variable {call : Caller}
variable {v : Value} {p : Position} {rest : List Line}

def Frame.exhausted : Frame → Bool
  | .after rest => rest.isEmpty
  | .loop _ _ count _ rest => count == 0 && rest.isEmpty

/-- A loop that has lines to run in every round. -/
def Frame.busy : Frame → Prop
  | .after _ => True
  | .loop _ body _ _ _ => body ≠ []

/-- All loops around a line have lines, and so have all but the innermost loop around a place
between lines. -/
def Position.proper (p : Position) : Prop :=
  (∀ g ∈ p.frames.tail, g.busy) ∧ (p.line?.isSome → ∀ g ∈ p.frames, g.busy)

theorem proper_of_busy {c : Control} (h : ∀ g ∈ fs, g.busy) : Position.proper ⟨c, fs⟩ :=
  ⟨fun g hg => h g (List.mem_of_mem_tail hg), fun _ => h⟩

theorem LeadsTo.proper {l : Line} (h : LeadsTo l rest p) (hfs : ∀ g ∈ fs, g.busy) : (p.inside fs).proper := by
  cases h with
  | next => exact proper_of_busy hfs
  | past => exact proper_of_busy hfs
  | out v => exact proper_of_busy hfs
  | branch => exact proper_of_busy (List.forall_mem_cons.2 ⟨trivial, hfs⟩)
  | loop name count i => exact ⟨hfs, fun h => by cases h⟩

theorem proper_proceed {f : Frame} (hfs : ∀ g ∈ fs, g.busy) {m m' : Machine}
    (h : (proceed fs f).perform m = (.ok p, m')) : p.proper := by
  match f with
  | .after rest =>
    cases h
    exact proper_of_busy hfs
  | .loop name body 0 i rest =>
    cases h
    exact proper_of_busy hfs
  | .loop name body (count + 1) i rest =>
    cases h
    refine ⟨hfs, fun hl => List.forall_mem_cons.2 ⟨?_, hfs⟩⟩
    rintro rfl
    cases hl

theorem Next.proper (h : Next call c d) (hc : c.1.proper) : d.1.proper := by
  obtain ⟨⟨ctl, fs⟩, m⟩ := c
  obtain ⟨p, m'⟩ := d
  obtain ⟨hend, hstep⟩ := h
  match ctl, fs with
  | .lines [], fs =>
    cases hstep
    exact ⟨hc.1, fun h => by cases h⟩
  | .lines (l :: rest), fs =>
    rcases hl : (execLine call l rest []).perform m with ⟨e | q, m''⟩
    · rw [perform_step_line hl] at hstep
      cases hstep
    · rw [perform_step_line hl] at hstep
      cases hstep
      exact (leadsTo_execLine hl).proper (hc.2 rfl)
  | .gave v, [] => cases hend
  | .gave v, f :: fs =>
    simp only [step] at hstep
    split at hstep
    · exact proper_proceed hc.1 hstep
    · cases hstep
      exact proper_of_busy hc.1

theorem Reaches.proper (h : Reaches call c d) (hc : c.1.proper) : d.1.proper := by
  induction h with
  | refl => exact hc
  | tail _ hd ih => exact hd.proper ih

/-- From here on no line is executed: a value passes all frames, or there is nothing left to do in
any of them. -/
def Position.settled (p : Position) : Prop :=
  (∃ v, p.control = .gave v ∧ v.isNull = false) ∨
    (p.control = .gave .null ∨ p.control = .lines []) ∧ ∀ g ∈ p.frames, g.exhausted = true

theorem line?_of_settled (h : p.settled) : p.line? = none := by
  obtain ⟨ctl, fs⟩ := p
  rcases h with ⟨v, rfl, -⟩ | ⟨rfl | rfl, -⟩ <;> rfl

theorem proceed_of_exhausted {f : Frame} (h : f.exhausted) (fs : List Frame) : proceed fs f = pure ⟨.lines [], fs⟩ := by
  match f with
  | .after [] => rfl
  | .loop _ _ 0 _ [] => rfl

theorem Next.settled (h : Next call c d) (hc : c.1.settled) : d.1.settled := by
  obtain ⟨⟨ctl, fs⟩, m⟩ := c
  obtain ⟨p, m'⟩ := d
  obtain ⟨hend, hstep⟩ := h
  rcases hc with ⟨v, rfl, hv⟩ | ⟨rfl | rfl, hfs⟩
  · cases fs with
    | nil => cases hend
    | cons f fs =>
      simp only [step, hv] at hstep
      cases hstep
      exact .inl ⟨v, rfl, hv⟩
  · cases fs with
    | nil => cases hend
    | cons f fs =>
      obtain ⟨hf, hfs⟩ := List.forall_mem_cons.1 hfs
      have : step call ⟨.gave .null, f :: fs⟩ = pure ⟨.lines [], fs⟩ := proceed_of_exhausted hf fs
      rw [this] at hstep
      cases hstep
      exact .inr ⟨.inr rfl, hfs⟩
  · cases hstep
    exact .inr ⟨.inl rfl, hfs⟩

theorem Reaches.settled (h : Reaches call c d) (hc : c.1.settled) : d.1.settled := by
  induction h with
  | refl => exact hc
  | tail _ hd ih => exact hd.settled ih

theorem unwind_of_exhausted (h : ∀ g ∈ fs, g.exhausted) : unwind call fs .null = pure .null := by
  induction fs with
  | nil => rfl
  | cons f fs ih =>
    obtain ⟨hf, hfs⟩ := List.forall_mem_cons.1 h
    rw [unwind_null, resume_eq_proceed, proceed_of_exhausted hf, pure_bind, finish, execBlock, pure_bind, ih hfs]

/-- If something is left to do in a frame, then another line is executed. -/
theorem exists_line_of_not_exhausted (hbusy : ∀ g ∈ fs, g.busy) (h : ¬ ∀ g ∈ fs, g.exhausted) (m : Machine) :
    ∃ d, Reaches call (⟨.gave .null, fs⟩, m) d ∧ d.1.line?.isSome := by
  induction fs with
  | nil => exact absurd (by simp) h
  | cons f fs ih =>
    obtain ⟨hf, hfs⟩ := List.forall_mem_cons.1 hbusy
    by_cases he : f.exhausted
    · have hrest : ¬ ∀ g ∈ fs, g.exhausted := fun h' =>
        h (List.forall_mem_cons.2 ⟨he, h'⟩)
      obtain ⟨d, hd, hl⟩ := ih hfs hrest
      refine ⟨d, ?_, hl⟩
      refine .head (b := (⟨.lines [], fs⟩, m)) ⟨rfl, ?_⟩ (.head ⟨rfl, rfl⟩ hd)
      show (proceed fs f).perform m = _
      rw [proceed_of_exhausted he]
      rfl
    · match f with
      | .after [] => exact absurd rfl he
      | .after (l :: rest) => exact ⟨(⟨.lines (l :: rest), fs⟩, m), .single ⟨rfl, rfl⟩, rfl⟩
      | .loop _ _ 0 _ [] => exact absurd rfl he
      | .loop _ _ 0 _ (l :: rest) =>
        exact ⟨(⟨.lines (l :: rest), fs⟩, m), .single ⟨rfl, rfl⟩, rfl⟩
      | .loop _ [] (count + 1) _ _ => exact absurd rfl hf
      | .loop name (l :: body) (count + 1) i rest =>
        exact ⟨(⟨.lines (l :: body), .loop name (l :: body) count (i + 1) rest :: fs⟩,
          { m with bindings := Table.put m.bindings name (.int i) }), .single ⟨rfl, rfl⟩, rfl⟩

theorem settled_gave_iff : Position.settled ⟨.gave v, fs⟩ ↔ v.isNull = false ∨ ∀ g ∈ fs, g.exhausted := by
  constructor
  · rintro (⟨_, ⟨⟩, hv⟩ | ⟨-, hfs⟩)
    · exact .inl hv
    · exact .inr hfs
  · intro h
    rcases Bool.eq_false_or_eq_true v.isNull with hnull | hnull
    · obtain rfl := eq_null_of_isNull hnull
      exact .inr ⟨.inl rfl, h.resolve_left (by simp [Value.isNull])⟩
    · exact .inl ⟨v, rfl, hnull⟩

/-- A value that settles an activation is what the activation comes to. -/
theorem unwind_of_settled (h : Position.settled ⟨.gave v, fs⟩) : unwind call fs v = pure v := by
  rcases h with ⟨_, ⟨⟩, hv⟩ | ⟨hgave | hlines, hfs⟩
  · exact unwind_of_not_null hv fs
  · cases hgave
    exact unwind_of_exhausted hfs
  · cases hlines

theorem Next.unique {d' : Position × Machine} (h : Next call c d) (h' : Next call c d') : d = d' := by
  have := h.2.symm.trans h'.2
  simpa [Prod.ext_iff] using this

theorem next_of_giveBack {l : Line} {e : List Char}
    {m m' : Machine} (hl : Statement.parse l.content.toList = .giveBack e)
    (he : e ≠ []) (hv : (evaluate call e).perform { m with line := l.number } = (.ok v, m')) :
    Next call (⟨.lines (l :: rest), fs⟩, m) (⟨.gave v, fs⟩, m') := by
  refine ⟨rfl, ?_⟩
  show (execLine call l rest fs).perform m = _
  unfold execLine
  rw [bind_of_ok (perform_atLine l.number m)]
  simp only [hl, List.isEmpty_iff, he, if_false]
  rw [bind_of_ok hv]
  rfl

/-- A call whose activation reaches a settled value gives that value. -/
theorem perform_callAt_of_settled {depth : Nat} {name : String} {args : List Value} {f : Function}
    {m m' : Machine} (hf : Table.get? m.functions name = some f) (hreach : Reaches (callAt depth)
      (.start f.body, { m with bindings := bindParams f.params args m.bindings })
      (⟨.gave v, fs⟩, m'))
    (hv : Position.settled ⟨.gave v, fs⟩) :
    (callAt (depth + 1) name args).perform m = (.ok v, { m' with bindings := m.bindings }) := by
  have hbody : (execBlock (callAt depth) f.body).perform
      { m with bindings := bindParams f.params args m.bindings } = (.ok v, m') := by
    have := hreach.finish_eq
    simp only [Position.start, finish, unwind_of_settled hv] at this
    simpa [unwind] using this
  rw [perform_callAt_succ hf, hbody]

/-- **When giving back a value ends the call.** Let a call of a function reach a line that gives
back the value of an expression, and let the value be `v`. The call gives `v` and executes no
further line exactly when `v` is not null, or nothing is left to do in the blocks around the
line. -/
theorem giveBack_ends_call_iff {depth : Nat} {name : String} {args : List Value} {f : Function}
    {m m₁ m₂ : Machine} {l : Line} {rest : List Line} {fs : List Frame} {e : List Char} {v : Value}
    (hf : Table.get? m.functions name = some f)
    (hreach : Reaches (callAt depth) (.start f.body, { m with bindings := bindParams f.params args m.bindings })
      (⟨.lines (l :: rest), fs⟩, m₁))
    (hl : Statement.parse l.content.toList = .giveBack e) (he : e ≠ [])
    (hv : (evaluate (callAt depth) e).perform { m₁ with line := l.number } = (.ok v, m₂)) :
    ((callAt (depth + 1) name args).perform m = (.ok v, { m₂ with bindings := m.bindings }) ∧
      ∀ d, TransGen (Next (callAt depth)) (⟨.lines (l :: rest), fs⟩, m₁) d → d.1.line? = none) ↔
    (v.isNull = false ∨ ∀ g ∈ fs, g.exhausted = true) := by
  have hstep : Next (callAt depth) (⟨.lines (l :: rest), fs⟩, m₁) (⟨.gave v, fs⟩, m₂) := next_of_giveBack hl he hv
  constructor
  · rintro ⟨-, hlast⟩
    by_contra hcond
    rw [not_or, Bool.not_eq_false] at hcond
    obtain ⟨hnull, hopen⟩ := hcond
    obtain rfl := eq_null_of_isNull hnull
    -- a null goes on to the first block around the line that has something left
    have hbusy : ∀ g ∈ fs, g.busy := (hreach.proper (proper_of_busy (by simp))).2 rfl
    obtain ⟨d, hd, hline⟩ := exists_line_of_not_exhausted hbusy hopen m₂
    rw [hlast d (.head' hstep hd)] at hline
    cases hline
  · intro hcond
    have hsettled := settled_gave_iff.2 hcond
    refine ⟨perform_callAt_of_settled hf (hreach.tail hstep) hsettled, fun d hd => ?_⟩
    obtain ⟨c, hc, hcd⟩ := TransGen.head'_iff.1 hd
    obtain rfl := hstep.unique hc
    exact line?_of_settled (Reaches.settled hcd hsettled)

/-- A null given back in the block of a condition does not end the call: the line behind the
condition is executed. -/
theorem giveBack_null_in_branch_goes_on :
    let f : Function := ⟨[], [⟨2, 4, "kung tama"⟩, ⟨3, 8, "balik wala"⟩, ⟨4, 4, "balik 1"⟩]⟩
    let m : Machine := { functions := [("f", f)] }
    ¬ ((callAt 1 "f" []).perform m = (.ok .null, { m with line := 3 }) ∧
      ∀ d, TransGen (Next (callAt 0)) (⟨.lines [⟨3, 8, "balik wala"⟩], [.after [⟨4, 4, "balik 1"⟩]]⟩,
        { m with line := 2 }) d → d.1.line? = none) := by
  intro f m
  have hf : Table.get? m.functions "f" = some f := rfl
  have hreach : Reaches (callAt 0) (.start f.body, { m with bindings := bindParams f.params [] m.bindings })
      (⟨.lines [⟨3, 8, "balik wala"⟩], [.after [⟨4, 4, "balik 1"⟩]]⟩, { m with line := 2 }) := by
    refine .single ⟨rfl, ?_⟩
    have hs : Statement.parse "kung tama".toList = .branch ['t', 'a', 'm', 'a'] := rfl
    have he : Expr.parse ['t', 'a', 'm', 'a'] = .constant (.bool true) := Expr.parse_of_constant rfl
    simp only [Position.start, step, execLine, f, hs, evaluate, he, Expr.eval]
    rfl
  have hv : (evaluate (callAt 0) ['w', 'a', 'l', 'a']).perform { m with line := 3 } =
      (.ok .null, { m with line := 3 }) := by
    rw [evaluate, Expr.parse_of_constant rfl]
    rfl
  have he : ['w', 'a', 'l', 'a'] ≠ [] := by decide
  intro h
  rcases (giveBack_ends_call_iff hf hreach rfl he hv).1 h with hv | hfs
  · cases hv
  · exact absurd (hfs _ (List.mem_singleton_self _)) (by decide)

end GzLang.Activation
