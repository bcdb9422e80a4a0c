import Mathlib.Data.Finset.Card
import Mathlib.Data.List.Dedup
import GzLang.Proofs.Track

/-!
# How deep calls nest

A table of functions is ranked when every function has a greater rank than those whose calls can be
read in its lines (`Ranked`). The rank of a callee is less than that of its caller, so a call nests
no deeper than its height, which is the number of functions up to its own rank; and that is no more
than there are functions. Hence every call and every expression ends the same way at all depths from
the number of functions on, and never because calls nest too deeply (`ends_of_ranked`).

The two depths are compared by running both (`tracks_callAt`): the machines stay the same, and a
fault of depth would end the comparison (`Shared`).
-/

namespace GzLang

open Action Text Table

/-- The name and an opening bracket occur in a line, blanks and quotes left aside. -/
def Line.Mentions (l : Line) (name : String) : Prop :=
  name.toList ++ ['('] <:+: squeeze l.content.toList

instance (l : Line) (name : String) : Decidable (l.Mentions name) :=
  inferInstanceAs (Decidable (_ <:+: _))

/-- Every function has a greater rank than the functions that its lines mention. -/
def Ranked (t : Table Function) (rank : String → Nat) : Prop :=
  ∀ name ∈ keys t, ∀ f ∈ get? t name, ∀ l ∈ f.body, ∀ g ∈ keys t,
    l.Mentions g → rank g < rank name

instance (t : Table Function) (rank : String → Nat) : Decidable (Ranked t rank) := by
  unfold Ranked
  infer_instance

theorem Table.mem_keys {α : Type} {t : Table α} {k : String} {v : α} (h : get? t k = some v) : k ∈ keys t := by
  induction t with
  | nil => cases h
  | cons e t ih =>
    by_cases he : e.1 = k
    · simp [keys, he]
    · rw [get?, if_neg he] at h
      exact List.mem_cons_of_mem _ (ih h)

variable {t : Table Function} {rank : String → Nat}

/-! ### The height of a function -/

def functionCount (t : Table Function) : Nat :=
  (keys t).toFinset.card

def height (t : Table Function) (rank : String → Nat) (name : String) : Nat :=
  ((keys t).toFinset.filter (rank · ≤ rank name)).card

theorem height_le (name : String) : height t rank name ≤ functionCount t := Finset.card_filter_le _ _

theorem height_pos (rank : String → Nat) {name : String} (h : name ∈ keys t) : 0 < height t rank name :=
  Finset.card_pos.2 ⟨name, by simp [h]⟩

theorem height_lt {name g : String} (hname : name ∈ keys t) (h : rank g < rank name) :
    height t rank g < height t rank name := by
  apply Finset.card_lt_card
  refine Finset.ssubset_iff_of_subset ?_ |>.2 ⟨name, by simp [hname], by simp [h]⟩
  intro k hk
  simp only [Finset.mem_filter] at hk ⊢
  exact ⟨hk.1, by omega⟩

/-! ### Calls at two depths -/

/-- The same machine, with the given functions, and no fault of depth. -/
def Shared (t : Table Function) : Option Fault → Machine → Machine → Prop
  | none, m, n => n = m ∧ m.functions = t
  | some f, m, n => n = m ∧ f ≠ .tooDeep

theorem lockstep_shared : Lockstep t t (Shared t) fun _ _ => False where
  bindings := by rintro m _ ⟨rfl, -⟩; rfl
  fault hf := by rintro ⟨rfl, -⟩; exact .inr ⟨rfl, hf⟩
  astray _ := id
  functions := by rintro m _ ⟨rfl, h⟩; exact ⟨h, h⟩
  out _ := by rintro ⟨rfl, h⟩; exact ⟨rfl, h⟩
  rebind _ := by rintro ⟨rfl, h⟩; exact ⟨rfl, h⟩
  astray_functions := False.elim
  astray_stays h := h.elim

theorem tracks_modify_shared {f : Machine → Machine} (hf : ∀ m, (f m).functions = m.functions) :
    Tracks (Shared t) (fun _ _ => False) (modify f) (modify f) := by
  refine tracks_modify (fun _ => id) ?_
  rintro m _ ⟨rfl, h⟩
  exact ⟨rfl, (hf _).trans h⟩

theorem tracks_report_shared (message : String) :
    Tracks (Shared t) (fun _ _ => False) (Machine.report message) (Machine.report message) :=
  tracks_modify_shared fun _ => rfl

theorem tracks_reportUndefined_shared (name : String) :
    Tracks (Shared t) (fun _ _ => False) (reportUndefined name) (reportUndefined name) :=
  (tracks_report_shared _).bind fun _ => tracks_pure _

theorem tracksIn_shared {call call' : Caller} {s : List Char} (h : ∀ name args, Calls s name → name ∈ keys t →
      Tracks (Shared t) (fun _ _ => False) (call name args) (call' name args)) :
    TracksIn (Shared t) (fun _ _ => False) call call' s where
  calls {name} args hname := by
    refine lockstep_shared.tracks_callKnown (fun f hf => ?_) fun hf => ?_
    · exact ⟨by simp [has, hf], h name args hname (mem_keys hf)⟩
    · rw [if_neg (by simp [has, hf])]
      exact tracks_reportUndefined_shared name
  report _ := tracks_report_shared _

/-- A block does the same if the calls do that can be read in its lines. -/
theorem tracks_execBlock_shared {call call' : Caller} {block : List Line}
    (h : ∀ l ∈ block, ∀ name args, Calls l.content.toList name → name ∈ keys t →
      Tracks (Shared t) (fun _ _ => False) (call name args) (call' name args)) :
    Tracks (Shared t) (fun _ _ => False) (execBlock call block) (execBlock call' block) := by
  refine tracks_execBlock (strictMono_id.strictMonoOn _) (List.forall₂_same.2 fun l hl => ?_)
  exact ⟨tracks_modify_shared fun _ => rfl, rfl, lockstep_shared.tracked_parse (tracksIn_shared (h l hl))⟩

theorem tracks_callAt (h : Ranked t rank) {depth depth' : Nat} {name : String}
    (hdepth : height t rank name ≤ depth) (hdepth' : height t rank name ≤ depth')
    (args : List Value) :
    Tracks (Shared t) (fun _ _ => False) (callAt depth name args) (callAt depth' name args) := by
  induction depth generalizing depth' name args with
  | zero =>
    cases hf : get? t name with
    | none => exact lockstep_shared.tracks_callAt_none hf hf (tracks_reportUndefined_shared name) ..
    | some f =>
      have := height_pos rank (mem_keys hf)
      omega
  | succ depth ih =>
    cases hf : get? t name with
    | none => exact lockstep_shared.tracks_callAt_none hf hf (tracks_reportUndefined_shared name) ..
    | some f =>
      have hname := mem_keys hf
      obtain ⟨depth', rfl⟩ : ∃ k, depth' = k + 1 := by
        have := height_pos rank hname
        exact ⟨depth' - 1, by omega⟩
      -- a function that the body mentions has a smaller height
      refine lockstep_shared.tracks_callAt_succ hf hf (lockstep_shared.tracks_invoke rfl ?_ args)
      refine tracks_execBlock_shared fun l hl g gargs hcalls hg => ?_
      have hlt := height_lt hname (h name hname f hf l hl g hg hcalls.occurs)
      exact ih (by omega) (by omega) gargs

/-- What does the same at all depths from some depth on has one outcome there, and it is not the
fault of depth. -/
theorem exists_outcome {α : Type} {a : Nat → Run α} {m : Machine} {k : Nat}
    (h : ∀ depth, k ≤ depth → Tracks (Shared m.functions) (fun _ _ => False) (a k) (a depth)) :
    ∃ r n, r ≠ .error .tooDeep ∧ ∀ depth, k ≤ depth → (a depth).perform m = (r, n) := by
  have hboth (depth : Nat) (hdepth : k ≤ depth) := (h depth hdepth).inStep (s := m) ⟨rfl, rfl⟩
  rcases ha : (a k).perform m with ⟨r, n⟩
  simp only [ha, false_or] at hboth
  refine ⟨r, n, ?_, fun depth hdepth => ?_⟩
  · rintro rfl
    exact (hboth k le_rfl).2.2 rfl
  · obtain ⟨hsame, hR⟩ := hboth depth hdepth
    cases r with
    | error f => exact Prod.ext hsame hR.1
    | ok x => exact Prod.ext hsame hR.1

/-- **Ranked functions end.** If every function has a greater rank than those whose calls can be
read in its lines, then every call and every expression, from whatever variables, has one outcome at
all depths from the number of functions on, and it is not that calls nest too deeply. -/
theorem ends_of_ranked (m : Machine) (rank : String → Nat) (h : Ranked m.functions rank) :
    (∀ name args, ∃ r n, r ≠ .error .tooDeep ∧ ∀ depth, functionCount m.functions ≤ depth →
        (callAt depth name args).perform m = (r, n)) ∧
    (∀ s, ∃ r n, r ≠ .error .tooDeep ∧ ∀ depth, functionCount m.functions ≤ depth →
        (evaluate (callAt depth) s).perform m = (r, n)) := by
  have hcall (depth : Nat) (hdepth : functionCount m.functions ≤ depth) (name : String)
      (args : List Value) := tracks_callAt h (height_le name) ((height_le name).trans hdepth) args
  constructor
  · intro name args
    exact exists_outcome fun depth hdepth => hcall depth hdepth name args
  · intro s
    refine exists_outcome fun depth hdepth => lockstep_shared.tracks_evaluate ?_
    exact tracksIn_shared fun name args _ _ => hcall depth hdepth name args

/-- A function that calls another one in two ways: among quotes and blanks, and inside an
expression. -/
theorem ends_of_ranked_twice :
    let m : Machine := { functions := [
      ("twice", ⟨["n"], [⟨2, 4, "balik n * 2"⟩]⟩),
      ("main", ⟨[], [⟨4, 4, "x = twice(4)"⟩, ⟨5, 4, "sulat \"x\", tw ice(x)"⟩]⟩)] }
    Ranked m.functions (fun name => if name = "main" then 1 else 0) ∧ functionCount m.functions = 2 ∧
      ∃ r n, r ≠ .error .tooDeep ∧ ∀ depth, 2 ≤ depth → (callAt depth "main" []).perform m = (r, n) := by
  intro m
  have h : Ranked m.functions fun name => if name = "main" then 1 else 0 := by decide
  have hcount : functionCount m.functions = 2 := by decide
  have hends := (ends_of_ranked m _ h).1 "main" []
  rw [hcount] at hends
  exact ⟨h, hcount, hends⟩

end GzLang
