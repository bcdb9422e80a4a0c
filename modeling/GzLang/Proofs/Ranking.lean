import Mathlib
import GzLang.Value.Document

/-!
# Sorting by keys

Sorting takes the keys of all elements first and then only looks at these (`sortDescending_map`). Numbers
can always be compared, so elements whose keys are numbers can always be sorted, and are the same elements
afterwards (`sortDescending_perm`).
-/

namespace GzLang

open List

variable {α β : Type}

theorem mapM_eq_map {γ : Type} {f : α → Except Fault β} {f' : α → Except Fault γ} {h : β → γ}
    (hf : ∀ x, f' x = (f x).map h) (xs : List α) : xs.mapM f' = (xs.mapM f).map (map h) := by
  induction xs with
  | nil => rfl
  | cons x xs ih =>
    rw [mapM_cons, mapM_cons, hf, ih]
    cases f x with
    | error e => rfl
    | ok y => cases xs.mapM f <;> rfl

theorem exists_mapM_eq_ok {f : α → Except Fault β} {good : β → Prop} {xs : List α}
    (h : ∀ x ∈ xs, ∃ y, f x = .ok y ∧ good y) : ∃ ys, xs.mapM f = .ok ys ∧ ∀ y ∈ ys, good y := by
  induction xs with
  | nil => exact ⟨[], rfl, nofun⟩
  | cons x xs ih =>
    rw [forall_mem_cons] at h
    obtain ⟨⟨y, hy, hgood⟩, hrest⟩ := h
    obtain ⟨ys, hys, hall⟩ := ih hrest
    refine ⟨y :: ys, ?_, forall_mem_cons.2 ⟨hgood, hall⟩⟩
    rw [mapM_cons, hy, hys]
    rfl

namespace Value

/-- Whether an element may stand before another in descending order. -/
def standsBefore {α : Type} (a b : Value × α) : Bool :=
  match relate .lt a.1 b.1 with
  | .ok less => !less
  | .error _ => true

def sortKeyed {α : Type} : List (Value × α) → Except Fault (List α)
  | [] => .ok []
  | e :: rest => do
    rest.forM fun e' => do
      let _ ← relate .lt e'.1 e.1
    return ((e :: rest).mergeSort standsBefore).map Prod.snd

theorem sortDescending_eq (key : α → Except Fault Value) (xs : List α) :
    sortDescending key xs = (xs.mapM fun x => do return (← key x, x)) >>= sortKeyed := by
  unfold sortDescending
  congr 1
  funext keyed
  cases keyed <;> rfl

theorem sortKeyed_map (g : α → β) (keyed : List (Value × α)) :
    sortKeyed (keyed.map fun e => (e.1, g e.2)) = (sortKeyed keyed).map (map g) := by
  cases keyed with
  | nil => rfl
  | cons e rest =>
    have hsorted : (((e :: rest).map fun e => (e.1, g e.2)).mergeSort standsBefore).map Prod.snd =
        (((e :: rest).mergeSort standsBefore).map Prod.snd).map g := by
      have hmerge := map_mergeSort (l := e :: rest) (r := standsBefore) (s := standsBefore)
        (f := fun e => (e.1, g e.2)) fun _ _ _ _ => rfl
      rw [← hmerge, map_map, map_map]
      rfl
    rw [map_cons] at hsorted ⊢
    rw [sortKeyed, sortKeyed, hsorted, forM_eq_forM, forM_map, forM_eq_forM]
    cases forM rest fun e' => (do let _ ← relate .lt e'.1 e.1 : Except Fault Unit) <;> rfl

/-- Elements are sorted by their keys, whatever else becomes of them. -/
theorem sortDescending_map {key : α → Except Fault Value} {key' : β → Except Fault Value}
    {g : α → β} (h : ∀ x, key' (g x) = key x) (xs : List α) :
    sortDescending key' (xs.map g) = (sortDescending key xs).map (map g) := by
  have hkeyed : ((xs.map g).mapM fun x => do return (← key' x, x)) =
      (xs.mapM fun x => (do return (← key x, x) : Except Fault (Value × α))).map
        (map fun e => (e.1, g e.2)) := by
    rw [mapM_map]
    refine mapM_eq_map (fun x => ?_) xs
    rw [Function.comp_apply, h]
    cases key x <;> rfl
  rw [sortDescending_eq, sortDescending_eq, hkeyed]
  cases xs.mapM fun x => (do return (← key x, x) : Except Fault (Value × α)) with
  | error f => rfl
  | ok keyed => exact sortKeyed_map g keyed

theorem forM_relate_of_ok {k : Value} {keyed : List (Value × α)} (h : ∀ e ∈ keyed, ∃ b, relate .lt e.1 k = .ok b) :
    (keyed.forM fun e => do let _ ← relate .lt e.1 k) = (.ok () : Except Fault Unit) := by
  induction keyed with
  | nil => rfl
  | cons e keyed ih =>
    rw [forall_mem_cons] at h
    obtain ⟨b, hb⟩ := h.1
    show ((do let _ ← relate .lt e.1 k) >>= fun _ => keyed.forM _) = (.ok () : Except Fault Unit)
    rw [ih h.2, hb]
    rfl

/-! ### Numbers as keys -/

def IsNumber (v : Value) : Prop := v.toNumber?.isSome = true

theorem relate_of_numbers (r : Relation) {v w : Value} (hv : v.IsNumber) (hw : w.IsNumber) :
    ∃ b, v.relate r w = .ok b := by
  cases v with
  | bool _ | int _ | float _ | statistic _ =>
    cases w with
    | bool _ | int _ | float _ | statistic _ => exact ⟨_, rfl⟩
    | null | str _ | list _ | dict _ | tuple _ | object _ => cases hw
  | null | str _ | list _ | dict _ | tuple _ | object _ => cases hv

theorem sortKeyed_perm {keyed : List (Value × α)} (h : ∀ e ∈ keyed, e.1.IsNumber) :
    ∃ ys, sortKeyed keyed = .ok ys ∧ ys.Perm (keyed.map Prod.snd) := by
  cases keyed with
  | nil => exact ⟨[], rfl, .nil⟩
  | cons e rest =>
    rw [forall_mem_cons] at h
    obtain ⟨hfirst, hrest⟩ := h
    have hcompared := forM_relate_of_ok fun e' he' => relate_of_numbers .lt (hrest e' he') hfirst
    refine ⟨_, ?_, (mergeSort_perm (e :: rest) standsBefore).map Prod.snd⟩
    rw [sortKeyed, hcompared]
    rfl

theorem exists_keyed {key : α → Except Fault Value} {xs : List α} (h : ∀ x ∈ xs, ∃ v, key x = .ok v ∧ v.IsNumber) :
    ∃ keyed, (xs.mapM fun x => do return (← key x, x)) = (.ok keyed : Except Fault (List (Value × α))) ∧
      keyed.map Prod.snd = xs ∧ ∀ e ∈ keyed, e.1.IsNumber := by
  induction xs with
  | nil => exact ⟨[], rfl, rfl, nofun⟩
  | cons x xs ih =>
    rw [forall_mem_cons] at h
    obtain ⟨⟨v, hv, hnumber⟩, hrest⟩ := h
    obtain ⟨keyed, hkeyed, hmap, hnumbers⟩ := ih hrest
    refine ⟨(v, x) :: keyed, ?_, by rw [map_cons, hmap], forall_mem_cons.2 ⟨hnumber, hnumbers⟩⟩
    rw [mapM_cons, hkeyed, hv]
    rfl

/-- Elements whose keys are numbers can be sorted, and stay the same elements. -/
theorem sortDescending_perm {key : α → Except Fault Value} {xs : List α}
    (h : ∀ x ∈ xs, ∃ v, key x = .ok v ∧ v.IsNumber) : ∃ ys, sortDescending key xs = .ok ys ∧ ys.Perm xs := by
  obtain ⟨keyed, hkeyed, hmap, hnumbers⟩ := exists_keyed h
  obtain ⟨ys, hys, hperm⟩ := sortKeyed_perm hnumbers
  rw [hmap] at hperm
  refine ⟨ys, ?_, hperm⟩
  rw [sortDescending_eq, hkeyed]
  exact hys

end Value

end GzLang
