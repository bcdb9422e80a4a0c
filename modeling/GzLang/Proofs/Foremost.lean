import GzLang.Proofs.Ranking

/-!
# The first in descending order

A list in descending order of its keys, with elements of equal keys in the order that they had, is
determined by that. `Foremost` says what its first elements are without a word about sorting: as many as
asked for and as there are, in descending order, ties in the given order, and nothing left out that is better
than something chosen. If the keys are compared as ranks in a linear order, sorting gives just that
(`sortDescending_of_ranks`, `foremost_take`).
-/

namespace GzLang

open List

variable {α κ : Type} [LinearOrder κ]

/-- The chosen elements are the first ones of a list in descending order of their keys. -/
structure Foremost (key : α → κ) (count : Nat) (all chosen : List α) : Prop where
  length : chosen.length = min count all.length
  descending : chosen.Pairwise fun a b => key b ≤ key a
  /-- Elements of one key are chosen in the order in which they stand, the first ones first. -/
  ties : ∀ k, chosen.filter (key · = k) <+: all.filter (key · = k)
  best : ∃ omitted, (chosen ++ omitted).Perm all ∧ ∀ a ∈ chosen, ∀ b ∈ omitted, key b ≤ key a

namespace Foremost

variable {key : α → κ} {count : Nat} {all chosen : List α}

theorem subset (h : Foremost key count all chosen) {a : α} (ha : a ∈ chosen) : a ∈ all := by
  obtain ⟨omitted, hperm, -⟩ := h.best
  exact hperm.subset (mem_append_left omitted ha)

theorem nodup_map {β : Type} {f : α → β} (h : Foremost key count all chosen) (hall : (all.map f).Nodup) :
    (chosen.map f).Nodup := by
  obtain ⟨omitted, hperm, -⟩ := h.best
  have hboth := (hperm.map f).nodup_iff.2 hall
  rw [map_append] at hboth
  exact hboth.of_append_left

end Foremost

/-! ### Sorting by rank -/

/-- Whether an element may stand before another in descending order of their keys. -/
def mayPrecede (key : α → κ) (a b : α) : Bool := key b ≤ key a

/-- The elements in descending order of their keys, those of equal keys in the given order. -/
def descending (key : α → κ) (xs : List α) : List α := xs.mergeSort (mayPrecede key)

section Descending

variable (key : α → κ) (xs : List α)

theorem mayPrecede_iff {a b : α} : mayPrecede key a b ↔ key b ≤ key a := decide_eq_true_iff

theorem mayPrecede_trans (a b c : α) (hab : mayPrecede key a b) (hbc : mayPrecede key b c) : mayPrecede key a c := by
  rw [mayPrecede_iff] at hab hbc ⊢
  exact hbc.trans hab

theorem mayPrecede_total (a b : α) : (mayPrecede key a b || mayPrecede key b a) := by
  rw [Bool.or_eq_true, mayPrecede_iff, mayPrecede_iff]
  exact le_total (key b) (key a)

theorem descending_perm : (descending key xs).Perm xs := mergeSort_perm ..

theorem pairwise_descending : (descending key xs).Pairwise fun a b => key b ≤ key a :=
  (pairwise_mergeSort (mayPrecede_trans key) (mayPrecede_total key) xs).imp (mayPrecede_iff key).1

theorem filter_descending (k : κ) : (descending key xs).filter (key · = k) = xs.filter (key · = k) := by
  have hequal : (xs.filter (key · = k)).Pairwise fun a b => mayPrecede key a b := by
    refine pairwise_of_forall_mem_list fun a ha b hb => ?_
    have hka : key a = k := by simpa using (mem_filter.1 ha).2
    have hkb : key b = k := by simpa using (mem_filter.1 hb).2
    rw [mayPrecede_iff, hka, hkb]
  have hsublist := sublist_mergeSort (mayPrecede_trans key) (mayPrecede_total key) hequal filter_sublist
  have hfiltered := hsublist.filter (key · = k)
  rw [filter_filter] at hfiltered
  simp only [Bool.and_self] at hfiltered
  exact (hfiltered.eq_of_length ((descending_perm key xs).filter _).length_eq.symm).symm

theorem foremost_take (count : Nat) : Foremost key count xs ((descending key xs).take count) where
  length := by rw [length_take, (descending_perm key xs).length_eq]
  descending := (pairwise_descending key xs).sublist (take_sublist ..)
  ties k := by
    rw [← filter_descending key xs k]
    have hprefix := take_prefix count (GzLang.descending key xs)
    exact hprefix.filter _
  best := by
    have hsorted := pairwise_descending key xs
    rw [← take_append_drop count (GzLang.descending key xs)] at hsorted
    refine ⟨(GzLang.descending key xs).drop count, ?_, fun a ha b hb => ?_⟩
    · rw [take_append_drop]
      exact descending_perm key xs
    · exact (pairwise_append.1 hsorted).2.2 a ha b hb

end Descending

namespace Value

variable {key : α → Except Fault Value} {value : α → Value} {rank : α → κ} {xs : List α}

theorem mapM_keys (hkey : ∀ x ∈ xs, key x = .ok (value x)) :
    (xs.mapM fun x => do return (← key x, x)) = (.ok (xs.map fun x => (value x, x)) : Except Fault _) := by
  induction xs with
  | nil => rfl
  | cons x xs ih =>
    rw [forall_mem_cons] at hkey
    rw [mapM_cons, hkey.1, ih hkey.2]
    rfl

/-- Elements whose keys are compared as their ranks are sorted by rank. -/
theorem sortDescending_of_ranks (hkey : ∀ x ∈ xs, key x = .ok (value x))
    (hrank : ∀ x ∈ xs, ∀ y ∈ xs, relate .lt (value x) (value y) = .ok (decide (rank x < rank y))) :
    sortDescending key xs = .ok (descending rank xs) := by
  have hsorted : ((xs.map fun x => (value x, x)).mergeSort standsBefore).map Prod.snd = descending rank xs := by
    have hsame : ∀ x ∈ xs, ∀ y ∈ xs, mayPrecede rank x y = standsBefore (value x, x) (value y, y) := by
      intro x hx y hy
      have hless : standsBefore (value x, x) (value y, y) = !decide (rank x < rank y) := by
        rw [standsBefore, hrank x hx y hy]
      rw [hless, mayPrecede, ← decide_not, decide_eq_decide, not_lt]
    rw [← map_mergeSort hsame, map_map]
    exact map_id _
  rw [sortDescending_eq, mapM_keys hkey, ← hsorted]
  cases xs with
  | nil => rw [map_nil, mergeSort_nil]; rfl
  | cons x xs =>
    have hcompared : ((xs.map fun y => (value y, y)).forM fun e => do let _ ← relate .lt e.1 (value x)) =
        (.ok () : Except Fault Unit) := by
      refine forM_relate_of_ok fun e he => ?_
      obtain ⟨y, hy, rfl⟩ := mem_map.1 he
      exact ⟨_, hrank y (mem_cons_of_mem x hy) x mem_cons_self⟩
    show sortKeyed ((value x, x) :: xs.map fun y => (value y, y)) = _
    rw [sortKeyed, hcompared]
    rfl

end Value

end GzLang
