import Mathlib.Data.List.Basic
import GzLang.Disk

/-!
# What a file holds after it was written

A path can be written if directories lead to it and it is no directory itself (`Writable`). Writing puts
a file under the key of the path, which is the key of none of the directories on the way, so the path
can still be reached afterwards. Reading gives the text back with line feeds at the ends of lines, and
reading that again changes nothing.
-/

namespace GzLang

open List Table

namespace Text

theorem cr_not_mem_foldNewlines (s : List Char) : '\r' ∉ foldNewlines s := by
  fun_induction foldNewlines s with
  | case1 => simp
  | case2 s ih => simpa using ih
  | case3 c s _ ih =>
    rw [mem_cons, not_or]
    refine ⟨?_, ih⟩
    split
    · decide
    · exact Ne.symm ‹_›

theorem foldNewlines_of_not_mem {s : List Char} (h : '\r' ∉ s) : foldNewlines s = s := by
  fun_induction foldNewlines s with
  | case1 => rfl
  | case2 s ih => simp at h
  | case3 c s _ ih =>
    rw [mem_cons, not_or] at h
    rw [if_neg (Ne.symm h.1), ih h.2]

theorem foldNewlines_foldNewlines (s : List Char) : foldNewlines (foldNewlines s) = foldNewlines s :=
  foldNewlines_of_not_mem (cr_not_mem_foldNewlines s)

end Text

theorem Table.put_put {α : Type} (t : Table α) (k : String) (v w : α) : put (put t k v) k w = put t k w := by
  induction t with
  | nil => simp [put]
  | cons e t ih => by_cases h : e.1 = k <;> simp [put, h, ih]

namespace Disk

variable {d : Disk} {path : String}

theorem length_of_mem_ancestors {a : String} (ha : a ∈ ancestors path) : a.length < (key path).length := by
  obtain ⟨i, hi, rfl⟩ := mem_map.1 ha
  rw [mem_range] at hi
  obtain ⟨hne, hlen⟩ : (names path).dropLast.take (i + 1) ≠ [] ∧ i + 1 < (names path).length := by
    rw [length_dropLast] at hi
    refine ⟨fun h => ?_, by omega⟩
    have := congrArg length h
    rw [length_take, length_dropLast, length_nil] at this
    omega
  have htake : (names path).dropLast.take (i + 1) = (names path).take (i + 1) := by
    rw [dropLast_eq_take, take_take, Nat.min_eq_left (by omega)]
  have hdrop : (names path).drop (i + 1) ≠ [] := by
    rw [ne_eq, drop_eq_nil_iff]
    omega
  rw [htake] at hne ⊢
  rw [key]
  nth_rewrite 2 [← take_append_drop (i + 1) (names path)]
  rw [String.intercalate_append_of_ne_nil hne hdrop, String.length_append, String.length_append]
  have hslash : "/".length = 1 := rfl
  omega

theorem obstacle?_put (d : Disk) (path : String) (n : Node) :
    obstacle? (put d (key path) n) path = obstacle? d path := by
  have hget : ∀ a ∈ ancestors path, get? (put d (key path) n) a = get? d a := by
    intro a ha
    refine get?_put_of_ne d (fun h => ?_) n
    have hlen := length_of_mem_ancestors ha
    rw [h] at hlen
    exact Nat.lt_irrefl _ hlen
  rw [obstacle?, obstacle?]
  generalize ancestors path = as at hget
  congr 1
  induction as with
  | nil => rfl
  | cons a as ih =>
    rw [forall_mem_cons] at hget
    rw [findSome?_cons, findSome?_cons, hget.1, ih hget.2]

theorem node?_put_of_ne {p : String} (h : key p ≠ key path) (n : Node) : node? (put d (key path) n) p = node? d p := by
  simp only [node?, get?_put_of_ne d (Ne.symm h)]

structure Writable (d : Disk) (path : String) : Prop where
  reached : obstacle? d path = none
  file : node? d path ≠ some .directory

theorem writable_of_absent (hreached : obstacle? d path = none) (hnode : node? d path = none) : Writable d path :=
  ⟨hreached, by simp [hnode]⟩

theorem Writable.ne_empty (h : Writable d path) : path ≠ "" := by
  rintro rfl
  have hnone : obstacle? d "" = some .noSuchFile := rfl
  rw [h.reached] at hnone
  cases hnone

theorem Writable.node?_put (h : Writable d path) (n : Node) : node? (put d (key path) n) path = some n := by
  have hpath : path.isEmpty = false := by simpa using h.ne_empty
  have hkey : (key path).isEmpty = false := by
    cases hk : (key path).isEmpty with
    | false => rfl
    | true => exact absurd (by simp [node?, hpath, hk]) h.file
  simp [node?, hpath, hkey]

theorem Writable.put (h : Writable d path) (c : Content) : Writable (put d (key path) (.file c)) path where
  reached := (obstacle?_put d path _).trans h.reached
  file := by
    rw [h.node?_put]
    simp

theorem Writable.content_put (h : Writable d path) (c : Content) :
    content (Table.put d (key path) (.file c)) path = .ok c := by
  rw [content, (h.put c).reached, h.node?_put]

theorem Writable.writeText (h : Writable d path) (text : String) :
    d.writeText path text = .ok (Table.put d (key path) (.file (.text text))) := by
  rw [Disk.writeText, h.reached]
  cases hnode : node? d path with
  | none => rfl
  | some n =>
    cases n with
    | file c => rfl
    | directory => exact absurd hnode h.file

theorem writeText_of_not_writable (h : ¬ Writable d path) (text : String) : ∃ f, d.writeText path text = .error f := by
  rw [Disk.writeText]
  cases hobstacle : obstacle? d path with
  | some f => exact ⟨_, rfl⟩
  | none =>
    cases hnode : node? d path with
    | none => exact absurd (writable_of_absent hobstacle hnode) h
    | some n =>
      cases n with
      | file c => exact absurd ⟨hobstacle, by simp [hnode]⟩ h
      | directory => exact ⟨_, rfl⟩

theorem readText_of_content {s : String} (h : content d path = .ok (.text s)) :
    d.readText path = .ok (String.ofList (Text.foldNewlines s.toList)) := by
  rw [readText, h]
  rfl

theorem ne_empty_of_content {c : Content} (h : content d path = .ok c) : path ≠ "" := by
  rintro rfl
  cases h

theorem content_eq_ok {c : Content} :
    content d path = .ok c ↔ obstacle? d path = none ∧ node? d path = some (.file c) := by
  rw [content]
  cases obstacle? d path with
  | some f => simp
  | none => rcases node? d path with _ | ⟨c' | _⟩ <;> simp

theorem has_of_content {c : Content} (h : content d path = .ok c) : has d path := by
  simp [has, (content_eq_ok.1 h).2]

theorem writable_of_content {c : Content} (h : content d path = .ok c) : Writable d path :=
  ⟨(content_eq_ok.1 h).1, by simp [(content_eq_ok.1 h).2]⟩

end Disk

end GzLang
