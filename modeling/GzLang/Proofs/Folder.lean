import Mathlib
import GzLang.Proofs.Action
import GzLang.Proofs.Disk
import GzLang.Proofs.Text

/-!
# Files in a directory

A directory that is there (`Folder`) is not changed by making it again, and files with plain names can be
written in it. Writing one of them changes neither the directory nor the others, whose paths have other
keys (`key_join_inj`).
-/

namespace GzLang

open List

namespace Text

theorem splitAll_append_cons (c : Char) (l r : List Char) :
    splitAll [c] (l ++ c :: r) = splitAll [c] l ++ splitAll [c] r := by
  by_cases h : c ∈ l
  · obtain ⟨l₁, l₂, rfl, h₁⟩ := eq_append_cons_of_mem h
    have ih := splitAll_append_cons c l₂ r
    rw [append_assoc, cons_append, splitAll_append h₁, splitAll_append h₁, ih, cons_append]
  · rw [splitAll_append h, splitAll_of_not_mem h, singleton_append]
termination_by l.length
decreasing_by
  subst_vars
  simp only [length_append, length_cons]
  omega

end Text

open Text

namespace Disk

/-- A name that a file in a directory can have. -/
structure IsName (name : String) : Prop where
  slash : '/' ∉ name.toList
  ne_empty : name ≠ ""
  ne_dot : name ≠ "."
  ne_dots : name ≠ ".."

instance (name : String) : Decidable (IsName name) :=
  decidable_of_iff ('/' ∉ name.toList ∧ name ≠ "" ∧ name ≠ "." ∧ name ≠ "..")
    ⟨fun ⟨hslash, hempty, hdot, hdots⟩ => ⟨hslash, hempty, hdot, hdots⟩,
      fun h => ⟨h.slash, h.ne_empty, h.ne_dot, h.ne_dots⟩⟩

/-- The names on the way, the last one first, after one more piece of a path. -/
def descend (acc : List String) (n : List Char) : List String :=
  if n.isEmpty || n = ['.'] then acc
  else if n = ['.', '.'] then acc.tail
  else String.ofList n :: acc

theorem names_eq (path : String) : names path = ((splitAll ['/'] path.toList).foldl descend []).reverse := rfl

theorem IsName.descend {name : String} (h : IsName name) (acc : List String) :
    Disk.descend acc name.toList = name :: acc := by
  have hempty : name.toList ≠ [] := by simpa using h.ne_empty
  have hdot : name.toList ≠ ['.'] := fun he => h.ne_dot (String.toList_inj.1 (he.trans (by simp)))
  have hdots : name.toList ≠ ['.', '.'] := fun he => h.ne_dots (String.toList_inj.1 (he.trans (by simp)))
  simp [Disk.descend, hempty, hdot, hdots]

theorem descend_nil (acc : List String) : descend acc [] = acc := rfl

theorem IsName.not_startsWith {name : String} (h : IsName name) : startsWith ['/'] name.toList = false := by
  cases hname : name.toList with
  | nil => rfl
  | cons c cs =>
    have hc : '/' ≠ c := by
      rintro rfl
      exact h.slash (by simp [hname])
    simp [startsWith, isPrefixOf, hc]

/-- The names on a path into a directory are those of the directory and the last one. -/
theorem names_join (directory : String) {name : String} (h : IsName name) :
    names (join directory name) = names directory ++ [name] := by
  have hlast (l : List Char) : (splitAll ['/'] (l ++ '/' :: name.toList)).foldl descend [] =
      name :: (splitAll ['/'] l).foldl descend [] := by
    rw [splitAll_append_cons, splitAll_of_not_mem h.slash, foldl_append]
    exact h.descend _
  rw [names_eq, names_eq, join, h.not_startsWith]
  simp only [Bool.false_eq_true, if_false]
  by_cases hempty : directory.isEmpty
  · obtain rfl : directory = "" := by simpa using hempty
    have hone : splitAll ['/'] ("" ++ name).toList = [name.toList] := by
      rw [String.empty_append, splitAll_of_not_mem h.slash]
    have hnone : splitAll ['/'] "".toList = [[]] := splitAll_of_not_mem (by simp)
    rw [if_pos (by simp), hone, hnone]
    simp [h.descend, descend_nil]
  · by_cases hslash : endsWith ['/'] directory.toList
    · obtain ⟨l, hl⟩ : ∃ l, directory.toList = l ++ ['/'] := by
        have hprefix := isPrefixOf_iff_prefix.1 hslash
        obtain ⟨t, ht⟩ := hprefix
        exact ⟨t.reverse, by rw [← reverse_reverse directory.toList, ← ht]; simp⟩
      rw [if_pos (by simp [hslash]), String.toList_append, hl, append_assoc, singleton_append,
        hlast, splitAll_append_cons, splitAll_of_not_mem not_mem_nil, foldl_append,
        reverse_cons]
      rfl
    · rw [if_neg (by simp [hempty, hslash]), String.toList_append, String.toList_append,
        append_assoc, show "/".toList = ['/'] by simp, singleton_append, hlast,
        reverse_cons]

theorem key_of_names (path : String) : key path = String.intercalate "/" (names path) := rfl

theorem key_join (directory : String) {name : String} (h : IsName name) : key (join directory name) =
    if names directory = [] then name else key directory ++ "/" ++ name := by
  rw [key_of_names, names_join directory h]
  split
  · rename_i hnil
    rw [hnil, nil_append, String.intercalate_singleton]
  · rename_i hne
    rw [String.intercalate_append_of_ne_nil hne (cons_ne_nil _ _), String.intercalate_singleton]
    rfl

theorem key_join_inj {directory a b : String} (ha : IsName a) (hb : IsName b)
    (h : key (join directory a) = key (join directory b)) : a = b := by
  rw [key_join directory ha, key_join directory hb] at h
  split at h
  · exact h
  · have := congrArg String.toList h
    simp only [String.toList_append] at this
    exact String.toList_inj.1 (append_cancel_left this)

/-! ### Directories -/

variable {d : Disk} {path directory name : String}

theorem obstacle?_eq_none (hpath : path ≠ "") :
    obstacle? d path = none ↔ ∀ a ∈ ancestors path, Table.get? d a = some .directory := by
  have hempty : path.isEmpty = false := by simpa using hpath
  rw [obstacle?, hempty]
  simp only [Bool.false_eq_true, if_false, findSome?_eq_none_iff]
  refine forall₂_congr fun a _ => ?_
  cases Table.get? d a with
  | none => simp
  | some n => cases n <;> simp

/-- The keys on the way into a directory are those on the way to it and its own. -/
theorem mem_ancestors_join (h : IsName name) {a : String} (ha : a ∈ ancestors (join directory name)) :
    a ∈ ancestors directory ∨ names directory ≠ [] ∧ a = key directory := by
  obtain ⟨i, hi, rfl⟩ := mem_map.1 ha
  rw [names_join directory h, dropLast_concat] at hi ⊢
  rw [mem_range] at hi
  by_cases hlast : i + 1 = (names directory).length
  · refine .inr ⟨fun hnil => by simp [hnil] at hi, ?_⟩
    rw [hlast, take_length]
    rfl
  · refine .inl (mem_map.2 ⟨i, ?_, ?_⟩)
    · rw [mem_range, length_dropLast]
      omega
    · rw [dropLast_eq_take, take_take, Nat.min_eq_left (by omega)]

theorem names_empty : names "" = [] := by
  rw [names_eq, String.toList_empty, splitAll_of_not_mem not_mem_nil]
  rfl

theorem ne_empty_of_mem_names {n : String} (h : n ∈ names path) : n ≠ "" := by
  have hfold (ps : List (List Char)) (acc : List String) (hacc : ∀ n ∈ acc, n ≠ "") :
      ∀ n ∈ ps.foldl descend acc, n ≠ "" := by
    induction ps generalizing acc with
    | nil => exact hacc
    | cons p ps ih =>
      refine ih _ ?_
      unfold descend
      split_ifs with hskip hup
      · exact hacc
      · exact fun n hn => hacc n (mem_of_mem_tail hn)
      · have hp : p ≠ [] := by
          rintro rfl
          simp at hskip
        refine forall_mem_cons.2 ⟨?_, hacc⟩
        simpa using hp
  rw [names_eq, mem_reverse] at h
  exact hfold _ [] (fun _ hn => by cases hn) n h

theorem key_ne_empty (h : names path ≠ []) : key path ≠ "" := by
  obtain ⟨n, ns, hns⟩ := exists_cons_of_ne_nil h
  have hn : n ≠ "" := ne_empty_of_mem_names (show n ∈ names path by simp [hns])
  rw [key_of_names, hns]
  cases ns with
  | nil => rwa [String.intercalate_singleton]
  | cons m ns =>
    intro hempty
    have hcons : n :: m :: ns = [n] ++ (m :: ns) := rfl
    rw [hcons, String.intercalate_append_of_ne_nil (cons_ne_nil _ _) (cons_ne_nil _ _),
      String.intercalate_singleton] at hempty
    simp [hn] at hempty

structure Folder (d : Disk) (directory : String) : Prop where
  here : node? d directory = some .directory
  reached : obstacle? d directory = none
  /-- What the path names last lies in a node, too. -/
  up : parent directory = "" ∨ baseName directory = "" ∨ has d (parent directory) = true

theorem Folder.ne_empty (h : Folder d directory) : directory ≠ "" := by
  rintro rfl
  cases h.here

theorem Folder.hasDirectory (h : Folder d directory) : Disk.hasDirectory d directory := by
  rw [Disk.hasDirectory, h.here]

theorem Folder.makeDirectories (h : Folder d directory) : (Disk.makeDirectories directory).perform d = (.ok (), d) := by
  have hone : makeOne d directory = .error (.file .exists_ directory) := by
    rw [makeOne, h.reached, h.here]
  have hup : (!(parent directory).isEmpty && !(baseName directory).isEmpty) → has d (parent directory) := by
    intro hboth
    rw [Bool.and_eq_true] at hboth
    rcases h.up with hparent | hbase | hhas
    · simp [hparent] at hboth
    · simp [hbase] at hboth
    · exact hhas
  unfold Disk.makeDirectories makeAll
  dsimp only
  split
  · rename_i hboth
    simp [Action.perform_bind, hup hboth, hone, h.hasDirectory]
  · simp [Action.perform_bind, hone, h.hasDirectory]

theorem join_ne_empty (directory : String) (hname : IsName name) : join directory name ≠ "" := by
  intro hempty
  have hnames := names_join directory hname
  rw [hempty] at hnames
  have hlength := congrArg length hnames
  rw [length_append, names_empty] at hlength
  simp at hlength

theorem Folder.obstacle?_join (h : Folder d directory) (hname : IsName name) :
    obstacle? d (join directory name) = none := by
  rw [obstacle?_eq_none (join_ne_empty directory hname)]
  intro a ha
  rcases mem_ancestors_join hname ha with ha | ⟨hnames, rfl⟩
  · exact (obstacle?_eq_none h.ne_empty).1 h.reached a ha
  · have hhere := h.here
    have hempty : directory.isEmpty = false := by simpa using h.ne_empty
    have hkey : (key directory).isEmpty = false := by simpa using key_ne_empty hnames
    simpa [node?, hempty, hkey] using hhere

theorem length_key_lt (directory : String) (hname : IsName name) :
    (key directory).length < (key (join directory name)).length := by
  have hpos : 0 < name.length := by
    rw [← String.length_toList]
    exact length_pos_of_ne_nil (by simpa using hname.ne_empty)
  rw [key_join directory hname]
  split
  · rename_i hnil
    rw [key_of_names, hnil, String.intercalate_nil, String.length_empty]
    exact hpos
  · rw [String.length_append, String.length_append]
    omega

theorem node?_join (d : Disk) (directory : String) (hname : IsName name) :
    node? d (join directory name) = Table.get? d (key (join directory name)) := by
  have hpath : (join directory name).isEmpty = false := by simpa using join_ne_empty directory hname
  have hkey : (key (join directory name)).isEmpty = false := by
    have hne : names (join directory name) ≠ [] := by simp [names_join directory hname]
    simpa using key_ne_empty hne
  simp only [node?, hpath, hkey, Bool.false_eq_true, if_false]

theorem has_put (h : has d path) (k : String) (n : Node) : has (Table.put d k n) path := by
  unfold has node? at h ⊢
  split
  · rename_i hempty
    simp [hempty] at h
  · dsimp only at h ⊢
    split
    · rfl
    · rename_i hpath hkey
      rw [if_neg hpath, if_neg hkey] at h
      by_cases hk : k = key path
      · simp [hk]
      · rwa [Table.get?_put_of_ne d hk]

theorem Folder.put (h : Folder d directory) (hname : IsName name) (n : Node) :
    Folder (Table.put d (key (join directory name)) n) directory := by
  have hlength := length_key_lt directory hname
  refine ⟨?_, ?_, ?_⟩
  · rw [node?_put_of_ne fun heq => by rw [heq] at hlength; omega]
    exact h.here
  · rw [obstacle?_eq_none h.ne_empty]
    intro a ha
    have hshort := length_of_mem_ancestors ha
    rw [Table.get?_put_of_ne d fun heq => by rw [heq] at hlength; omega]
    exact (obstacle?_eq_none h.ne_empty).1 h.reached a ha
  · rcases h.up with hparent | hbase | hhas
    · exact .inl hparent
    · exact .inr (.inl hbase)
    · exact .inr (.inr (has_put hhas _ _))

end Disk

end GzLang
