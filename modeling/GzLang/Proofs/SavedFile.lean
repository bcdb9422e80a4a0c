import GzLang.Proofs.JsonFile
import GzLang.Proofs.Path

/-!
# A file on any disk

What is in a file (`Disk.fileAt?`) changes only when it is written, which may fail: making directories leaves it as it
is (`leaves_makeDirectories`), and saving a document to it puts the document there or does nothing
(`perform_save_cases`). So where only documents with a property are saved to a file, nothing else is ever loaded from it
(`perform_load?_cases`).
-/

namespace GzLang

open GzLang.Action

variable {path : String}

namespace Disk

/-- The content of the file under the key of a path, whether it can be reached or not. -/
def fileAt? (path : String) (d : Disk) : Option Content :=
  match Table.get? d (key path) with
  | some (.file c) => some c
  | _ => none

theorem fileAt?_put_self (d : Disk) (path : String) (c : Content) :
    fileAt? path (Table.put d (key path) (.file c)) = some c := by
  rw [fileAt?, Table.get?_put_self]

theorem Writable.content_eq {d : Disk} (h : d.Writable path) :
    d.content path = (d.fileAt? path).elim (.error (.file .noSuchFile path)) .ok := by
  have hnode : d.node? path = Table.get? d (key path) := by
    have hfile := h.file
    rw [node?, if_neg (by simpa using h.ne_empty)] at hfile ⊢
    dsimp only at hfile ⊢
    split
    · rename_i hempty
      rw [if_pos hempty] at hfile
      exact absurd rfl hfile
    · rfl
  rw [content, h.reached, fileAt?, ← hnode]
  have hfile := h.file
  rcases hfound : d.node? path with _ | ⟨c | _⟩
  · rfl
  · rfl
  · exact absurd hfound hfile

theorem fileAt?_of_content {d : Disk} {c : Content} (h : d.content path = .ok c) : d.fileAt? path = some c := by
  have hc := (writable_of_content h).content_eq
  cases hfile : d.fileAt? path <;> simp_all

theorem fileAt?_makeOne {d d' : Disk} {other : String} (h : makeOne d other = .ok d') (path : String) :
    d'.fileAt? path = d.fileAt? path := by
  rw [makeOne] at h
  split at h
  · cases h
  · rename_i hobstacle
    split at h
    · cases h
    · rename_i hnode
      rw [← Except.ok.inj h, fileAt?, fileAt?]
      by_cases hkey : key other = key path
      · have hnone : Table.get? d (key path) = none := by
          rw [node?] at hnode
          split at hnode
          · rename_i hempty
            rw [obstacle?, if_pos hempty] at hobstacle
            cases hobstacle
          · dsimp only at hnode
            split at hnode
            · cases hnode
            · rwa [← hkey]
        rw [hkey, Table.get?_put_self, hnone]
      · rw [Table.get?_put_of_ne _ hkey]

theorem leaves_makeLast (path other : String) : Leaves (fileAt? path) (makeLast other) := by
  intro d
  cases hone : makeOne d other with
  | ok d' =>
    rw [perform_makeLast_of_ok hone]
    exact fileAt?_makeOne hone path
  | error f =>
    rw [perform_makeLast_of_error hone]
    split <;> rfl

theorem leaves_makeAll (path : String) (fuel : Nat) (other : String) : Leaves (fileAt? path) (makeAll fuel other) := by
  induction fuel generalizing other with
  | zero => exact leaves_pure _
  | succ fuel ih =>
    rw [makeAll_succ]
    refine Leaves.bind ?_ fun _ => leaves_makeLast path other
    rw [makeUp]
    split
    · refine Leaves.bind (fun _ => rfl) fun d => ?_
      split
      · exact ih _
      · exact leaves_pure _
    · exact leaves_pure _

end Disk

theorem Job.leaves_makeDirectories (path other : String) :
    Leaves (fun w : World => w.disk.fileAt? path) (Job.makeDirectories other) := by
  intro w
  rw [Job.perform_makeDirectories]
  exact Disk.leaves_makeAll path _ other w.disk

namespace Json

variable {w : World}

/-- Saving puts a document in a file, as far as it has a written form, or does nothing. -/
theorem perform_save_cases (l : Layout) (path : String) (v : Value) (w : World) : ((save l path v).perform w).2 = w ∨
      ((save l path v).perform w).2 = w.withDisk (Table.put w.disk (Disk.key path) (.file (saved l v))) := by
  by_cases h : w.disk.Writable path
  · right
    rw [perform_save h]
  · left
    obtain ⟨f, hf⟩ := Job.perform_writeText_of_not h ""
    rw [save, bind_of_error hf]

theorem perform_load?_of_no_file (h : w.disk.Writable path)
    (hfile : w.disk.fileAt? path = none) : (load? path).perform w = (.ok none, w) := by
  have hcontent := h.content_eq
  rw [hfile] at hcontent
  exact perform_load?_of_error hcontent

/-- What was last saved to a file that can be written is loaded from it. -/
theorem perform_load?_of_writable (h : w.disk.Writable path) {l : Layout}
    {filed : Option Value} (hfile : w.disk.fileAt? path = filed.map (saved l)) :
    (load? path).perform w = (.ok (filed.bind reloaded), w) := by
  cases filed with
  | none => exact perform_load?_of_no_file h hfile
  | some v =>
    have hcontent := h.content_eq
    rw [hfile] at hcontent
    exact perform_load? hcontent

/-- Where only documents with a property are saved to a file, only the plain form of such a document is loaded
from it. -/
theorem perform_load?_cases {P : Value → Prop} {l : Layout}
    (h : ∀ c, w.disk.fileAt? path = some c → ∃ v, P v ∧ c = saved l v) :
    (load? path).perform w = (.ok none, w) ∨ (∃ f, (load? path).perform w = (.error f, w)) ∨
      ∃ v, P v ∧ v.fault? = none ∧ (load? path).perform w = (.ok (some v.normal), w) := by
  cases hcontent : w.disk.content path with
  | error f =>
    have hload := perform_load?_of_error hcontent
    split at hload
    · exact .inl hload
    · exact .inr (.inl ⟨f, hload⟩)
  | ok c =>
    obtain ⟨v, hv, rfl⟩ := h c (Disk.fileAt?_of_content hcontent)
    have hload := perform_load? hcontent
    rw [reloaded] at hload
    cases hfault : v.fault? with
    | none =>
      rw [hfault] at hload
      exact .inr (.inr ⟨v, hv, hfault, hload⟩)
    | some f =>
      rw [hfault] at hload
      exact .inl hload

end Json

end GzLang
