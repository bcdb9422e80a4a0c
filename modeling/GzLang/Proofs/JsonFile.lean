import GzLang.Json.File
import GzLang.Proofs.JsonDocument
import GzLang.Proofs.World

/-!
# Documents in files

Saving a document leaves in its file what was written of it, whole or not (`perform_save`). A file that
holds a whole document is loaded as its plain form; one that holds the first part of a document, or that
is not there, is not loaded (`perform_load?`).
-/

namespace GzLang.Json

open GzLang.Action

variable {w : World} {path : String}

/-- What a file holds after a document was saved to it. -/
def saved (l : Layout) (v : Value) : Content := .text (dump l v).2

/-- What is loaded from a file that a document was saved to. -/
def reloaded (v : Value) : Option Value := if v.fault?.isNone then some v.normal else none

theorem perform_save (h : w.disk.Writable path) (l : Layout) (v : Value) : (save l path v).perform w =
      (outcome v.fault?, w.withDisk (Table.put w.disk (Disk.key path) (.file (saved l v)))) := by
  rw [save, bind_of_ok (Job.perform_writeText h "")]
  show (Job.writeText path (dump l v).2 >>= fun _ => Action.ofExcept (dump l v).1).perform
    (w.withDisk (Table.put w.disk (Disk.key path) (.file (.text "")))) = _
  rw [bind_of_ok (Job.perform_writeText (h.put (.text "")) (dump l v).2), (parse_dump l v).1,
    World.disk_withDisk, Table.put_put]
  rfl

theorem perform_readText {l : Layout} {v : Value} (h : w.disk.content path = .ok (saved l v)) :
    (Job.readText path).perform w = (.ok (dump l v).2, w) := by
  have hread : w.disk.readText path = .ok (dump l v).2 := by
    rw [Disk.readText_of_content h, Text.foldNewlines_of_not_mem (parse_dump l v).2.1, String.ofList_toList]
  rw [Job.readText, bind_get, hread]
  rfl

theorem perform_load {l : Layout} {v : Value}
    (h : w.disk.content path = .ok (saved l v)) : (load path).perform w = (parse (dump l v).2, w) := by
  rw [load, bind_of_ok (perform_readText h)]
  rfl

theorem perform_load? {l : Layout} {v : Value}
    (h : w.disk.content path = .ok (saved l v)) : (load? path).perform w = (.ok (reloaded v), w) := by
  obtain ⟨-, -, hwhole, hbroken⟩ := parse_dump l v
  have hsome : (some <$> load path).perform w = ((parse (dump l v).2).map some, w) := by
    show (load path >>= fun v => pure (some v)).perform w = _
    rw [perform_bind, perform_load h]
    cases parse (dump l v).2 <;> rfl
  rw [load?, perform_orElse, hsome, reloaded]
  cases hfault : v.fault? with
  | none =>
    rw [hwhole hfault]
    rfl
  | some e =>
    obtain ⟨why, line, column, position, hparse⟩ := hbroken (by simp [hfault])
    rw [hparse]
    rfl

/-- Where there is nothing to read, nothing is loaded if the file is not there, and else it is a fault. -/
theorem perform_load?_of_error {f : Fault} (h : w.disk.content path = .error f) :
    (load? path).perform w = (if f.isNoDocument then .ok none else .error f, w) := by
  have hread : w.disk.readText path = .error f := by
    rw [Disk.readText, h]
    rfl
  have hjob : (Job.readText path).perform w = (.error f, w) := by
    rw [Job.readText, bind_get, hread]
    rfl
  have hload : (load path).perform w = (.error f, w) := by rw [load, bind_of_error hjob]
  have hsome : (some <$> load path).perform w = (.error f, w) := by
    show (load path >>= fun v => pure (some v)).perform w = _
    rw [perform_bind, hload]
  rw [load?, perform_orElse, hsome]
  dsimp only
  split <;> rfl

theorem perform_load?_of_absent (h : w.disk.obstacle? path = none)
    (hnode : w.disk.node? path = none) : (load? path).perform w = (.ok none, w) := by
  have hcontent : w.disk.content path = .error (.file .noSuchFile path) := by rw [Disk.content, h, hnode]
  exact perform_load?_of_error hcontent

end GzLang.Json
