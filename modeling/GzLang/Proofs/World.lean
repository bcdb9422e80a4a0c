import GzLang.World
import GzLang.Proofs.Action
import GzLang.Proofs.Disk

/-!
# Single steps on the surroundings

What the actions on the disk and on a component's own state do, one by one.
-/

namespace GzLang

open GzLang.Action

variable {σ α β : Type} {w w' : World} {path : String}

def World.withDisk (w : World) (d : Disk) : World := { w with disk := d }

@[simp] theorem World.disk_withDisk (w : World) (d : Disk) : (w.withDisk d).disk = d := rfl

@[simp] theorem World.clock_withDisk (w : World) (d : Disk) : (w.withDisk d).clock = w.clock := rfl

@[simp] theorem World.withDisk_withDisk (w : World) (d d' : Disk) : (w.withDisk d).withDisk d' = w.withDisk d' := rfl

@[simp] theorem World.withDisk_disk (w : World) : w.withDisk w.disk = w := rfl

def World.timeText (w : World) : String := Calendar.isoText (Calendar.ofSeconds w.clock)

theorem Job.perform_timestamp (w : World) : Job.timestamp.perform w = (.ok w.timeText, w) := rfl

theorem Action.bind_lift {e : Except Fault α} {x : α} (h : e = .ok x) (f : α → Action σ β)
    (s : σ) : ((liftM e : Action σ α) >>= f).perform s = (f x).perform s := by
  rw [h]
  exact bind_of_ok (perform_ofExcept (.ok x) s) f

theorem Task.perform_self (s : σ) (w : World) : (Task.self : Task σ σ).perform (s, w) = (.ok s, (s, w)) := rfl

theorem Action.bind_self (f : σ → Task σ β) (s : σ) (w : World) :
    (Task.self >>= f).perform (s, w) = (f s).perform (s, w) := bind_of_ok (Task.perform_self s w) f

theorem Task.perform_lift (a : Job α) (s : σ) (w : World) :
    (liftM a : Task σ α).perform (s, w) = ((a.perform w).1, (s, (a.perform w).2)) := rfl

theorem Task.bind_lift {a : Job α} {x : α} (h : a.perform w = (.ok x, w')) (f : α → Task σ β) (s : σ) :
    ((liftM a : Task σ α) >>= f).perform (s, w) = (f x).perform (s, w') := by
  have hlift : (liftM a : Task σ α).perform (s, w) = (.ok x, (s, w')) := by rw [Task.perform_lift, h]
  exact bind_of_ok hlift f

theorem Task.perform_from (s : σ) (a : Task σ α) (w : World) :
    (Task.from_ s a).perform w = ((a.perform (s, w)).1, (a.perform (s, w)).2.2) := rfl

theorem Job.perform_writeText (h : w.disk.Writable path) (text : String) : (Job.writeText path text).perform w =
      (.ok (), { w with disk := Table.put w.disk (Disk.key path) (.file (.text text)) }) := by
  rw [Job.writeText, bind_get, h.writeText]
  rfl

theorem Job.perform_writeText_of_not (h : ¬ w.disk.Writable path)
    (text : String) : ∃ f, (Job.writeText path text).perform w = (.error f, w) := by
  obtain ⟨f, hf⟩ := Disk.writeText_of_not_writable h text
  refine ⟨f, ?_⟩
  rw [Job.writeText, bind_get, hf]
  rfl

theorem Job.perform_pathExists (path : String) (w : World) :
    (Job.pathExists path).perform w = (.ok (w.disk.has path), w) := rfl

theorem Job.perform_onDisk (a : Action Disk α) (w : World) : (Action.on World.diskPart a).perform w =
      ((a.perform w.disk).1, w.withDisk (a.perform w.disk).2) := rfl

theorem Job.perform_makeDirectories (path : String) (w : World) : (Job.makeDirectories path).perform w =
      (((Disk.makeDirectories path).perform w.disk).1, w.withDisk ((Disk.makeDirectories path).perform w.disk).2) :=
  Job.perform_onDisk _ w

theorem Task.perform_update (f : σ → σ) (s : σ) (w : World) :
    (Task.update f : Task σ Unit).perform (s, w) = (.ok (), (f s, w)) := rfl

theorem Action.bind_update (g : σ → σ) (f : PUnit → Task σ β) (s : σ) (w : World) :
    (Task.update g >>= f).perform (s, w) = (f ⟨⟩).perform (g s, w) := bind_of_ok (Task.perform_update g s w) f

theorem Task.perform_start_of_ok {s t : σ} {setUp : Task σ Unit}
    (h : setUp.perform (s, w) = (.ok (), (t, w'))) : (Task.start s setUp).perform w = (.ok t, w') := by
  rw [Task.start, perform_of, h]

theorem Task.perform_start_of_error {s t : σ} {setUp : Task σ Unit} {f : Fault}
    (h : setUp.perform (s, w) = (.error f, (t, w'))) : (Task.start s setUp).perform w = (.error f, w') := by
  rw [Task.start, perform_of, h]

theorem Task.perform_ifThere {τ : Type} {p : Part σ (Option τ)} {s : σ} {x : τ} (h : p.get s = some x)
    (a : Task τ α) (w : World) : (Task.ifThere p a).perform (s, w) =
      ((a.perform (x, w)).1.map some, (p.set (some (a.perform (x, w)).2.1) s, (a.perform (x, w)).2.2)) := by
  rw [Task.ifThere, perform_of]
  simp only [h]

end GzLang
