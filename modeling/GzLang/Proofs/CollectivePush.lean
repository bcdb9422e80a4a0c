import GzLang.Proofs.CollectiveFile

/-!
# What a push does

Publishing the learnings works in the directory of a clone. Its steps change nothing else (`Steady`): the
collective memory itself stays as it is, and so do all files beyond that directory and, in it, all but the
two that are written (`publishedFiles`). So a push that fails leaves no trace, and one that succeeds shows
the files of the clone with two of them brought up to date (`perform_publish`).
-/

namespace GzLang.Collective

open GzLang.Action Text Disk

variable {t name path : String}

/-- The files of a repository that a push brings up to date. -/
def publishedFiles : List String := ["models/collective_memory.json", "models/learning_summary.md"]

def cloneKey (name : String) : String := ofNames cloneNames ++ "/" ++ name

/-- What the steps of a push do to the surroundings: commands are issued, directories are made, and files
are written that a push brings up to date. -/
structure Steady (w w' : World) : Prop where
  clock : w'.clock = w.clock
  shell : w'.shell = { w.shell with issued := w'.shell.issued }
  beyond : Disk.Beyond cloneNames w.disk w'.disk
  files : ∀ name ∉ publishedFiles, ∀ c, Table.get? w'.disk (cloneKey name) = some (.file c) ↔
    Table.get? w.disk (cloneKey name) = some (.file c)

theorem cloneNames_ne_nil : cloneNames ≠ [] := by decide

theorem Steady.refl (w : World) : Steady w w := ⟨rfl, rfl, Disk.Beyond.refl _ _, fun _ _ _ => Iff.rfl⟩

theorem Steady.trans {w w' w'' : World} (h : Steady w w') (h' : Steady w' w'') : Steady w w'' where
  clock := h'.clock.trans h.clock
  shell := by
    rw [h'.shell, h.shell]
  beyond := h.beyond.trans isName_of_mem_cloneNames cloneNames_ne_nil h'.beyond
  files name hname c := (h'.files name hname c).trans (h.files name hname c)

/-! ### Actions that are steady -/

/-- An action that leaves the collective memory as it is and works steadily. -/
def Bides {α : Type} (c : Collective) (a : Task Collective α) : Prop :=
  ∀ w, ∃ r w', a.perform (c, w) = (r, (c, w')) ∧ Steady w w'

section

variable {α β : Type} {c : Collective}

variable {a : Task Collective α}

theorem bides_of_perform {e : Except Fault α} (h : ∀ w, a.perform (c, w) = (e, (c, w))) : Bides c a :=
  fun w => ⟨e, w, h w, Steady.refl w⟩

theorem bides_pure (x : α) : Bides c (pure x) := bides_of_perform fun _ => rfl

theorem bides_ofExcept (e : Except Fault α) : Bides c (liftM e) := bides_of_perform fun _ => rfl

theorem bides_lift {a : Job α} (h : ∀ w, Steady w (a.perform w).2) : Bides c (liftM a) :=
  fun w => ⟨_, _, Task.perform_lift a c w, h w⟩

theorem Bides.bind {f : α → Task Collective β} (ha : Bides c a) (hf : ∀ x, Bides c (f x)) : Bides c (a >>= f) := by
  intro w
  obtain ⟨r, w', hperform, hsteady⟩ := ha w
  cases r with
  | error e => exact ⟨.error e, w', bind_of_error hperform f, hsteady⟩
  | ok x =>
    obtain ⟨r, w'', hperform', hsteady'⟩ := hf x w'
    exact ⟨r, w'', (bind_of_ok hperform f).trans hperform', hsteady.trans hsteady'⟩

theorem bides_bind_of_ok {f : α → Task Collective β} {x : α}
    (ha : ∀ w, a.perform (c, w) = (.ok x, (c, w))) (hf : Bides c (f x)) : Bides c (a >>= f) := by
  intro w
  rw [bind_of_ok (ha w)]
  exact hf w

theorem Bides.orElse {f : Fault → Task Collective α} (ha : Bides c a)
    (hf : ∀ e, Bides c (f e)) : Bides c (a.orElse f) := by
  intro w
  obtain ⟨r, w', hperform, hsteady⟩ := ha w
  rw [perform_orElse, hperform]
  cases r with
  | error e =>
    obtain ⟨r, w'', hperform', hsteady'⟩ := hf e w'
    exact ⟨r, w'', hperform', hsteady.trans hsteady'⟩
  | ok x => exact ⟨.ok x, w', rfl, hsteady⟩

theorem Bides.forM {f : α → Task Collective PUnit} {xs : List α} (h : ∀ x ∈ xs, Bides c (f x)) :
    Bides c (xs.forM f) := by
  induction xs with
  | nil => exact bides_pure _
  | cons x xs ih =>
    rw [List.forall_mem_cons] at h
    exact h.1.bind fun _ => ih h.2

end

/-! ### The steps -/

theorem steady_withDisk {w : World} {d : Disk} (hbeyond : Disk.Beyond cloneNames w.disk d)
    (hfiles : ∀ name ∉ publishedFiles, ∀ c, Table.get? d (cloneKey name) = some (.file c) ↔
      Table.get? w.disk (cloneKey name) = some (.file c)) : Steady w (w.withDisk d) :=
  ⟨rfl, rfl, hbeyond, hfiles⟩

theorem steady_makeDirectories (ns : List String) (hns : ∀ n ∈ ns, Disk.IsName n) (w : World) :
    Steady w ((Job.makeDirectories (ofNames (cloneNames ++ ns))).perform w).2 := by
  have hall : ∀ n ∈ cloneNames ++ ns, Disk.IsName n := by
    intro n hn
    rcases List.mem_append.1 hn with h | h
    · exact isName_of_mem_cloneNames n h
    · exact hns n h
  have hgrown := grown_makeDirectories hall (by simp [cloneNames]) w.disk
  rw [Job.perform_makeDirectories]
  exact steady_withDisk (hgrown.beyond cloneNames_ne_nil) fun name _ => hgrown.get?_file_iff _

theorem steady_makeParent (w : World) : Steady w ((Job.makeDirectories (ofNames cloneNames.dropLast)).perform w).2 := by
  have hall : ∀ n ∈ cloneNames.dropLast, Disk.IsName n :=
    fun n hn => isName_of_mem_cloneNames n (List.mem_of_mem_dropLast hn)
  have hgrown := grown_makeDirectories hall (by decide) w.disk
  rw [Job.perform_makeDirectories]
  exact steady_withDisk hgrown.beyond_dropLast fun name _ => hgrown.get?_file_iff _

theorem cloneKey_inj {a b : String} (h : cloneKey a = cloneKey b) : a = b := by
  have hlists := congrArg String.toList h
  simp only [cloneKey, String.toList_append] at hlists
  exact String.toList_inj.1 (List.append_cancel_left hlists)

theorem steady_writeText (hname : name ∈ publishedFiles) (hkey : key path = cloneKey name) (text : String) (w : World) :
    Steady w ((Job.writeText path text).perform w).2 := by
  by_cases hwritable : w.disk.Writable path
  · rw [Job.perform_writeText hwritable, hkey]
    refine steady_withDisk (beyond_put (below_child _ _) _ _) fun other hother c => ?_
    have hne : cloneKey name ≠ cloneKey other := fun heq => hother (cloneKey_inj heq ▸ hname)
    rw [Table.get?_put_of_ne _ hne]
  · obtain ⟨f, hf⟩ := Job.perform_writeText_of_not hwritable text
    rw [hf]
    exact Steady.refl w

/-! ### Commands -/

def issue (c : String) (w : World) : World :=
  { w with shell := { w.shell with issued := w.shell.issued ++ [c] } }

theorem steady_issue (c : String) (w : World) : Steady w (issue c w) :=
  ⟨rfl, rfl, Disk.Beyond.refl _ _, fun _ _ _ => Iff.rfl⟩

theorem perform_command (c : String) (w : World) : (Job.command c).perform w =
    if w.shell.fails c then (.error (.commandFailed c 1), issue c w)
    else if occurs "git clone".toList c.toList then
      (.ok (), { issue c w with
        disk := placeAll (String.ofList ((words c.toList).getLastD [])) w.shell.cloned w.disk
        shell := { (issue c w).shell with clone := String.ofList ((words c.toList).getLastD []) } })
    else if occurs "git push".toList c.toList then
      (.ok (), { issue c w with
        shell := { (issue c w).shell with pushed := some (w.disk.textsBelow w.shell.clone) } })
    else (.ok (), issue c w) := by
  have hissue : (modify fun w => { w with shell := { w.shell with issued := w.shell.issued ++ [c] } } :
      Job PUnit).perform w = (.ok ⟨⟩, issue c w) := rfl
  have hfails : (issue c w).shell.fails c = w.shell.fails c := rfl
  rw [Job.command, bind_of_ok hissue, bind_get]
  dsimp only
  rw [hfails]
  cases w.shell.fails c with
  | true => rfl
  | false =>
    cases occurs "git clone".toList c.toList with
    | true => rfl
    | false => cases occurs "git push".toList c.toList <;> rfl

def isQuiet (s : List Char) : Bool :=
  !occurs "git clone".toList s && !occurs "git push".toList s

/-- A command that is neither a clone nor a push does nothing but fail or not. -/
theorem steady_command (h : isQuiet t.toList) (w : World) : Steady w ((Job.command t).perform w).2 := by
  rw [isQuiet, Bool.and_eq_true, Bool.not_eq_true', Bool.not_eq_true'] at h
  rw [perform_command, h.1, h.2]
  split <;> exact steady_issue t w

theorem bides_command {c : Collective} (h : isQuiet t.toList) :
    Bides c (liftM (Job.command t) : Task Collective Unit) :=
  bides_lift (steady_command h)

theorem isQuiet_iff {s : List Char} : isQuiet s ↔ ¬ "git clone".toList <:+: s ∧ ¬ "git push".toList <:+: s := by
  rw [isQuiet, Bool.and_eq_true, Bool.not_eq_true', Bool.not_eq_true', ← occurs_iff_infix,
    ← occurs_iff_infix, Bool.not_eq_true, Bool.not_eq_true]

theorem isQuiet_author : isQuiet (authorCommand cloneDirectory "Zrald1").toList := by cbv

theorem isQuiet_add : isQuiet ("cd " ++ cloneDirectory ++ " && git add .").toList := by
  cbv

theorem isQuiet_emptyCommit : isQuiet ("cd " ++ cloneDirectory ++
    " && git commit --allow-empty -m \"Auto-update: No new learnings [AI-generated]\"").toList := by
  cbv

theorem isQuiet_commit (n : Nat) : isQuiet ("cd " ++ cloneDirectory ++ " && git commit -m \"" ++
    ("Auto-update: Added " ++ toString n ++ " new learnings [AI-generated]") ++ "\"").toList := by
  have hsplit : ("cd " ++ cloneDirectory ++ " && git commit -m \"" ++ ("Auto-update: Added " ++ toString n ++
      " new learnings [AI-generated]") ++ "\"").toList =
      ("cd " ++ cloneDirectory ++ " && git commit -m \"Auto-update: Added ").toList ++
        (Nat.toDigits 10 n ++ " new learnings [AI-generated]\"".toList) := by
    rw [Nat.toString_eq_ofList_toDigits]
    simp
  have hfront : isQuiet ("cd " ++ cloneDirectory ++ " && git commit -m \"Auto-update: Added ").toList := by
    cbv
  have hback : isQuiet " new learnings [AI-generated]\"".toList := by cbv
  have hfree {a b p : List Char} (hp : ∀ c ∈ p, c.isDigit = false)
      (hwhole : p <:+: a ++ (Nat.toDigits 10 n ++ b)) : p <:+: a ∨ p <:+: b := by
    refine infix_of_infix_append_append Nat.toDigits_ne_nil (fun c hc hmem => ?_) hwhole
    have hdigit : c.isDigit := Nat.isDigit_of_mem_toDigits (by omega) le_rfl hc
    rw [hp c hmem] at hdigit
    cases hdigit
  rw [isQuiet_iff] at hfront hback ⊢
  rw [hsplit]
  exact ⟨fun h => (hfree (by decide) h).elim hfront.1 hback.1,
    fun h => (hfree (by decide) h).elim hfront.2 hback.2⟩

/-! ### The parts of a push -/

theorem key_inModels (hname : Disk.IsName name) :
    key (join (join cloneDirectory "models") name) = cloneKey ("models/" ++ name) := by
  have hclone : ∀ n ∈ cloneNames ++ ["models"], Disk.IsName n := by decide
  have hdirectory : join cloneDirectory "models" = ofNames (cloneNames ++ ["models"]) := by decide
  have hkey := key_join (ofNames (cloneNames ++ ["models"])) hname
  rw [names_ofNames hclone, if_neg (by simp), key_ofNames hclone,
    ofNames_concat cloneNames_ne_nil] at hkey
  have hslash : "models/" = "models" ++ "/" := by decide
  rw [hdirectory, ofNames_concat cloneNames_ne_nil, hkey, cloneKey, hslash]
  simp only [String.append_assoc]

theorem steady_save (hname : name ∈ publishedFiles) (hkey : key path = cloneKey name) (v : Value) (w : World) :
    Steady w ((Json.save .indented path v).perform w).2 := by
  by_cases hwritable : w.disk.Writable path
  · have hwritten := steady_writeText hname hkey (Json.dump .indented v).2 w
    rw [Job.perform_writeText hwritable] at hwritten
    rw [Json.perform_save hwritable]
    exact hwritten
  · obtain ⟨f, hf⟩ := Job.perform_writeText_of_not hwritable ""
    rw [Json.save, bind_of_error hf]
    exact Steady.refl w

/-- The address of the repository with something else in the place of its scheme. -/
theorem replaceAll_repository (new : List Char) :
    replaceAll "https://".toList new "https://github.com/Zrald1/gzc.git".toList =
      new ++ "github.com/Zrald1/gzc.git".toList := by
  have hsplit : splitAll "https://".toList "https://github.com/Zrald1/gzc.git".toList =
      [[], "github.com/Zrald1/gzc.git".toList] := by cbv
  rw [replaceAll, hsplit]
  rfl

def pushCommand (target : String) : String :=
  "cd " ++ cloneDirectory ++ " && git push " ++ target ++ " " ++ "main"

def secretTarget (token : String) : String :=
  String.ofList (replaceAll "https://".toList ("https://" ++ "Zrald1" ++ ":" ++ token ++ "@").toList
    "https://github.com/Zrald1/gzc.git".toList)

theorem toList_pushCommand_secret (token : String) : (pushCommand (secretTarget token)).toList =
    ("cd " ++ cloneDirectory ++ " && git push https://Zrald1").toList ++
      ':' :: (token.toList ++ '@' :: "github.com/Zrald1/gzc.git main".toList) := by
  rw [pushCommand, secretTarget, replaceAll_repository]
  simp

theorem occurs_push_secret (token : String) : occurs "git push".toList (pushCommand (secretTarget token)).toList := by
  have hfront : occurs "git push".toList ("cd " ++ cloneDirectory ++ " && git push https://Zrald1").toList := by cbv
  rw [Text.occurs_iff_infix] at hfront ⊢
  rw [toList_pushCommand_secret]
  exact hfront.trans (List.prefix_append _ _).isInfix

theorem occurs_clone_secret {token : String} (h : ' ' ∉ token.toList) :
    occurs "git clone".toList (pushCommand (secretTarget token)).toList = false := by
  have hfront : occurs "git clone".toList
      ("cd " ++ cloneDirectory ++ " && git push https://Zrald1").toList = false := by cbv
  have hback : occurs "git clone".toList "github.com/Zrald1/gzc.git main".toList = false := by
    cbv
  rw [Bool.eq_false_iff, ne_eq, occurs_iff_infix] at hfront hback ⊢
  rw [toList_pushCommand_secret]
  intro hinfix
  rcases infix_of_infix_append_cons (by decide) hinfix with hleft | hright
  · exact hfront hleft
  · rcases infix_of_infix_append_cons (by decide) hright with htoken | hright
    · exact h (htoken.subset (by decide))
    · exact hback hright

section

variable (v : Value) (s : Settings) (l : Ledger) (k : Counters)

theorem bides_writeMemoryFiles : Bides ⟨v, l.memory, k⟩ (writeMemoryFiles cloneDirectory) := by
  have hdirectory : join cloneDirectory "models" = ofNames (cloneNames ++ ["models"]) := by decide
  have hmade := steady_makeDirectories ["models"] (by decide)
  rw [← hdirectory] at hmade
  have hmemory := key_inModels (show Disk.IsName "collective_memory.json" by decide)
  have hsummary := key_inModels (show Disk.IsName "learning_summary.md" by decide)
  have hmemory' : "models/" ++ "collective_memory.json" ∈ publishedFiles := by decide
  have hsummary' : "models/" ++ "learning_summary.md" ∈ publishedFiles := by decide
  refine Bides.orElse ?_ fun _ => bides_pure false
  refine (bides_lift hmade).bind fun _ => (bides_lift (steady_writeText hmemory' hmemory "")).bind fun _ => ?_
  refine bides_bind_of_ok (perform_learnings v l k) ?_
  refine (bides_lift (steady_save hmemory' hmemory _)).bind fun _ => ?_
  refine (bides_lift (steady_writeText hsummary' hsummary "")).bind fun _ => ?_
  refine bides_bind_of_ok (Task.perform_self _) ?_
  intro w
  refine (Bides.bind (bides_lift (a := Job.instant) fun w => Steady.refl w) fun now => ?_) w
  exact (bides_lift (steady_writeText hsummary' hsummary _)).bind fun _ =>
    (bides_ofExcept _).bind fun _ => bides_pure true

theorem bides_extendTable {t : RuleTable} (ht : t ∈ ruleTables) (directory : String) :
    Bides ⟨v, l.memory, k⟩ (extendTable directory t) := by
  refine bides_bind_of_ok (perform_learnings v l k) ?_
  rw [RuleTable.select_items ht]
  exact bides_of_perform fun _ => rfl

theorem bides_extendScript : Bides ⟨v, l.memory, k⟩ (extendScript cloneDirectory) := by
  have hdirectory : join (join cloneDirectory "src") "ai" = ofNames (cloneNames ++ ["src", "ai"]) := by decide
  have hmade := steady_makeDirectories ["src", "ai"] (by decide)
  rw [← hdirectory] at hmade
  refine Bides.orElse ?_ fun _ => bides_pure false
  exact (bides_lift hmade).bind fun _ =>
    (Bides.forM fun t ht => bides_extendTable v l k ht _).bind fun _ => bides_pure true

theorem bides_commit : Bides ⟨v, l.memory, k⟩ (commit cloneDirectory) := by
  have hdisplay : (Value.int l.fresh).display = Value.intText l.fresh := rfl
  refine bides_bind_of_ok (x := .int l.fresh) (fun _ => rfl) ?_
  rw [hdisplay]
  cases hcount : Value.intText l.fresh with
  | error f => exact bides_of_perform fun _ => rfl
  | ok count =>
    have htext : count = toString l.fresh := by
      rw [Value.intText] at hcount
      split at hcount
      · cases hcount
      · cases hcount
        rfl
    rw [htext]
    exact (bides_command (isQuiet_commit l.fresh)).orElse fun _ => bides_command isQuiet_emptyCommit

/-- Pushing is a command with `git push` in it and without `git clone`. -/
theorem perform_pushClone {w : World} (hsecret : ∀ t, w.shell.token = some t → ' ' ∉ t.toList) :
    ∃ t : String, occurs "git clone".toList t.toList = false ∧ occurs "git push".toList t.toList ∧
      (pushClone cloneDirectory).perform (⟨s.options, l.memory, k⟩, w) =
        (liftM (Job.command t) : Task Collective Unit).perform (⟨s.options, l.memory, k⟩, w) := by
  have hfound : secret?.perform (⟨s.options, l.memory, k⟩, w) =
      (.ok (w.shell.token.filter fun t => !t.isEmpty), (⟨s.options, l.memory, k⟩, w)) := rfl
  rw [pushClone, bind_of_ok hfound]
  cases htoken : w.shell.token.filter fun t => !t.isEmpty with
  | none =>
    refine ⟨pushCommand "origin", ?_, ?_, rfl⟩
    · cbv
    · cbv
  | some token =>
    have hblank : ' ' ∉ token.toList := hsecret token (Option.eq_some_of_filter_eq_some htoken)
    exact ⟨pushCommand (secretTarget token), occurs_clone_secret hblank, occurs_push_secret token, rfl⟩

/-! ### The whole push -/

def makeClone : Task Collective Unit := do
  Job.makeDirectories (parent cloneDirectory)
  Job.makeDirectories cloneDirectory

def updateClone : Task Collective Unit := do
  let _ ← writeMemoryFiles cloneDirectory
  let _ ← extendScript cloneDirectory
  let user ← (← option "github_username").display
  Job.command (authorCommand cloneDirectory user)
  Job.command ("cd " ++ cloneDirectory ++ " && git add .")
  commit cloneDirectory

theorem bides_makeClone (c : Collective) : Bides c makeClone := by
  have hparent : parent cloneDirectory = ofNames cloneNames.dropLast := by decide
  have hclone := steady_makeDirectories [] (by decide)
  rw [List.append_nil, ← cloneDirectory_eq] at hclone
  have hup := steady_makeParent
  rw [← hparent] at hup
  exact (bides_lift hup).bind fun _ => bides_lift hclone

theorem bides_updateClone : Bides ⟨s.options, l.memory, k⟩ updateClone := by
  refine (bides_writeMemoryFiles s.options l k).bind fun _ =>
    (bides_extendScript s.options l k).bind fun _ => ?_
  refine bides_bind_of_ok (x := .str "Zrald1") (fun _ => rfl) ?_
  refine bides_bind_of_ok (x := "Zrald1") (fun _ => rfl) ?_
  exact (bides_command isQuiet_author).bind fun _ => (bides_command isQuiet_add).bind fun _ =>
    bides_commit s.options l k

def cloneCommand : String := "git clone https://github.com/Zrald1/gzc.git " ++ cloneDirectory

theorem perform_cloneCommand (w : World) : (Job.command cloneCommand).perform w =
    if w.shell.fails cloneCommand then (.error (.commandFailed cloneCommand 1), issue cloneCommand w)
    else (.ok (), { issue cloneCommand w with
      disk := placeAll cloneDirectory w.shell.cloned w.disk
      shell := { (issue cloneCommand w).shell with clone := cloneDirectory } }) := by
  have hclone : occurs "git clone".toList cloneCommand.toList := by cbv
  have htarget : String.ofList ((words cloneCommand.toList).getLastD []) = cloneDirectory := by
    cbv
  rw [perform_command, hclone, htarget]
  rfl

end

/-- A repository that can be cloned: each file has a path of its own below the directory of the clone. -/
structure IsRepository (files : Table String) : Prop where
  paths : ∀ e ∈ files, Disk.IsPath e.1
  nodup : files.keys.Nodup

/-- The surroundings after a repository was cloned into a new directory: the files of the clone, but for
those that a push brings up to date, are those of the repository. -/
structure Cloned (w w' : World) : Prop where
  clock : w'.clock = w.clock
  beyond : Disk.Beyond cloneNames w.disk w'.disk
  pushed : w'.shell.pushed = w.shell.pushed
  token : w'.shell.token = w.shell.token
  clone : w'.shell.clone = cloneDirectory
  files : ∀ name ∉ publishedFiles, ∀ c, Table.get? w'.disk (cloneKey name) = some (.file c) ↔
    ∃ t, c = .text t ∧ w.shell.cloned.get? name = some t

theorem Cloned.steady {w w' w'' : World} (h : Cloned w w') (hsteady : Steady w' w'') : Cloned w w'' where
  clock := hsteady.clock.trans h.clock
  beyond := h.beyond.trans isName_of_mem_cloneNames cloneNames_ne_nil hsteady.beyond
  pushed := by rw [hsteady.shell, h.pushed]
  token := by rw [hsteady.shell, h.token]
  clone := by rw [hsteady.shell, h.clone]
  files name hname c := (hsteady.files name hname c).trans (h.files name hname c)

def IsFresh (d : Disk) : Prop := ∀ name c, Table.get? d (cloneKey name) ≠ some (.file c)

theorem cloned_of_command {w w' : World} (hsteady : Steady w w') (hrepository : IsRepository w.shell.cloned)
    (hfresh : IsFresh w.disk) : Cloned w { issue cloneCommand w' with
      disk := placeAll cloneDirectory w'.shell.cloned w'.disk
      shell := { (issue cloneCommand w').shell with clone := cloneDirectory } } := by
  have hcloned : w'.shell.cloned = w.shell.cloned := by rw [hsteady.shell]
  have hplaced : Disk.Beyond cloneNames w'.disk (placeAll cloneDirectory w'.shell.cloned w'.disk) := by
    rw [cloneDirectory_eq, hcloned]
    exact beyond_placeAll isName_of_mem_cloneNames cloneNames_ne_nil hrepository.paths w'.disk
  refine ⟨hsteady.clock, hsteady.beyond.trans isName_of_mem_cloneNames cloneNames_ne_nil hplaced, ?_, ?_, rfl,
    fun name hname c => ?_⟩
  · show w'.shell.pushed = _
    rw [hsteady.shell]
  · show w'.shell.token = _
    rw [hsteady.shell]
  · have hfiles := placeAll_file_iff isName_of_mem_cloneNames cloneNames_ne_nil hrepository.paths
      hrepository.nodup w'.disk name c
    have hnone : Table.get? w'.disk (cloneKey name) ≠ some (.file c) := fun h =>
      hfresh name c ((hsteady.files name hname c).1 h)
    show Table.get? (placeAll cloneDirectory w'.shell.cloned w'.disk) (cloneKey name) = _ ↔ _
    rw [cloneDirectory_eq, hcloned, cloneKey, hfiles]
    exact ⟨fun h => h.resolve_right fun h => hnone h.2, .inl⟩

/-- How a push ends: it changes nothing beyond the directory of the clone, it succeeds if something was
pushed, and what was pushed are the files of the repository but for those that were brought up to date. -/
structure PushOutcome (w : World) (succeeded : Bool) (w' : World) : Prop where
  clock : w'.clock = w.clock
  beyond : Disk.Beyond cloneNames w.disk w'.disk
  succeeded_eq : succeeded = w'.shell.pushed.isSome
  pushed : ∀ files, w'.shell.pushed = some files → ∀ name ∉ publishedFiles,
    files.get? name = w.shell.cloned.get? name

theorem pushOutcome_of_none {w w' : World} (hclock : w'.clock = w.clock)
    (hbeyond : Disk.Beyond cloneNames w.disk w'.disk) (hnone : w'.shell.pushed = none) :
    PushOutcome w false w' := by
  refine ⟨hclock, hbeyond, by rw [hnone]; rfl, fun files hfiles => ?_⟩
  rw [hnone] at hfiles
  cases hfiles

theorem Steady.pushOutcome {w w' : World} (h : Steady w w') (hpushed : w.shell.pushed = none) :
    PushOutcome w false w' :=
  pushOutcome_of_none h.clock h.beyond (by rw [h.shell, hpushed])

theorem Cloned.pushOutcome {w w' : World} (h : Cloned w w') (hpushed : w.shell.pushed = none) :
    PushOutcome w false w' :=
  pushOutcome_of_none h.clock h.beyond (h.pushed.trans hpushed)

def afterPush (t : String) (w : World) : World :=
  { issue t w with
    disk := w.disk.removeTree cloneDirectory
    shell := { (issue t w).shell with pushed := some (w.disk.textsBelow w.shell.clone) } }

theorem Cloned.pushOutcome_afterPush {w w' : World} (h : Cloned w w') (hnodup : w.disk.keys.Nodup)
    (t : String) : PushOutcome w true (afterPush t w') := by
  have hremoved : Disk.Beyond cloneNames w'.disk (w'.disk.removeTree cloneDirectory) := by
    rw [cloneDirectory_eq]
    exact beyond_removeTree isName_of_mem_cloneNames w'.disk
  refine ⟨h.clock, h.beyond.trans isName_of_mem_cloneNames cloneNames_ne_nil hremoved, rfl,
    fun files hfiles name hname => ?_⟩
  have hkey : key w'.shell.clone = ofNames cloneNames := by
    rw [h.clone, cloneDirectory_eq, key_ofNames isName_of_mem_cloneNames]
  cases hfiles
  ext t
  rw [get?_textsBelow (h.beyond.nodup hnodup), hkey]
  refine (h.files name hname (.text t)).trans ⟨?_, fun ht => ⟨t, rfl, ht⟩⟩
  rintro ⟨t', heq, ht'⟩
  cases heq
  exact ht'

variable {s : Settings} {l : Ledger} {k : Counters} {w : World}

theorem publish_eq : publish = (makeClone >>= fun _ => option "github_repo" >>= fun r =>
    liftM r.display >>= fun r => liftM (Job.command ("git clone " ++ r ++ " " ++ cloneDirectory)) >>= fun _ =>
    updateClone >>= fun _ => pushClone cloneDirectory >>= fun _ =>
    Task.job (modify fun w => { w with disk := w.disk.removeTree cloneDirectory }) >>= fun _ =>
    pure true : Task Collective Bool).orElse fun _ => pure false := by
  simp only [publish, makeClone, updateClone, bind_assoc]

theorem perform_clone (f : Unit → Task Collective Bool) (w : World) : (option "github_repo" >>= fun r =>
    liftM r.display >>= fun r => liftM (Job.command ("git clone " ++ r ++ " " ++ cloneDirectory)) >>= f).perform
      (⟨s.options, l.memory, k⟩, w) =
        (liftM (Job.command cloneCommand) >>= f).perform (⟨s.options, l.memory, k⟩, w) := by
  have hcommand : "git clone " ++ "https://github.com/Zrald1/gzc.git" ++ " " ++ cloneDirectory =
      cloneCommand := by decide
  rw [← hcommand]
  rfl

/-- A push in a new directory leaves the collective memory as it is, whether it succeeds or not. -/
theorem perform_publish (hpushed : w.shell.pushed = none)
    (hsecret : ∀ t, w.shell.token = some t → ' ' ∉ t.toList) (hrepository : IsRepository w.shell.cloned)
    (hfresh : IsFresh w.disk) (hnodup : w.disk.keys.Nodup) :
    ∃ b w', publish.perform (⟨s.options, l.memory, k⟩, w) = (.ok b, (⟨s.options, l.memory, k⟩, w')) ∧
      PushOutcome w b w' := by
  rw [publish_eq, perform_orElse]
  obtain ⟨r, w₁, hmade, hsteady⟩ := bides_makeClone ⟨s.options, l.memory, k⟩ w
  cases r with
  | error f =>
    rw [bind_of_error hmade]
    exact ⟨false, w₁, rfl, hsteady.pushOutcome hpushed⟩
  | ok u =>
    rw [bind_of_ok hmade, perform_clone]
    have hclone := perform_cloneCommand w₁
    cases hfails : w₁.shell.fails cloneCommand with
    | true =>
      rw [hfails, if_pos rfl] at hclone
      have hlift : (liftM (Job.command cloneCommand) : Task Collective Unit).perform
          (⟨s.options, l.memory, k⟩, w₁) = (.error (.commandFailed cloneCommand 1),
            (⟨s.options, l.memory, k⟩, issue cloneCommand w₁)) := by rw [Task.perform_lift, hclone]
      rw [bind_of_error hlift]
      exact ⟨false, _, rfl, (hsteady.trans (steady_issue cloneCommand w₁)).pushOutcome hpushed⟩
    | false =>
      rw [hfails, if_neg (by simp)] at hclone
      have hcloned := cloned_of_command hsteady hrepository hfresh
      rw [Task.bind_lift hclone]
      generalize ({ issue cloneCommand w₁ with
        disk := placeAll cloneDirectory w₁.shell.cloned w₁.disk
        shell := { (issue cloneCommand w₁).shell with clone := cloneDirectory } } : World) = w₂ at hcloned ⊢
      obtain ⟨r, w₃, hupdated, hsteady'⟩ := bides_updateClone s l k w₂
      have hcloned₃ := hcloned.steady hsteady'
      cases r with
      | error f =>
        rw [bind_of_error hupdated]
        exact ⟨false, w₃, rfl, hcloned₃.pushOutcome hpushed⟩
      | ok u =>
        obtain ⟨t, hnoClone, hpush, hsame⟩ :=
          perform_pushClone s l k (w := w₃) fun t ht => hsecret t (hcloned₃.token ▸ ht)
        have hpushing := perform_command t w₃
        rw [hnoClone, hpush] at hpushing
        rw [bind_of_ok hupdated]
        cases hfails' : w₃.shell.fails t with
        | true =>
          rw [hfails', if_pos rfl] at hpushing
          rw [Task.perform_lift, hpushing] at hsame
          rw [bind_of_error hsame]
          exact ⟨false, _, rfl, (hcloned₃.steady (steady_issue t w₃)).pushOutcome hpushed⟩
        | false =>
          simp only [hfails', Bool.false_eq_true, if_false, if_true] at hpushing
          rw [Task.perform_lift, hpushing] at hsame
          rw [bind_of_ok hsame]
          exact ⟨true, afterPush t w₃, rfl, hcloned₃.pushOutcome_afterPush hnodup t⟩

end GzLang.Collective
