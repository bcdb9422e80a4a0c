import GzLang.Proofs.Folder
import GzLang.Proofs.Tables

/-!
# Plain paths

A plain path is names joined by slashes (`ofNames`). It is its own key, and its directory is the path of
all names but the last (`parent_ofNames`). Making the directories on a plain path only adds directories
on the way, each with all those before it (`Grown`); if no file is in the way (`Way`), all of them are
there afterwards (`perform_makeDirectories_of_way`).
-/

namespace GzLang.Disk

open GzLang.Action List Table

variable {ns : List String} {d : Disk}

def ofNames (ns : List String) : String := String.intercalate "/" ns

theorem ofNames_append {ms ns : List String} (hms : ms ≠ []) (hns : ns ≠ []) :
    ofNames (ms ++ ns) = ofNames ms ++ "/" ++ ofNames ns :=
  String.intercalate_append_of_ne_nil hms hns

theorem ofNames_concat (hns : ns ≠ []) (n : String) : ofNames (ns ++ [n]) = ofNames ns ++ "/" ++ n := by
  rw [ofNames_append hns (cons_ne_nil _ _), ofNames, ofNames, String.intercalate_singleton]

theorem toList_ofNames_append {ms ns : List String} (hms : ms ≠ []) (hns : ns ≠ []) :
    (ofNames (ms ++ ns)).toList = (ofNames ms).toList ++ '/' :: (ofNames ns).toList := by
  rw [ofNames_append hms hns]
  simp

theorem toList_ofNames_cons (n : String) (hns : ns ≠ []) :
    (ofNames (n :: ns)).toList = n.toList ++ '/' :: (ofNames ns).toList := by
  rw [show n :: ns = [n] ++ ns from rfl, toList_ofNames_append (cons_ne_nil _ _) hns, ofNames,
    String.intercalate_singleton]

section

variable {ns : List String} (h : ∀ n ∈ ns, IsName n)

include h

theorem splitAll_ofNames (hne : ns ≠ []) : Text.splitAll ['/'] (ofNames ns).toList = ns.map String.toList := by
  induction ns with
  | nil => exact absurd rfl hne
  | cons n ns ih =>
    rw [forall_mem_cons] at h
    by_cases hns : ns = []
    · rw [hns, ofNames, String.intercalate_singleton, Text.splitAll_of_not_mem h.1.slash]
      rfl
    · rw [toList_ofNames_cons n hns, Text.splitAll_append h.1.slash, ih h.2 hns]
      rfl

theorem foldl_descend (acc : List String) : (ns.map String.toList).foldl descend acc = ns.reverse ++ acc := by
  induction ns generalizing acc with
  | nil => rfl
  | cons n ns ih =>
    rw [forall_mem_cons] at h
    rw [map_cons, foldl_cons, h.1.descend, ih h.2, reverse_cons, append_assoc]
    rfl

theorem names_ofNames : names (ofNames ns) = ns := by
  by_cases hne : ns = []
  · rw [hne, ofNames, String.intercalate_nil, names_empty]
  · rw [names_eq, splitAll_ofNames h hne, foldl_descend h, append_nil, reverse_reverse]

theorem key_ofNames : key (ofNames ns) = ofNames ns := by
  rw [key_of_names, names_ofNames h]
  rfl

theorem ofNames_ne_empty (hne : ns ≠ []) : ofNames ns ≠ "" := by
  intro hempty
  have hnames := names_ofNames h
  rw [hempty, names_empty] at hnames
  exact hne hnames.symm

theorem node?_ofNames (d : Disk) (hne : ns ≠ []) : node? d (ofNames ns) = get? d (ofNames ns) := by
  have hempty : (ofNames ns).isEmpty = false := by simpa using ofNames_ne_empty h hne
  simp only [node?, hempty, key_ofNames h, Bool.false_eq_true, if_false]

theorem dropWhile_slash_ofNames : (ofNames ns).toList.reverse.dropWhile (· = '/') = (ofNames ns).toList.reverse := by
  rcases eq_nil_or_concat' ns with rfl | ⟨ms, m, rfl⟩
  · rfl
  · have hm : IsName m := h m (by simp)
    have hlast : ∃ rest, (ofNames (ms ++ [m])).toList.reverse = m.toList.reverse ++ rest := by
      by_cases hms : ms = []
      · refine ⟨[], ?_⟩
        rw [hms, nil_append, ofNames, String.intercalate_singleton, append_nil]
      · refine ⟨'/' :: (ofNames ms).toList.reverse, ?_⟩
        rw [toList_ofNames_append hms (cons_ne_nil _ _), ofNames, ofNames,
          String.intercalate_singleton, reverse_append, reverse_cons, append_assoc]
        rfl
    obtain ⟨rest, hrest⟩ := hlast
    obtain ⟨c, cs, hc⟩ : ∃ c cs, m.toList.reverse = c :: cs := exists_cons_of_ne_nil (by simpa using hm.ne_empty)
    have hslash : c ≠ '/' := by
      rintro rfl
      exact hm.slash (mem_reverse.1 (by simp [hc]))
    rw [hrest, hc, cons_append, dropWhile_cons_of_neg (by simpa using hslash)]

end

theorem ofNames_inj {ms ns : List String} (hms : ∀ n ∈ ms, IsName n) (hns : ∀ n ∈ ns, IsName n)
    (h : ofNames ms = ofNames ns) : ms = ns := by
  rw [← names_ofNames hms, h, names_ofNames hns]

theorem length_ofNames_le (h : ∀ n ∈ ns, IsName n) : ns.length ≤ (ofNames ns).length := by
  induction ns with
  | nil => exact Nat.zero_le _
  | cons n ns ih =>
    rw [forall_mem_cons] at h
    have hpos : 0 < n.length := by
      rw [← String.length_toList]
      exact length_pos_of_ne_nil (by simpa using h.1.ne_empty)
    by_cases hns : ns = []
    · rw [hns, ofNames, String.intercalate_singleton]
      exact hpos
    · have hrest := ih h.2
      rw [← singleton_append, ofNames_append (cons_ne_nil _ _) hns, String.length_append,
        String.length_append, length_append]
      simp only [ofNames, String.intercalate_singleton, length_singleton] at hrest ⊢
      omega

section

variable {ns : List String} {n : String}

theorem reverse_toList_ofNames_concat (hns : ns ≠ []) :
    (ofNames (ns ++ [n])).toList.reverse = n.toList.reverse ++ '/' :: (ofNames ns).toList.reverse := by
  rw [ofNames_concat hns]
  simp

theorem ne_slash_of_mem (h : '/' ∉ n.toList) : ∀ c ∈ n.toList.reverse, decide (c ≠ '/') := by
  intro c hc
  simpa using ne_of_mem_of_not_mem (mem_reverse.1 hc) h

theorem baseName_ofNames (h : '/' ∉ n.toList) : baseName (ofNames (ns ++ [n])) = n := by
  have hfront : ∃ rest, (ofNames (ns ++ [n])).toList.reverse = n.toList.reverse ++ rest ∧
      rest.takeWhile (· ≠ '/') = [] := by
    by_cases hns : ns = []
    · exact ⟨[], by rw [hns, nil_append, ofNames, String.intercalate_singleton, append_nil], rfl⟩
    · exact ⟨_, reverse_toList_ofNames_concat hns, rfl⟩
  obtain ⟨rest, hrest, hnil⟩ := hfront
  rw [baseName, hrest, takeWhile_append_of_pos (ne_slash_of_mem h), hnil, append_nil, reverse_reverse,
    String.ofList_toList]

variable (h : ∀ m ∈ ns ++ [n], IsName m)

include h

theorem parent_ofNames : parent (ofNames (ns ++ [n])) = ofNames ns := by
  have hname := ne_slash_of_mem (h n (by simp)).slash
  by_cases hns : ns = []
  · subst hns
    have hdrop : n.toList.reverse.dropWhile (· ≠ '/') = [] := dropWhile_eq_nil_iff.2 hname
    rw [nil_append, ofNames, ofNames, String.intercalate_singleton, String.intercalate_nil, parent]
    simp only [hdrop]
    rfl
  · have hplain : ∀ m ∈ ns, IsName m := fun m hm => h m (mem_append_left _ hm)
    have hdrop : (ofNames (ns ++ [n])).toList.reverse.dropWhile (· ≠ '/') = '/' :: (ofNames ns).toList.reverse := by
      rw [reverse_toList_ofNames_concat hns, dropWhile_append_of_pos hname]
      rfl
    have hkept : ('/' :: (ofNames ns).toList.reverse).dropWhile (· = '/') = (ofNames ns).toList.reverse := by
      rw [dropWhile_cons_of_pos (by simp), dropWhile_slash_ofNames hplain]
    have hne : (ofNames ns).toList.reverse.isEmpty = false := by
      simpa using ofNames_ne_empty hplain hns
    rw [parent]
    simp only [hdrop, hkept, hne, Bool.false_eq_true, if_false, reverse_reverse, String.ofList_toList]

end

theorem join_ofNames {ms ns : List String} (hms : ∀ n ∈ ms, IsName n) (hns : ∀ n ∈ ns, IsName n)
    (hne : ms ≠ []) (hne' : ns ≠ []) : join (ofNames ms) (ofNames ns) = ofNames (ms ++ ns) := by
  obtain ⟨n, ns, rfl⟩ := exists_cons_of_ne_nil hne'
  have hn : IsName n := hns n mem_cons_self
  have hstart : Text.startsWith ['/'] (ofNames (n :: ns)).toList = false := by
    obtain ⟨c, cs, hc⟩ : ∃ c cs, n.toList = c :: cs := exists_cons_of_ne_nil (by simpa using hn.ne_empty)
    have hslash : '/' ≠ c := by
      rintro rfl
      exact hn.slash (by simp [hc])
    have hfront : ∃ rest, (ofNames (n :: ns)).toList = c :: rest := by
      by_cases hnil : ns = []
      · rw [hnil, ofNames, String.intercalate_singleton, hc]
        exact ⟨cs, rfl⟩
      · rw [toList_ofNames_cons n hnil, hc]
        exact ⟨_, rfl⟩
    obtain ⟨rest, hrest⟩ := hfront
    rw [Text.startsWith, hrest]
    simp [isPrefixOf, hslash]
  have hends : Text.endsWith ['/'] (ofNames ms).toList = false := by
    have hdrop := dropWhile_slash_ofNames hms
    rw [Text.endsWith]
    obtain ⟨c, cs, hc⟩ : ∃ c cs, (ofNames ms).toList.reverse = c :: cs :=
      exists_cons_of_ne_nil (by simpa using ofNames_ne_empty hms hne)
    have hslash : '/' ≠ c := by
      rintro rfl
      rw [hc, dropWhile_cons_of_pos (by simp)] at hdrop
      have hlength := congrArg length hdrop
      have hle := (dropWhile_sublist (fun c : Char => decide (c = '/')) (l := cs)).length_le
      rw [length_cons] at hlength
      omega
    rw [hc]
    simp [isPrefixOf, hslash]
  have hempty : (ofNames ms).isEmpty = false := by simpa using ofNames_ne_empty hms hne
  rw [join, hstart, hends, hempty, ofNames_append hne hne']
  rfl

/-! ### Directories on the way -/

theorem prefix_dropLast {ms ns : List String} (h : ms <+: ns) (hne : ms ≠ ns) : ms <+: ns.dropLast := by
  rw [dropLast_eq_take, prefix_take_iff]
  have hlength : ms.length ≠ ns.length := fun heq => hne (h.eq_of_length heq)
  have hle := h.length_le
  exact ⟨h, by omega⟩

theorem mem_ancestors_iff {path a : String} :
    a ∈ ancestors path ↔ ∃ ms ≠ [], ms <+: (names path).dropLast ∧ a = ofNames ms := by
  rw [ancestors, mem_map]
  constructor
  · rintro ⟨i, hi, rfl⟩
    rw [mem_range] at hi
    refine ⟨(names path).dropLast.take (i + 1), ?_, take_prefix _ _, rfl⟩
    intro hnil
    have hlength := congrArg length hnil
    rw [length_take, length_nil] at hlength
    omega
  · rintro ⟨ms, hne, hinit, rfl⟩
    have hpos := length_pos_of_ne_nil hne
    have hle := hinit.length_le
    refine ⟨ms.length - 1, mem_range.2 (by omega), ?_⟩
    rw [show ms.length - 1 + 1 = ms.length by omega, ← prefix_iff_eq_take.1 hinit]
    rfl

/-- A disk that has in addition directories on the way to a path, each with the nodes on the way to it. -/
structure Grown (ns : List String) (d d' : Disk) : Prop where
  added : ∀ k, get? d' k = get? d k ∨
    get? d k = none ∧ get? d' k = some .directory ∧ ∃ ms ≠ [], ms <+: ns ∧ k = ofNames ms ∧
      ∀ ms' ≠ [], ms' <+: ms → get? d' (ofNames ms') ≠ none
  nodup : d.keys.Nodup → d'.keys.Nodup

theorem Grown.refl (ns : List String) (d : Disk) : Grown ns d d := ⟨fun _ => .inl rfl, id⟩

theorem Grown.get?_of_some {d d' : Disk} (h : Grown ns d d') {k : String} {n : Node}
    (hn : get? d k = some n) : get? d' k = some n := by
  rcases h.added k with heq | ⟨hnone, -⟩
  · rw [heq, hn]
  · rw [hn] at hnone
    cases hnone

theorem Grown.get?_ne_none {d d' : Disk} (h : Grown ns d d') {k : String}
    (hn : get? d k ≠ none) : get? d' k ≠ none := by
  obtain ⟨n, hn⟩ := Option.ne_none_iff_exists'.1 hn
  rw [h.get?_of_some hn]
  simp

theorem Grown.get?_file_iff {d d' : Disk} (h : Grown ns d d') (k : String) (c : Content) :
    get? d' k = some (.file c) ↔ get? d k = some (.file c) := by
  rcases h.added k with heq | ⟨hnone, hmade, -⟩
  · rw [heq]
  · simp [hnone, hmade]

theorem Grown.trans {ms ns : List String} {d d' d'' : Disk} (h : Grown ms d d') (h' : Grown ns d' d'')
    (hms : ms <+: ns) : Grown ns d d'' := by
  refine ⟨fun k => ?_, fun hd => h'.nodup (h.nodup hd)⟩
  rcases h'.added k with heq' | ⟨hnone', hmade', hrest⟩
  · rcases h.added k with heq | ⟨hnone, hmade, ls, hls, hinit, hk, hway⟩
    · exact .inl (heq'.trans heq)
    · exact .inr ⟨hnone, heq'.trans hmade, ls, hls, hinit.trans hms, hk, fun l hl hpl =>
        h'.get?_ne_none (hway l hl hpl)⟩
  · refine .inr ⟨?_, hmade', hrest⟩
    rcases h.added k with heq | ⟨hnone, -⟩
    · rw [← heq, hnone']
    · exact hnone

theorem grown_put (hne : ns ≠ []) (hbefore : ∀ ms ≠ [], ms <+: ns → ms ≠ ns → get? d (ofNames ms) ≠ none)
    (habsent : get? d (ofNames ns) = none) :
    Grown ns d (put d (ofNames ns) .directory) := by
  refine ⟨fun k => ?_, fun hd => nodup_keys_put hd _ _⟩
  by_cases hk : ofNames ns = k
  · subst hk
    refine .inr ⟨habsent, get?_put_self .., ns, hne, prefix_rfl, rfl, fun ms hms hinit => ?_⟩
    by_cases hlast : ms = ns
    · rw [hlast, get?_put_self]
      simp
    · have hthere := hbefore ms hms hinit hlast
      have hother : ofNames ns ≠ ofNames ms := fun heq => hthere (by rw [← heq, habsent])
      rw [get?_put_of_ne d hother]
      exact hthere
  · exact .inl (get?_put_of_ne d hk _)

theorem get?_ne_none_of_reached (hns : ∀ n ∈ ns, IsName n) (hreached : obstacle? d (ofNames ns) = none) :
    ∀ ms ≠ [], ms <+: ns → ms ≠ ns → get? d (ofNames ms) ≠ none := by
  intro ms hms hinit hlast
  have hne : ns ≠ [] := fun hnil => hms (prefix_nil.1 (hnil ▸ hinit))
  have hdrop : ms <+: (names (ofNames ns)).dropLast := by
    rw [names_ofNames hns]
    exact prefix_dropLast hinit hlast
  rw [(obstacle?_eq_none (ofNames_ne_empty hns hne)).1 hreached _ (mem_ancestors_iff.2 ⟨ms, hms, hdrop, rfl⟩)]
  simp

theorem grown_makeOne {d d' : Disk} (hns : ∀ n ∈ ns, IsName n) (hne : ns ≠ [])
    (h : makeOne d (ofNames ns) = .ok d') : Grown ns d d' := by
  rw [makeOne] at h
  cases hobstacle : obstacle? d (ofNames ns) with
  | some f =>
    rw [hobstacle] at h
    cases h
  | none =>
    cases hnode : node? d (ofNames ns) with
    | some n =>
      rw [hobstacle, hnode] at h
      cases h
    | none =>
      rw [hobstacle, hnode, key_ofNames hns] at h
      cases h
      rw [node?_ofNames hns d hne] at hnode
      exact grown_put hne (get?_ne_none_of_reached hns hobstacle) hnode

def makeLast (path : String) : Action Disk Unit := do
  match makeOne (← get) path with
  | .ok d => set d
  | .error f => if hasDirectory (← get) path then pure () else throw f

/-- Make the directories on the way to a path if the last of them is not there. -/
def makeUp (fuel : Nat) (path : String) : Action Disk Unit := do
  if !(parent path).isEmpty && !(baseName path).isEmpty then
    if !has (← get) (parent path) then makeAll fuel (parent path)

theorem makeAll_succ (fuel : Nat) (path : String) :
    makeAll (fuel + 1) path = makeUp fuel path >>= fun _ => makeLast path := by
  rw [makeAll, makeUp]
  split
  · simp only [bind_assoc]
    refine bind_congr fun d => ?_
    split <;> rfl
  · rw [pure_bind]
    rfl

theorem perform_makeLast_of_ok {d d' : Disk} {path : String} (h : makeOne d path = .ok d') :
    (makeLast path).perform d = (.ok (), d') := by
  rw [makeLast, bind_get, h]
  rfl

theorem perform_makeLast_of_error {path : String} {f : Fault} (h : makeOne d path = .error f) :
    (makeLast path).perform d = if hasDirectory d path then (.ok (), d) else (.error f, d) := by
  rw [makeLast, bind_get, h]
  dsimp only
  rw [bind_get]
  split <;> rfl

section

variable {ns : List String} {n : String} (hns : ∀ m ∈ ns ++ [n], IsName m) (fuel : Nat) (d : Disk)

include hns

theorem perform_makeUp : (makeUp fuel (ofNames (ns ++ [n]))).perform d =
    if ns = [] ∨ has d (ofNames ns) then (.ok (), d) else (makeAll fuel (ofNames ns)).perform d := by
  have hplain : ∀ m ∈ ns, IsName m := fun m hm => hns m (mem_append_left _ hm)
  have hbase : (baseName (ofNames (ns ++ [n]))).isEmpty = false := by
    rw [baseName_ofNames (hns n (by simp)).slash]
    simpa using (hns n (by simp)).ne_empty
  rw [makeUp, parent_ofNames hns, hbase]
  by_cases hnil : ns = []
  · subst hnil
    rfl
  · have hempty : (ofNames ns).isEmpty = false := by simpa using ofNames_ne_empty hplain hnil
    rw [hempty]
    simp only [Bool.not_false, Bool.and_self, if_true, hnil, false_or]
    rw [bind_get]
    cases has d (ofNames ns) <;> rfl

end

theorem grown_makeLast (hns : ∀ n ∈ ns, IsName n) (hne : ns ≠ []) (d : Disk) :
    Grown ns d ((makeLast (ofNames ns)).perform d).2 := by
  cases hone : makeOne d (ofNames ns) with
  | ok d' =>
    rw [perform_makeLast_of_ok hone]
    exact grown_makeOne hns hne hone
  | error f =>
    rw [perform_makeLast_of_error hone]
    split <;> exact Grown.refl ns d

/-- What making the directories on a plain path can do to a disk, whether it ends well or not. -/
theorem grown_makeAll (hns : ∀ n ∈ ns, IsName n) (hne : ns ≠ []) (fuel : Nat)
    (d : Disk) : Grown ns d ((makeAll fuel (ofNames ns)).perform d).2 := by
  induction fuel generalizing ns d with
  | zero => exact Grown.refl ns d
  | succ fuel ih =>
    obtain ⟨ms, n, rfl⟩ := (eq_nil_or_concat' ns).resolve_left hne
    have hms : ∀ m ∈ ms, IsName m := fun m hm => hns m (mem_append_left _ hm)
    have hup : Grown ms d ((makeUp fuel (ofNames (ms ++ [n]))).perform d).2 := by
      rw [perform_makeUp hns]
      split
      · exact Grown.refl ms d
      · rename_i hnot
        exact ih hms (fun hnil => hnot (.inl hnil)) d
    rw [makeAll_succ, perform_bind]
    rcases hstep : (makeUp fuel (ofNames (ms ++ [n]))).perform d with ⟨f | u, d'⟩ <;> rw [hstep] at hup
    · exact hup.trans (Grown.refl _ _) (prefix_append ms [n])
    · exact hup.trans (grown_makeLast hns hne d') (prefix_append ms [n])

theorem grown_makeDirectories (hns : ∀ n ∈ ns, IsName n) (hne : ns ≠ []) (d : Disk) :
    Grown ns d ((makeDirectories (ofNames ns)).perform d).2 :=
  grown_makeAll hns hne _ d

/-! ### Ways without a file -/

/-- No file is on the way to a path, and nothing is below what is not there. -/
structure Way (d : Disk) (ns : List String) : Prop where
  noFile : ∀ ms ≠ [], ms <+: ns → ∀ c, get? d (ofNames ms) ≠ some (.file c)
  closed : ∀ ms ≠ [], ∀ ms', ms <+: ms' → ms' <+: ns → get? d (ofNames ms) = none →
    get? d (ofNames ms') = none

/-- All directories on the way to a path, and that at its end, are there. -/
def Open (d : Disk) (ns : List String) : Prop :=
  ∀ ms ≠ [], ms <+: ns → get? d (ofNames ms) = some .directory

section

variable {d d' : Disk} {ms ns : List String} {n : String}

theorem Open.way (h : Open d ns) : Way d ns where
  noFile ms hms hinit c := by
    rw [h ms hms hinit]
    simp
  closed ms hms ms' hle hinit hnone := by
    rw [h ms hms (hle.trans hinit)] at hnone
    cases hnone

theorem Way.take (h : Way d ns) (hinit : ms <+: ns) : Way d ms where
  noFile ls hls hle := h.noFile ls hls (hle.trans hinit)
  closed ls hls ls' hle hle' := h.closed ls hls ls' hle (hle'.trans hinit)

theorem Way.open_of_some (h : Way d ns) (hthere : get? d (ofNames ns) ≠ none) : Open d ns := by
  intro ms hms hinit
  cases hget : get? d (ofNames ms) with
  | none => exact absurd (h.closed ms hms ns hinit prefix_rfl hget) hthere
  | some n =>
    cases n with
    | file c => exact absurd hget (h.noFile ms hms hinit c)
    | directory => rfl

theorem Way.grown (h : Way d ms) (hd : Grown ns d d') (hms : ∀ n ∈ ms, IsName n)
    (hns : ∀ n ∈ ns, IsName n) : Way d' ms where
  noFile ls hls hle c := by
    rcases hd.added (ofNames ls) with heq | ⟨-, hmade, -⟩
    · rw [heq]
      exact h.noFile ls hls hle c
    · rw [hmade]
      simp
  closed ls hls ls' hle hle' hnone := by
    have hbefore : get? d (ofNames ls) = none := by
      by_contra hsome
      exact hd.get?_ne_none hsome hnone
    rcases hd.added (ofNames ls') with heq | ⟨-, -, new, -, hnew, hk, hway⟩
    · rw [heq]
      exact h.closed ls hls ls' hle hle' hbefore
    · -- a directory that was added has nodes on the way to it
      have hsame : ls' = new := ofNames_inj (fun m hm => hms m (hle'.subset hm)) (fun m hm => hns m (hnew.subset hm)) hk
      exact absurd hnone (hway ls hls (hsame ▸ hle))

theorem Open.grown (h : Open d ms) (hd : Grown ns d d') : Open d' ms := fun ls hls hle => hd.get?_of_some (h ls hls hle)

theorem Open.obstacle?_concat (h : Open d ns) (hns : ∀ m ∈ ns ++ [n], IsName m) :
    obstacle? d (ofNames (ns ++ [n])) = none := by
  rw [obstacle?_eq_none (ofNames_ne_empty hns (by simp))]
  intro a ha
  obtain ⟨ms, hms, hinit, rfl⟩ := mem_ancestors_iff.1 ha
  rw [names_ofNames hns, dropLast_concat] at hinit
  exact h ms hms hinit

theorem Open.concat (h : Open d ns) (hlast : get? d (ofNames (ns ++ [n])) = some .directory) : Open d (ns ++ [n]) := by
  intro ms hms hinit
  rcases prefix_concat_iff.1 hinit with rfl | hle
  · exact hlast
  · exact h ms hms hle

/-- The last directory of a path can be made if the others are there and no file has its name. -/
theorem perform_makeLast_of_open (h : Open d ns) (hway : Way d (ns ++ [n])) (hns : ∀ m ∈ ns ++ [n], IsName m) :
    ∃ d', (makeLast (ofNames (ns ++ [n]))).perform d = (.ok (), d') ∧ Open d' (ns ++ [n]) := by
  have hreached := h.obstacle?_concat hns
  have hnode := node?_ofNames hns d (by simp)
  cases hget : get? d (ofNames (ns ++ [n])) with
  | none =>
    have hone : makeOne d (ofNames (ns ++ [n])) = .ok (put d (ofNames (ns ++ [n])) .directory) := by
      rw [makeOne, hreached, hnode, hget, key_ofNames hns]
    have hgrown := grown_put (by simp) (get?_ne_none_of_reached hns hreached) hget
    exact ⟨_, perform_makeLast_of_ok hone, (h.grown hgrown).concat (get?_put_self ..)⟩
  | some node =>
    cases node with
    | file c => exact absurd hget (hway.noFile _ (by simp) prefix_rfl c)
    | directory =>
      have hone : makeOne d (ofNames (ns ++ [n])) = .error (.file .exists_ (ofNames (ns ++ [n]))) := by
        rw [makeOne, hreached, hnode, hget]
      have hthere : hasDirectory d (ofNames (ns ++ [n])) := by rw [hasDirectory, hnode, hget]
      refine ⟨d, ?_, h.concat hget⟩
      rw [perform_makeLast_of_error hone, if_pos hthere]

end

/-- If no file is in the way, the directories on a plain path can be made. -/
theorem perform_makeAll_of_way (hns : ∀ n ∈ ns, IsName n) (hne : ns ≠ []) {fuel : Nat}
    (hfuel : ns.length ≤ fuel) (hway : Way d ns) :
    ∃ d', (makeAll fuel (ofNames ns)).perform d = (.ok (), d') ∧ Open d' ns := by
  induction fuel generalizing ns d with
  | zero => exact absurd (length_eq_zero_iff.1 (Nat.le_zero.1 hfuel)) hne
  | succ fuel ih =>
    obtain ⟨ms, n, rfl⟩ := (eq_nil_or_concat' ns).resolve_left hne
    have hms : ∀ m ∈ ms, IsName m := fun m hm => hns m (mem_append_left _ hm)
    have hwayUp : Way d ms := hway.take (prefix_append ms [n])
    -- the directories before the last one are there after the first half
    have hup : ∃ d', (makeUp fuel (ofNames (ms ++ [n]))).perform d = (.ok (), d') ∧ Open d' ms ∧ Grown ms d d' := by
      rw [perform_makeUp hns]
      by_cases hnil : ms = []
      · refine ⟨d, by rw [if_pos (.inl hnil)], ?_, Grown.refl ms d⟩
        intro ls hls hinit
        rw [hnil] at hinit
        exact absurd (prefix_nil.1 hinit) hls
      · cases hhas : has d (ofNames ms) with
        | true =>
          refine ⟨d, by simp, hwayUp.open_of_some ?_, Grown.refl ms d⟩
          rw [has, node?_ofNames hms d hnil] at hhas
          exact Option.ne_none_iff_isSome.2 hhas
        | false =>
          obtain ⟨d', hmade, hopen⟩ := ih hms hnil (by simpa using hfuel) hwayUp
          have hgrown := grown_makeAll hms hnil fuel d
          rw [hmade] at hgrown
          exact ⟨d', by simpa [hnil] using hmade, hopen, hgrown⟩
    obtain ⟨d', hupOk, hopen, hgrown⟩ := hup
    rw [makeAll_succ, bind_of_ok hupOk]
    exact perform_makeLast_of_open hopen (hway.grown hgrown hns hms) hns

theorem perform_makeDirectories_of_way (hns : ∀ n ∈ ns, IsName n) (hne : ns ≠ []) (hway : Way d ns) :
    ∃ d', (makeDirectories (ofNames ns)).perform d = (.ok (), d') ∧ Open d' ns ∧ Grown ns d d' := by
  have hfuel : ns.length ≤ (ofNames ns).length + 1 := Nat.le_succ_of_le (length_ofNames_le hns)
  obtain ⟨d', hmade, hopen⟩ := perform_makeAll_of_way hns hne hfuel hway
  have hgrown := grown_makeDirectories hns hne d
  rw [makeDirectories, hmade] at hgrown
  exact ⟨d', hmade, hopen, hgrown⟩

end GzLang.Disk
