import GzLang.Proofs.Path

/-!
# What lies below a directory

`Beyond` says that a disk differs from another only below a directory, and in directories on the way to
it. Everything that is done in a directory of its own is of that kind, so that files elsewhere stay as
they are (`Beyond.get?_eq`). The files that are placed in an empty directory are the ones that are found
below it (`placeAll_file_iff`, `get?_textsBelow`).
-/

namespace GzLang.Disk

open List

variable {d : Disk} {k : String}

def Below (k j : String) : Prop := j = k ∨ (k ++ "/").toList <+: j.toList

instance (k j : String) : Decidable (Below k j) := inferInstanceAs (Decidable (_ ∨ _))

theorem below_child (k name : String) : Below k (k ++ "/" ++ name) := .inr (by simp)

theorem below_ofNames_append {cl : List String} (hne : cl ≠ []) (ns : List String) :
    Below (ofNames cl) (ofNames (cl ++ ns)) := by
  by_cases hns : ns = []
  · exact .inl (by rw [hns, append_nil])
  · rw [ofNames_append hne hns]
    exact below_child _ _

/-- A plain path is below a directory if it starts with the names of the directory. -/
theorem prefix_of_below {cl ns : List String} (hcl : ∀ n ∈ cl, IsName n) (hne : cl ≠ [])
    (hns : ∀ n ∈ ns, IsName n) (h : Below (ofNames cl) (ofNames ns)) : cl <+: ns := by
  rcases h with heq | ⟨rest, hrest⟩
  · rw [ofNames_inj hns hcl heq]
  · have hne' : ns ≠ [] := by
      rintro rfl
      simp [ofNames] at hrest
    have hsplit := splitAll_ofNames hns hne'
    rw [← hrest, String.toList_append, append_assoc] at hsplit
    have hslash : "/".toList ++ rest = '/' :: rest := by simp
    rw [hslash, Text.splitAll_append_cons, splitAll_ofNames hcl hne] at hsplit
    have hinit : cl.map String.toList <+: ns.map String.toList := ⟨_, hsplit⟩
    rw [prefix_map_iff_of_injective (fun a b hab => String.toList_inj.1 hab)] at hinit
    exact hinit

/-! ### Removing -/

theorem get?_filter (d : Disk) (p : String → Bool) (k : String) :
    Table.get? (d.filter fun e => p e.1) k = if p k then Table.get? d k else none := by
  induction d with
  | nil => simp
  | cons e d ih =>
    by_cases hp : p e.1
    · rw [filter_cons_of_pos (by simpa using hp), Table.get?, Table.get?, ih]
      by_cases hk : e.1 = k
      · simp [hk, hk ▸ hp]
      · simp [hk]
    · rw [filter_cons_of_neg (by simpa using hp), ih, Table.get?]
      by_cases hk : e.1 = k
      · simp [hk ▸ hp]
      · simp [hk]

theorem get?_removeTree (d : Disk) (path k : String) :
    Table.get? (removeTree d path) k = if Below (key path) k then none else Table.get? d k := by
  have hfilter := get?_filter d (fun j => j ≠ key path && !(key path ++ "/").toList.isPrefixOf j.toList) k
  rw [removeTree, hfilter]
  have hp : (k ≠ key path && !(key path ++ "/").toList.isPrefixOf k.toList) ↔ ¬ Below (key path) k := by
    rw [Below, not_or, ← isPrefixOf_iff_prefix, Bool.and_eq_true, decide_eq_true_iff,
      Bool.not_eq_true', Bool.not_eq_true]
  by_cases hbelow : Below (key path) k
  · rw [if_pos hbelow, if_neg (fun h => hp.1 h hbelow)]
  · rw [if_neg hbelow, if_pos (hp.2 hbelow)]

theorem nodup_removeTree (h : d.keys.Nodup) (path : String) : (removeTree d path).keys.Nodup :=
  h.sublist (filter_sublist.map Prod.fst)

/-! ### What is done below a directory -/

/-- A disk that differs from another only below a directory, and in directories on the way to it, each
with the nodes on the way to it. -/
structure Beyond (cl : List String) (d d' : Disk) : Prop where
  outside : ∀ k, ¬ Below (ofNames cl) k → Table.get? d' k = Table.get? d k ∨
    Table.get? d k = none ∧ Table.get? d' k = some .directory ∧
      ∃ ms ≠ [], ms <+: cl.dropLast ∧ k = ofNames ms ∧
        ∀ ms' ≠ [], ms' <+: ms → Table.get? d' (ofNames ms') ≠ none
  nodup : d.keys.Nodup → d'.keys.Nodup

section

variable {cl ms ns : List String} {d d' d'' : Disk}

theorem Beyond.refl (cl : List String) (d : Disk) : Beyond cl d d := ⟨fun _ _ => .inl rfl, id⟩

theorem beyond_put (hk : Below (ofNames cl) k) (d : Disk) (n : Node) : Beyond cl d (Table.put d k n) := by
  refine ⟨fun j hj => .inl (Table.get?_put_of_ne d ?_ n), fun hd => Table.nodup_keys_put hd _ _⟩
  rintro rfl
  exact hj hk

/-- Making the directories on the way to a directory changes nothing beyond that. -/
theorem Grown.beyond_dropLast (h : Grown cl.dropLast d d') : Beyond cl d d' := ⟨fun k _ => h.added k, h.nodup⟩

variable (hcl : ∀ n ∈ cl, IsName n)

include hcl

theorem beyond_removeTree (d : Disk) : Beyond cl d (removeTree d (ofNames cl)) := by
  refine ⟨fun k hk => .inl ?_, fun hd => nodup_removeTree hd _⟩
  rw [get?_removeTree, key_ofNames hcl, if_neg hk]

variable (hne : cl ≠ [])

include hne

theorem not_below_init (hms : ms <+: cl.dropLast) : ¬ Below (ofNames cl) (ofNames ms) := by
  intro hbelow
  have hplain : ∀ n ∈ ms, IsName n := fun n hn => hcl n (mem_of_mem_dropLast (hms.subset hn))
  have hle := (prefix_of_below hcl hne hplain hbelow).length_le
  have hlength := hms.length_le
  have hpos := length_pos_of_ne_nil hne
  rw [length_dropLast] at hlength
  omega

theorem Beyond.trans (h : Beyond cl d d') (h' : Beyond cl d' d'') : Beyond cl d d'' := by
  refine ⟨fun k hk => ?_, fun hd => h'.nodup (h.nodup hd)⟩
  rcases h'.outside k hk with heq' | ⟨hnone', hmade', hrest⟩
  · rcases h.outside k hk with heq | ⟨hnone, hmade, ls, hls, hinit, hkey, hway⟩
    · exact .inl (heq'.trans heq)
    · refine .inr ⟨hnone, heq'.trans hmade, ls, hls, hinit, hkey, fun l hl hle => ?_⟩
      rcases h'.outside _ (not_below_init hcl hne (hle.trans hinit)) with heq | ⟨-, hdir, -⟩
      · rw [heq]
        exact hway l hl hle
      · rw [hdir]
        simp
  · refine .inr ⟨?_, hmade', hrest⟩
    rcases h.outside k hk with heq | ⟨hnone, -⟩
    · rw [← heq, hnone']
    · exact hnone

omit hcl in
/-- Making a directory that lies below another changes nothing beyond that. -/
theorem Grown.beyond (h : Grown (cl ++ ns) d d') : Beyond cl d d' := by
  refine ⟨fun k hk => ?_, h.nodup⟩
  rcases h.added k with heq | ⟨hnone, hmade, ms, hms, hinit, hkey, hway⟩
  · exact .inl heq
  · refine .inr ⟨hnone, hmade, ms, hms, ?_, hkey, hway⟩
    have hbelow : cl <+: ms → False := by
      rintro ⟨rest, rfl⟩
      exact hk (hkey ▸ below_ofNames_append hne rest)
    rcases prefix_or_prefix_of_prefix hinit (prefix_append cl ns) with hle | hle
    · exact prefix_dropLast hle fun heq => hbelow (heq ▸ prefix_rfl)
    · exact absurd hle hbelow

variable (hns : ∀ n ∈ ns, IsName n)

include hns

/-- What does not lie below a directory nor on the way to it stays as it is. -/
theorem Beyond.get?_eq (h : Beyond cl d d') (hnot : ¬ cl <+: ns) (hnot' : ¬ ns <+: cl) :
    Table.get? d' (ofNames ns) = Table.get? d (ofNames ns) := by
  rcases h.outside (ofNames ns) (fun hbelow => hnot (prefix_of_below hcl hne hns hbelow)) with
    heq | ⟨-, -, ms, -, hinit, hkey, -⟩
  · exact heq
  · have hplain : ∀ n ∈ ms, IsName n := fun n hn =>
      hcl n (mem_of_mem_dropLast (hinit.subset hn))
    rw [ofNames_inj hns hplain hkey] at hnot'
    exact absurd (hinit.trans (List.dropLast_prefix cl)) hnot'

theorem Open.beyond (h : Open d ns) (hd : Beyond cl d d') (hnot : ¬ cl <+: ns) : Open d' ns := by
  intro ms hms hle
  have hplain : ∀ n ∈ ms, IsName n := fun n hn => hns n (hle.subset hn)
  rcases hd.outside (ofNames ms) (fun hbelow =>
    hnot ((prefix_of_below hcl hne hplain hbelow).trans hle)) with heq | ⟨-, hdir, -⟩
  · rw [heq]
    exact h ms hms hle
  · exact hdir

theorem Way.beyond (h : Way d ns) (hd : Beyond cl d d') (hnot : ¬ cl <+: ns) : Way d' ns := by
  have hout {ms : List String} (hle : ms <+: ns) : ¬ Below (ofNames cl) (ofNames ms) := fun hbelow =>
    hnot ((prefix_of_below hcl hne (fun n hn => hns n (hle.subset hn)) hbelow).trans hle)
  refine ⟨fun ms hms hle c => ?_, fun ms hms ms' hle hle' hnone => ?_⟩
  · rcases hd.outside _ (hout hle) with heq | ⟨-, hdir, -⟩
    · rw [heq]
      exact h.noFile ms hms hle c
    · rw [hdir]
      simp
  · have hbefore : Table.get? d (ofNames ms) = none := by
      rcases hd.outside _ (hout (hle.trans hle')) with heq | ⟨habsent, -⟩
      · rw [← heq, hnone]
      · exact habsent
    rcases hd.outside _ (hout hle') with heq | ⟨-, -, new, -, hnew, hkey, hway⟩
    · rw [heq]
      exact h.closed ms hms ms' hle hle' hbefore
    · have hsame : ms' = new := ofNames_inj (fun n hn => hns n (hle'.subset hn))
        (fun n hn => hcl n (mem_of_mem_dropLast (hnew.subset hn))) hkey
      exact absurd hnone (hway ms hms (hsame ▸ hle))

end

/-! ### Placing -/

def supply (d : Disk) (k : String) : Disk := if Table.has d k then d else Table.put d k .directory

theorem place_eq (d : Disk) (path : String) (n : Node) :
    place d path n = Table.put ((ancestors path).foldl supply d) (key path) n := rfl

/-- The keys of the directories on a path, that at its end included. -/
def stepsTo (ns : List String) : List String := (range ns.length).map fun i => ofNames (ns.take (i + 1))

theorem ancestors_eq (path : String) : ancestors path = stepsTo (names path).dropLast := rfl

theorem stepsTo_concat (ns : List String) (n : String) : stepsTo (ns ++ [n]) = stepsTo ns ++ [ofNames (ns ++ [n])] := by
  rw [stepsTo, length_append, length_singleton, range_succ, map_append, map_singleton, take_of_length_le (by simp)]
  refine congrArg (· ++ [ofNames (ns ++ [n])]) (map_congr_left fun i hi => ?_)
  rw [mem_range] at hi
  rw [take_append_of_le_length (by omega)]

/-- Directories that are not there are added after those before them. -/
theorem grown_supply (ns : List String) (d : Disk) : Grown ns d ((stepsTo ns).foldl supply d) ∧
      ∀ ms ≠ [], ms <+: ns → Table.get? ((stepsTo ns).foldl supply d) (ofNames ms) ≠ none := by
  induction ns using reverseRecOn with
  | nil => exact ⟨Grown.refl [] d, fun ms hms hle => absurd (prefix_nil.1 hle) hms⟩
  | append_singleton ns n ih =>
    obtain ⟨hgrown, hthere⟩ := ih
    rw [stepsTo_concat, foldl_append]
    generalize (stepsTo ns).foldl supply d = d₁ at hgrown hthere
    have hbefore : ∀ ms ≠ [], ms <+: ns ++ [n] → ms ≠ ns ++ [n] → Table.get? d₁ (ofNames ms) ≠ none :=
      fun ms hms hle hlast => hthere ms hms ((prefix_concat_iff.1 hle).resolve_left hlast)
    show Grown (ns ++ [n]) d (supply d₁ (ofNames (ns ++ [n]))) ∧ ∀ ms ≠ [], ms <+: ns ++ [n] →
      Table.get? (supply d₁ (ofNames (ns ++ [n]))) (ofNames ms) ≠ none
    rw [supply]
    cases hhas : Table.has d₁ (ofNames (ns ++ [n])) with
    | true =>
      rw [if_pos rfl]
      refine ⟨hgrown.trans (Grown.refl _ d₁) (prefix_append ns [n]), fun ms hms hle => ?_⟩
      by_cases hlast : ms = ns ++ [n]
      · rw [hlast]
        exact Option.ne_none_iff_isSome.2 hhas
      · exact hbefore ms hms hle hlast
    | false =>
      rw [if_neg (by simp)]
      have habsent : Table.get? d₁ (ofNames (ns ++ [n])) = none := by simpa [Table.has] using hhas
      have hput := grown_put (by simp) hbefore habsent
      refine ⟨hgrown.trans hput (prefix_append ns [n]), fun ms hms hle => ?_⟩
      by_cases hlast : ms = ns ++ [n]
      · rw [hlast, Table.get?_put_self]
        simp
      · exact hput.get?_ne_none (hbefore ms hms hle hlast)

section

variable {cl ns : List String} (hcl : ∀ n ∈ cl, IsName n) (hne : cl ≠ []) (hns : ∀ n ∈ ns, IsName n)
  (hne' : ns ≠ [])

include hcl hne hns hne'

theorem place_below (d : Disk) (n : Node) : ∃ d', Grown (cl ++ ns).dropLast d d' ∧
    place d (join (ofNames cl) (ofNames ns)) n = Table.put d' (ofNames cl ++ "/" ++ ofNames ns) n := by
  have hall : ∀ m ∈ cl ++ ns, IsName m := by
    intro m hm
    rcases mem_append.1 hm with h | h
    · exact hcl m h
    · exact hns m h
  refine ⟨_, (grown_supply (cl ++ ns).dropLast d).1, ?_⟩
  rw [place_eq, join_ofNames hcl hns hne hne', ancestors_eq, names_ofNames hall, key_ofNames hall,
    ofNames_append hne hne']

theorem beyond_place (d : Disk) (n : Node) : Beyond cl d (place d (join (ofNames cl) (ofNames ns)) n) := by
  obtain ⟨d', hgrown, heq⟩ := place_below hcl hne hns hne' d n
  rw [dropLast_append_of_ne_nil hne'] at hgrown
  rw [heq]
  exact (hgrown.beyond hne).trans hcl hne (beyond_put (below_child _ _) d' n)

/-- The files below the directory are the ones that were there and the one that was placed. -/
theorem place_file_iff (d : Disk) (c : Content) (k : String) (c' : Content) :
    Table.get? (place d (join (ofNames cl) (ofNames ns)) (.file c)) k = some (.file c') ↔
      if k = ofNames cl ++ "/" ++ ofNames ns then c' = c else Table.get? d k = some (.file c') := by
  obtain ⟨d', hgrown, heq⟩ := place_below hcl hne hns hne' d (.file c)
  rw [heq]
  split
  · rename_i hk
    rw [hk, Table.get?_put_self]
    constructor
    · intro h
      cases h
      rfl
    · rintro rfl
      rfl
  · rename_i hk
    rw [Table.get?_put_of_ne d' (Ne.symm hk), hgrown.get?_file_iff]

end

def IsPath (path : String) : Prop := ∃ ns ≠ [], (∀ n ∈ ns, IsName n) ∧ path = ofNames ns

def placeAll (directory : String) (files : Table String) (d : Disk) : Disk :=
  files.foldl (fun d e => place d (join directory e.1) (.file (.text e.2))) d

section

variable {cl : List String} (hcl : ∀ n ∈ cl, IsName n) (hne : cl ≠ []) {files : Table String}
  (hpaths : ∀ e ∈ files, IsPath e.1)

include hcl hne hpaths

theorem beyond_placeAll (d : Disk) : Beyond cl d (placeAll (ofNames cl) files d) := by
  induction files generalizing d with
  | nil => exact Beyond.refl cl d
  | cons e files ih =>
    rw [forall_mem_cons] at hpaths
    obtain ⟨ns, hns, hnames, hpath⟩ := hpaths.1
    have hplace := beyond_place hcl hne hnames hns d (.file (.text e.2))
    rw [← hpath] at hplace
    exact hplace.trans hcl hne (ih hpaths.2 _)

/-- The files below a directory are those that were placed in it and those that were there. -/
theorem placeAll_file_iff (hnodup : files.keys.Nodup) (d : Disk) (name : String) (c : Content) :
    Table.get? (placeAll (ofNames cl) files d) (ofNames cl ++ "/" ++ name) = some (.file c) ↔
      (∃ s, c = .text s ∧ files.get? name = some s) ∨
        files.get? name = none ∧ Table.get? d (ofNames cl ++ "/" ++ name) = some (.file c) := by
  induction files generalizing d with
  | nil => simp [placeAll]
  | cons e files ih =>
    rw [forall_mem_cons] at hpaths
    rw [Table.keys, map_cons, nodup_cons] at hnodup
    obtain ⟨ns, hns, hnames, hpath⟩ := hpaths.1
    have hplace := place_file_iff hcl hne hnames hns d (.text e.2) (ofNames cl ++ "/" ++ name) c
    rw [← hpath] at hplace
    show Table.get? (placeAll (ofNames cl) files (place d (join (ofNames cl) e.1) (.file (.text e.2)))) _ =
      _ ↔ _
    rw [ih hpaths.2 hnodup.2, hplace, Table.get?]
    by_cases hname : e.1 = name
    · have hother : Table.get? files name = none := by
        have hnot : ¬ Table.has files name := by
          rw [Table.has_iff_mem_keys, ← hname]
          exact hnodup.1
        simpa [Table.has] using hnot
      simp [hname, hother]
    · have hkey : ofNames cl ++ "/" ++ name ≠ ofNames cl ++ "/" ++ e.1 := by
        intro heq
        have hlists := congrArg String.toList heq
        simp only [String.toList_append] at hlists
        exact hname (String.toList_inj.1 (append_cancel_left hlists)).symm
      rw [if_neg hkey, if_neg hname]

end

/-! ### Reading -/

theorem mem_files {c : Content} : (k, c) ∈ files d ↔ (k, Node.file c) ∈ d := by
  rw [files, mem_mergeSort, mem_filterMap]
  constructor
  · rintro ⟨⟨j, n⟩, hmem, heq⟩
    cases n with
    | directory => cases heq
    | file c' =>
      cases heq
      exact hmem
  · intro hmem
    exact ⟨(k, .file c), hmem, rfl⟩

theorem isPrefixOf?_eq_some {l s t : List Char} : l.isPrefixOf? s = some t ↔ s = l ++ t := by
  induction l generalizing s with
  | nil => simp [isPrefixOf?]
  | cons c l ih =>
    cases s with
    | nil => simp [isPrefixOf?]
    | cons b s =>
      by_cases hc : c = b
      · simp [isPrefixOf?, hc, ih]
      · simp [isPrefixOf?, hc, Ne.symm hc]

theorem mem_textsBelow {path name s : String} :
    (name, s) ∈ textsBelow d path ↔ (key path ++ "/" ++ name, Node.file (.text s)) ∈ d := by
  rw [textsBelow, mem_filterMap]
  constructor
  · rintro ⟨⟨k, c⟩, hmem, heq⟩
    dsimp only at heq
    cases hrest : (key path ++ "/").toList.isPrefixOf? k.toList with
    | none =>
      rw [hrest] at heq
      cases heq
    | some rest =>
      cases c with
      | text s' =>
        rw [hrest] at heq
        cases heq
        have hk : k = key path ++ "/" ++ String.ofList rest := by
          rw [← String.toList_inj, isPrefixOf?_eq_some.1 hrest]
          simp
        rw [← hk]
        exact mem_files.1 hmem
      | bytes bs =>
        rw [hrest] at heq
        cases heq
      | rows rs =>
        rw [hrest] at heq
        cases heq
  · intro hmem
    refine ⟨(key path ++ "/" ++ name, .text s), mem_files.2 hmem, ?_⟩
    have hrest : (key path ++ "/").toList.isPrefixOf? (key path ++ "/" ++ name).toList = some name.toList :=
      isPrefixOf?_eq_some.2 (String.toList_append ..)
    dsimp only
    rw [hrest]
    simp

theorem get?_eq_some_iff {α : Type} {t : Table α} (h : ∀ k v v', (k, v) ∈ t → (k, v') ∈ t → v = v') {v : α} :
    t.get? k = some v ↔ (k, v) ∈ t := by
  refine ⟨Table.mem_of_get?_eq, fun hmem => ?_⟩
  cases hget : t.get? k with
  | some v' => rw [h k v v' hmem (Table.mem_of_get?_eq hget)]
  | none =>
    have hhas : t.has k := (Table.has_iff_mem_keys t k).2 (mem_map_of_mem hmem)
    simp [Table.has, hget] at hhas

theorem get?_textsBelow (hd : d.keys.Nodup) {path name s : String} : (textsBelow d path).get? name = some s ↔
      Table.get? d (key path ++ "/" ++ name) = some (.file (.text s)) := by
  have hunique : ∀ k v v', (k, v) ∈ textsBelow d path → (k, v') ∈ textsBelow d path → v = v' := by
    intro k v v' hv hv'
    have h := Table.get?_of_mem hd (mem_textsBelow.1 hv)
    rw [Table.get?_of_mem hd (mem_textsBelow.1 hv')] at h
    cases h
    rfl
  rw [get?_eq_some_iff hunique, mem_textsBelow]
  exact ⟨Table.get?_of_mem hd, Table.mem_of_get?_eq⟩

end GzLang.Disk
