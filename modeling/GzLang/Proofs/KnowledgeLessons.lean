import GzLang.Proofs.KnowledgeLibrary

/-!
# What a library tells of its lessons

A lesson is a piece of code that was learned. The notes of a library are those on the list of all lessons
(`Library.Tells`): a note names the first five lessons that show what it is about, and its number is a
total over all that do. Every hash in the library is that of a lesson, and every lesson has a snippet under
its hash, so no reference is left open. Learning adds one lesson at the end (`Tells.learn`).
-/

namespace GzLang.Transfer

open List Table Value

/-! ### What code shows -/

def Topic.shows : Topic → String → String → Bool
  | .concept, name, code => (conceptsOf code).has name
  | .algorithm, name, code => name != unknownAlgorithm && algorithmOf code == name

/-- What a piece of code counts for: a concept is counted at each of its places, an algorithm once. -/
def Topic.weight : Topic → String → String → Nat
  | .concept, name, code => ((conceptsOf code).get? name).getD 0
  | .algorithm, _, _ => 1

def Topic.among (t : Topic) (name : String) (codes : List String) : List String := codes.filter (t.shows name)

/-- What the lessons that show something count for together. -/
def Topic.total : Topic → String → List String → Nat
  | .concept, name, codes =>
    ((Topic.concept.among name codes).map fun code => ((conceptsOf code).get? name).getD 0).sum
  | .algorithm, name, codes => (Topic.algorithm.among name codes).length

def Topic.note? (digest : String → String) (t : Topic) (name : String) (codes : List String) : Option Note :=
  if t.among name codes = [] then none
  else some ⟨((t.among name codes).map digest).take 5, t.total name codes⟩

theorem Topic.total_eq (t : Topic) (name : String) (codes : List String) :
    t.total name codes = ((t.among name codes).map (t.weight name)).sum := by
  cases t with
  | concept => rfl
  | algorithm =>
    have hones : (Topic.algorithm.among name codes).map (Topic.algorithm.weight name) =
        replicate (Topic.algorithm.among name codes).length 1 := map_const ..
    rw [Topic.total, hones, sum_replicate, smul_eq_mul, mul_one]

section Lessons

variable (digest : String → String) (t : Topic) (name : String) (codes : List String) (code : String)

theorem Topic.among_concat : t.among name (codes ++ [code]) =
    t.among name codes ++ if t.shows name code then [code] else [] := by
  rw [Topic.among, filter_append, filter_singleton]
  cases t.shows name code <;> rfl

theorem Topic.total_concat_le : t.total name codes ≤ t.total name (codes ++ [code]) := by
  rw [Topic.total_eq, Topic.total_eq, Topic.among_concat, map_append, sum_append]
  exact Nat.le_add_right ..

variable {t name codes code}

theorem Topic.weight_le_total (hcode : code ∈ codes) (hshows : t.shows name code) :
    t.weight name code ≤ t.total name codes := by
  rw [Topic.total_eq]
  exact le_sum_of_mem (mem_map_of_mem (mem_filter.2 ⟨hcode, hshows⟩))

theorem Topic.note?_concat_of_not (h : t.shows name code = false) :
    t.note? digest name (codes ++ [code]) = t.note? digest name codes := by
  rw [Topic.note?, Topic.note?, Topic.total_eq, Topic.total_eq, Topic.among_concat, h]
  simp

theorem Topic.note?_concat (h : t.shows name code) : t.note? digest name (codes ++ [code]) =
      some (((t.note? digest name codes).getD {}).add (digest code) (t.weight name code)) := by
  have hamong : t.among name (codes ++ [code]) = t.among name codes ++ [code] := by
    rw [Topic.among_concat, h, if_pos rfl]
  rw [Topic.note?, Topic.note?, Topic.total_eq, Topic.total_eq, hamong, if_neg (by simp)]
  cases t.among name codes with
  | nil => simp [Note.add]
  | cons first rest =>
    rw [if_neg (cons_ne_nil first rest), Option.getD_some, Note.add]
    congr 2
    · -- the list of examples is short as long as all lessons so far are in it
      by_cases hfew : (first :: rest).length < 5
      · have htake : ((first :: rest).map digest).take 5 = (first :: rest).map digest :=
          take_of_length_le (by rw [length_map]; omega)
        rw [htake, length_map, if_pos hfew, map_append, map_singleton]
        exact take_of_length_le (by rw [length_append, length_map]; exact hfew)
      · have hfull : ¬ (((first :: rest).map digest).take 5).length < 5 := by
          rw [length_take, length_map]
          omega
        rw [if_neg hfull, map_append, take_append_of_le_length (by rw [length_map]; omega)]
    · rw [map_append, sum_append, map_singleton, sum_singleton]

end Lessons

/-! ### The concepts of a piece of code -/

theorem keys_conceptsOf_sublist (code : String) : (conceptsOf code).keys.Sublist (concepts.map Concept.name) := by
  rw [conceptsOf, Table.keys]
  induction concepts with
  | nil => exact .slnil
  | cons c cs ih =>
    rw [filterMap_cons, map_cons]
    generalize c.count code = n
    cases n with
    | zero => exact ih.cons _
    | succ n => exact ih.cons_cons _

theorem nodup_conceptsOf (code : String) : (conceptsOf code).keys.Nodup :=
  (keys_conceptsOf_sublist code).nodup (by decide)

theorem countsValue_eq (counts : Table Nat) : countsValue counts = .dict (counts.map fun e => (e.1, .int e.2)) := rfl

theorem Topic.shows_concept {name code : String} {n : Nat} (h : (conceptsOf code).get? name = some n) :
    Topic.concept.shows name code ∧ Topic.concept.weight name code = n := by
  rw [Topic.shows, Topic.weight, Table.has, h]
  exact ⟨rfl, rfl⟩

/-! ### Notes after a lesson -/

namespace Library

variable {b : Library} {hash : String}
variable {t t' : Topic} {P : Library → Prop} {s : Snippet}

theorem get?_note_self (b : Library) (t : Topic) (entry hash : String) (count : Nat) :
    ((b.note t entry hash count).notes t).get? entry = some ((((b.notes t).get? entry).getD {}).add hash count) := by
  rw [note, notes_withNotes, get?_put_self]

theorem get?_note_of_ne {entry name : String} (h : entry ≠ name) (hash : String) (count : Nat) :
    ((b.note t entry hash count).notes t).get? name = (b.notes t).get? name := by
  rw [note, notes_withNotes, get?_put_of_ne _ h]

theorem notes_note_of_ne (h : t' ≠ t) (entry hash : String) (count : Nat) :
    (b.note t entry hash count).notes t' = b.notes t' :=
  Function.update_of_ne h ..

theorem nodup_note (h : (b.notes t').keys.Nodup) (entry hash : String) (count : Nat) :
    ((b.note t entry hash count).notes t').keys.Nodup := by
  by_cases ht : t' = t
  · subst ht
    rw [note, notes_withNotes]
    exact nodup_keys_put h ..
  · rwa [notes_note_of_ne ht]

theorem noteConcepts_induction (hstep : ∀ b entry count, P b → P (b.note .concept entry hash count))
    (hb : P b) (counts : Table Nat) : P (b.noteConcepts hash counts) := by
  induction counts generalizing b with
  | nil => exact hb
  | cons e counts ih => exact ih (hstep b e.1 e.2 hb)

/-- What holds when a snippet is kept and stays true when notes are taken holds when it is learned. -/
theorem learn_induction (hstep : ∀ b t entry count, P b → P (b.note t entry hash count))
    (hkept : P (b.keep hash s)) : P (b.learn hash s) := by
  have hconcepts := noteConcepts_induction (fun b => hstep b .concept) hkept (conceptsOf s.code)
  by_cases hname : algorithmOf s.code = unknownAlgorithm
  · rw [learn_of_unknown b hname]
    exact hconcepts
  · rw [learn_of_known b hname]
    exact hstep _ .algorithm _ 1 hconcepts

theorem snippets_learn (b : Library) (hash : String) (s : Snippet) :
    (b.learn hash s).snippets = b.snippets.put hash s :=
  learn_induction (P := fun b' => b'.snippets = b.snippets.put hash s) (fun _ _ _ _ h => h) rfl

theorem transformations_learn (b : Library) (hash : String) (s : Snippet) :
    (b.learn hash s).transformations = b.transformations :=
  learn_induction (P := fun b' => b'.transformations = b.transformations) (fun _ _ _ _ h => h) rfl

theorem mem_keys_learn (b : Library) (hash : String) (s : Snippet) : hash ∈ (b.learn hash s).snippets.keys := by
  rw [snippets_learn, ← Table.has_iff_mem_keys, Table.has, Table.get?_put_self]
  rfl

theorem mem_keys_learn_of_mem {k : String} (h : k ∈ b.snippets.keys) (hash : String) (s : Snippet) :
    k ∈ (b.learn hash s).snippets.keys := by
  rw [snippets_learn, keys_put]
  split
  · exact h
  · exact mem_append_left _ h

theorem nodup_learn (h : (b.notes t).keys.Nodup) (hash : String) (s : Snippet) :
    ((b.learn hash s).notes t).keys.Nodup :=
  learn_induction (P := fun b' => (b'.notes t).keys.Nodup) (fun _ _ _ _ h => nodup_note h ..) h

theorem notes_noteConcepts_of_ne (h : t ≠ .concept) (counts : Table Nat) :
    (b.noteConcepts hash counts).notes t = b.notes t :=
  noteConcepts_induction (P := fun b' => b'.notes t = b.notes t) (fun _ _ _ hb => (notes_note_of_ne h ..).trans hb)
    rfl counts

theorem get?_noteConcepts {counts : Table Nat} (hnodup : counts.keys.Nodup) (name : String) :
    ((b.noteConcepts hash counts).notes .concept).get? name =
      (counts.get? name).elim ((b.notes .concept).get? name) fun n =>
        some ((((b.notes .concept).get? name).getD {}).add hash n) := by
  induction counts generalizing b with
  | nil => rfl
  | cons e counts ih =>
    rw [Table.keys, map_cons, nodup_cons] at hnodup
    obtain ⟨hnew, hnodup⟩ := hnodup
    have hnotes := ih (b := b.note .concept e.1 hash e.2) hnodup
    rw [noteConcepts, foldl_cons]
    rw [noteConcepts] at hnotes
    rw [hnotes, get?]
    by_cases he : e.1 = name
    · have hrest : get? counts name = none := by
        rw [← Option.not_isSome_iff_eq_none, ← Table.has, has_iff_mem_keys, ← he]
        exact hnew
      rw [if_pos he, hrest, ← he]
      exact get?_note_self b .concept e.1 hash e.2
    · rw [if_neg he, get?_note_of_ne he]

/-- A lesson is noted where it shows something, and nowhere else. -/
theorem get?_learn (b : Library) (hash : String) (s : Snippet) (t : Topic) (name : String) :
    ((b.learn hash s).notes t).get? name =
      if t.shows name s.code then some ((((b.notes t).get? name).getD {}).add hash (t.weight name s.code))
      else (b.notes t).get? name := by
  rw [learn]
  generalize hkept : b.keep hash s = b₁
  have hnotes : b.notes = b₁.notes := by rw [← hkept]; rfl
  rw [hnotes]
  cases t with
  | concept =>
    have halgorithm (b₂ : Library) (kind : String) :
        (b₂.noteAlgorithm hash kind).notes .concept = b₂.notes .concept := by
      rw [noteAlgorithm]
      split
      · exact notes_note_of_ne (by decide) ..
      · rfl
    rw [halgorithm, get?_noteConcepts (nodup_conceptsOf _), Topic.shows, Topic.weight, Table.has]
    cases (conceptsOf s.code).get? name <;> rfl
  | algorithm =>
    have hbefore : (b₁.noteConcepts hash (conceptsOf s.code)).notes .algorithm = b₁.notes .algorithm :=
      notes_noteConcepts_of_ne (by decide) _
    rw [noteAlgorithm, Topic.shows, Topic.weight]
    generalize algorithmOf s.code = kind
    by_cases hkind : kind = name
    · subst hkind
      by_cases hunknown : kind = unknownAlgorithm
      · rw [if_neg (not_not.2 hunknown), hbefore, if_neg (by simp [hunknown])]
      · rw [if_pos hunknown, get?_note_self, hbefore, if_pos (by simp [hunknown])]
    · have hother : (name != unknownAlgorithm && kind == name) = false := by simp [hkind]
      rw [hother, if_neg Bool.false_ne_true]
      split
      · rw [get?_note_of_ne hkind, hbefore]
      · rw [hbefore]

/-! ### Lessons -/

/-- The library tells of these lessons: there are snippets of them under their hashes, each topic has the
notes on them, and transformations are from one of them to another. All else in it is plain. -/
structure Tells (digest : String → String) (codes : List String) (b : Library) : Prop where
  nodup_snippets : b.snippets.keys.Nodup
  own : ∀ e ∈ b.snippets, e.1 = digest e.2.code
  lesson : ∀ e ∈ b.snippets, e.2.code ∈ codes
  known : ∀ code ∈ codes, digest code ∈ b.snippets.keys
  nodup_notes : ∀ t, (b.notes t).keys.Nodup
  notes : ∀ t name, (b.notes t).get? name = t.note? digest name codes
  linked : ∀ t ∈ b.transformations, t.source ∈ b.snippets.keys ∧ t.target ∈ b.snippets.keys
  plain_snippets : ∀ e ∈ b.snippets, e.2.metadata.IsDocument
  plain_transformations : ∀ t ∈ b.transformations, t.kind.IsDocument ∧ t.metadata.IsDocument

/-- The lessons after one that is taken only if its hash is new. -/
def meet (digest : String → String) (codes : List String) (code : String) : List String :=
  if digest code ∈ codes.map digest then codes else codes ++ [code]

theorem tells_nil (digest : String → String) : Tells digest [] {} where
  nodup_snippets := nodup_nil
  own := nofun
  lesson := nofun
  known := nofun
  nodup_notes _ := nodup_nil
  notes _ _ := rfl
  linked := nofun
  plain_snippets := nofun
  plain_transformations := nofun

namespace Tells

variable {digest : String → String} {codes : List String}

theorem learn (h : Tells digest codes b) (hs : s.metadata.IsDocument) :
    Tells digest (codes ++ [s.code]) (b.learn (digest s.code) s) where
  nodup_snippets := by
    rw [snippets_learn]
    exact nodup_keys_put h.nodup_snippets ..
  own e he := by
    rw [snippets_learn] at he
    rcases mem_put he with he | rfl
    · exact h.own e he
    · rfl
  lesson e he := by
    rw [snippets_learn] at he
    rcases mem_put he with he | rfl
    · exact mem_append_left _ (h.lesson e he)
    · exact mem_append_right _ (mem_singleton_self _)
  known code hcode := by
    rcases mem_append.1 hcode with hcode | hcode
    · exact mem_keys_learn_of_mem (h.known code hcode) ..
    · rw [mem_singleton.1 hcode]
      exact b.mem_keys_learn ..
  nodup_notes t := nodup_learn (h.nodup_notes t) ..
  notes t name := by
    rw [get?_learn, h.notes]
    cases hshows : t.shows name s.code with
    | true => rw [if_pos rfl, Topic.note?_concat digest hshows]
    | false => rw [if_neg Bool.false_ne_true, Topic.note?_concat_of_not digest hshows]
  linked t ht := by
    rw [transformations_learn] at ht
    exact ⟨mem_keys_learn_of_mem (h.linked t ht).1 .., mem_keys_learn_of_mem (h.linked t ht).2 ..⟩
  plain_snippets e he := by
    rw [snippets_learn] at he
    rcases mem_put he with he | rfl
    · exact h.plain_snippets e he
    · exact hs
  plain_transformations t ht := by
    rw [transformations_learn] at ht
    exact h.plain_transformations t ht

theorem learnIfNew (h : Tells digest codes b) (code time : String) :
    Tells digest (meet digest codes code) (b.learnIfNew (digest code) (.of code .null time)) := by
  have hiff : b.snippets.has (digest code) ↔ digest code ∈ codes.map digest := by
    rw [has_iff_mem_keys]
    constructor
    · intro hmem
      obtain ⟨e, he, hkey⟩ := mem_map.1 hmem
      rw [← hkey, h.own e he]
      exact mem_map_of_mem (h.lesson e he)
    · intro hmem
      obtain ⟨c, hc, hdigest⟩ := mem_map.1 hmem
      rw [← hdigest]
      exact h.known c hc
  rw [Library.learnIfNew, meet]
  by_cases hknown : b.snippets.has (digest code)
  · rw [if_pos hknown, if_pos (hiff.1 hknown)]
    exact h
  · rw [if_neg hknown, if_neg fun hmem => hknown (hiff.2 hmem)]
    exact h.learn (s := .of code .null time) (isDocument_dict_iff.2 ⟨nodup_nil, forall_mem_nil _⟩)

/-- A transformation between lessons is taken in. -/
theorem transform (h : Tells digest codes b) {t : Transformation}
    (hlinked : t.source ∈ b.snippets.keys ∧ t.target ∈ b.snippets.keys)
    (hplain : t.kind.IsDocument ∧ t.metadata.IsDocument) : Tells digest codes (b.transform t) where
  nodup_snippets := h.nodup_snippets
  own := h.own
  lesson := h.lesson
  known := h.known
  nodup_notes := h.nodup_notes
  notes := h.notes
  linked := forall_mem_append.2 ⟨h.linked, forall_mem_singleton.2 hlinked⟩
  plain_snippets := h.plain_snippets
  plain_transformations := forall_mem_append.2 ⟨h.plain_transformations, forall_mem_singleton.2 hplain⟩

theorem examples_known (h : Tells digest codes b) {name : String} {n : Note}
    (hn : (b.notes t).get? name = some n) : ∀ hash ∈ n.examples, hash ∈ b.snippets.keys := by
  intro hash hmem
  rw [h.notes, Topic.note?] at hn
  split at hn
  · cases hn
  · cases hn
    obtain ⟨code, hcode, rfl⟩ := mem_map.1 (mem_of_mem_take hmem)
    exact h.known code (mem_filter.1 hcode).1

/-! ### The document -/

/-- The document of a library is plain if no total in it is too great. -/
theorem isDocument_document (h : Tells digest codes b) (hfew : ∀ (t : Topic) name, t.total name codes < countLimit) :
    b.document.IsDocument := by
  have hcounts : ∀ e ∈ b.snippets, (countsValue (conceptsOf e.2.code)).IsDocument := by
    intro e he
    rw [countsValue_eq]
    refine isDocument_dict_iff.2 ⟨?_, fun x hx => ?_⟩
    · rw [Table.keys_map (fun n : Nat => Value.int n)]
      exact nodup_conceptsOf _
    · obtain ⟨c, hc, rfl⟩ := mem_map.1 hx
      obtain ⟨hshows, hweight⟩ := Topic.shows_concept (Table.get?_of_mem (nodup_conceptsOf _) hc)
      have hle := Topic.weight_le_total (h.lesson e he) hshows
      rw [hweight] at hle
      exact isDocument_count (hle.trans_lt (hfew .concept c.1))
  have hsnippets : (Value.dict b.snippetItems).IsDocument := by
    refine isDocument_dict_iff.2 ⟨?_, fun x hx => ?_⟩
    · rw [snippetItems, Table.keys_map]
      exact h.nodup_snippets
    · obtain ⟨e, he, rfl⟩ := mem_map.1 hx
      refine isDocument_dict_iff.2 ⟨by simp [Table.keys], ?_⟩
      simp only [forall_mem_cons]
      exact ⟨isDocument_str _, hcounts e he, isDocument_str _, h.plain_snippets e he,
        isDocument_str _, forall_mem_nil _⟩
  have hnotes (t : Topic) : (Value.dict (b.noteItems t)).IsDocument := by
    refine isDocument_dict_iff.2 ⟨?_, fun x hx => ?_⟩
    · rw [noteItems, Table.keys_map]
      exact h.nodup_notes t
    · obtain ⟨e, he, rfl⟩ := mem_map.1 hx
      have hnote := Table.get?_of_mem (h.nodup_notes t) he
      have hcount : e.2.count < countLimit := by
        rw [h.notes, Topic.note?] at hnote
        split at hnote
        · cases hnote
        · rw [← Option.some.inj hnote]
          exact hfew t e.1
      refine isDocument_dict_iff.2 ⟨by cases t <;> simp [Table.keys, Topic.countName], ?_⟩
      simp only [forall_mem_cons]
      exact ⟨isDocument_texts _, isDocument_count hcount, forall_mem_nil _⟩
  have htransformations : (Value.list b.transformationItems).IsDocument := by
    refine isDocument_list fun x hx => ?_
    obtain ⟨t, ht, rfl⟩ := mem_map.1 hx
    refine isDocument_dict_iff.2 ⟨by simp [Table.keys], ?_⟩
    simp only [forall_mem_cons]
    exact ⟨isDocument_str _, isDocument_str _, (h.plain_transformations t ht).1,
      (h.plain_transformations t ht).2, isDocument_str _, forall_mem_nil _⟩
  refine isDocument_dict_iff.2 ⟨by simp [Table.keys], ?_⟩
  simp only [forall_mem_cons]
  exact ⟨hsnippets, hnotes .concept, hnotes .algorithm, isDocument_dict_iff.2 ⟨nodup_nil, forall_mem_nil _⟩,
    htransformations, forall_mem_nil _⟩

end Tells

/-! ### Transformations and lessons -/

theorem learn_transform (b : Library) (t : Transformation) (hash : String) (s : Snippet) :
    (b.transform t).learn hash s = (b.learn hash s).transform t := by
  have hconcepts (counts : Table Nat) (b : Library) :
      (b.transform t).noteConcepts hash counts = (b.noteConcepts hash counts).transform t := by
    induction counts generalizing b with
    | nil => rfl
    | cons e counts ih => exact ih (b.note .concept e.1 hash e.2)
  have halgorithm (b : Library) (name : String) :
      (b.transform t).noteAlgorithm hash name = (b.noteAlgorithm hash name).transform t := by
    rw [noteAlgorithm, noteAlgorithm]
    split <;> rfl
  have hkeep : (b.transform t).keep hash s = (b.keep hash s).transform t := rfl
  rw [learn, learn, hkeep, hconcepts, halgorithm]

/-- It does not matter whether a transformation is taken in before its sides are learned or after. -/
theorem learnIfNew_transform (b : Library) (t : Transformation) (hash : String) (s : Snippet) :
    (b.transform t).learnIfNew hash s = (b.learnIfNew hash s).transform t := by
  rw [learnIfNew, learnIfNew, learn_transform]
  show (if b.snippets.has hash = true then b.transform t else _) = _
  split <;> rfl

theorem mem_keys_learnIfNew (b : Library) (hash : String) (s : Snippet) :
    hash ∈ (b.learnIfNew hash s).snippets.keys := by
  rw [learnIfNew]
  split
  · rwa [← has_iff_mem_keys]
  · exact b.mem_keys_learn hash s

theorem mem_keys_learnIfNew_of_mem {k : String} (h : k ∈ b.snippets.keys) (hash : String) (s : Snippet) :
    k ∈ (b.learnIfNew hash s).snippets.keys := by
  rw [learnIfNew]
  split
  · exact h
  · exact mem_keys_learn_of_mem h hash s

end Library

end GzLang.Transfer
