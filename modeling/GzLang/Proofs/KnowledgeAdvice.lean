import GzLang.Proofs.KnowledgeLessons
import GzLang.Proofs.Ranking

/-!
# Advice from a library

A knowledge base that holds a library with all references in place gives advice on every piece of code: all
vectors have one dimension, so they can be compared, and whatever code an answer shows is that of a snippet
(`Reads.perform_applicable`, `Reads.perform_suggestions`).
-/

namespace GzLang

open GzLang.Action

variable {v : Value}

namespace Value

variable {threshold : Value}

theorem mem_of_mem_upTo {α : Type} {limit : Int} {xs : List α} {x : α} (h : x ∈ upTo limit xs) : x ∈ xs := by
  rw [upTo] at h
  split at h <;> exact List.mem_of_mem_take h

/-! ### What can be written can be shown -/

mutual

theorem exists_inner : ∀ {v : Value}, v.fault? = none → ∃ text, v.inner = .ok text
  | .int i, h => by
    rw [fault?] at h
    rw [inner]
    cases htext : intText i with
    | ok text => exact ⟨text, rfl⟩
    | error f => rw [htext] at h; cases h
  | .list xs, h => by
    obtain ⟨texts, htexts⟩ := exists_innerList (show faultOfItems? xs = none by rwa [fault?] at h)
    rw [inner, htexts]
    exact ⟨_, rfl⟩
  | .tuple xs, h => by
    obtain ⟨texts, htexts⟩ := exists_innerList (show faultOfItems? xs = none by rwa [fault?] at h)
    rw [inner, htexts]
    rcases texts with _ | ⟨text, _ | ⟨_, _⟩⟩ <;> exact ⟨_, rfl⟩
  | .dict es, h => by
    obtain ⟨texts, htexts⟩ := exists_innerEntries (show faultOfMembers? es = none by rwa [fault?] at h)
    rw [inner, htexts]
    exact ⟨_, rfl⟩
  | .null, _ => ⟨_, rfl⟩
  | .bool _, _ => ⟨_, rfl⟩
  | .float _, _ => ⟨_, rfl⟩
  | .statistic _, _ => ⟨_, rfl⟩
  | .str _, _ => ⟨_, rfl⟩
  | .object _, _ => ⟨_, rfl⟩

theorem exists_innerList : ∀ {xs : List Value}, faultOfItems? xs = none → ∃ texts, innerList xs = .ok texts
  | [], _ => ⟨[], rfl⟩
  | x :: xs, h => by
    rw [faultOfItems?, Option.or_eq_none_iff] at h
    obtain ⟨text, htext⟩ := exists_inner h.1
    obtain ⟨texts, htexts⟩ := exists_innerList h.2
    rw [innerList, htext, htexts]
    exact ⟨_, rfl⟩

theorem exists_innerEntries : ∀ {es : List (String × Value)}, faultOfMembers? es = none →
    ∃ texts, innerEntries es = .ok texts
  | [], _ => ⟨[], rfl⟩
  | (k, v) :: es, h => by
    rw [faultOfMembers?, Option.or_eq_none_iff] at h
    obtain ⟨text, htext⟩ := exists_inner h.1
    obtain ⟨texts, htexts⟩ := exists_innerEntries h.2
    rw [innerEntries, htext, htexts]
    exact ⟨_, rfl⟩

end

theorem exists_display (h : v.fault? = none) : ∃ text, v.display = .ok text := by
  cases v with
  | str s => exact ⟨s, rfl⟩
  | statistic x => exact ⟨_, rfl⟩
  | null | bool _ | int _ | float _ | list _ | dict _ | tuple _ | object _ => exact exists_inner h

end Value

open Value

namespace Transfer

variable {x : List Float}

/-! ### Code that is shown -/

def IsCode (snippets : Table Value) (code : String) : Prop :=
  ∃ hash s, snippets.get? hash = some s ∧ s.item "code" = .ok (.str code)

/-- A suggestion that shows an example, or both sides of a transformation. -/
def IsSuggestion (snippets : Table Value) (v : Value) : Prop :=
  (∃ code, v.item "example" = .ok (.str code) ∧ IsCode snippets code) ∨
    ∃ source target, v.item "source" = .ok (.str source) ∧ v.item "target" = .ok (.str target) ∧
      IsCode snippets source ∧ IsCode snippets target

namespace Library

variable (b : Library)

variable {hash : String}
variable {s : Snippet}

def IsSimilar (v : Value) : Prop :=
  ∃ hash d s, b.snippets.get? hash = some s ∧
    v = .dict [("code_hash", .str hash), ("similarity", d), ("code", .str s.code),
      ("concepts", countsValue (conceptsOf s.code)), ("algorithm_type", .str (algorithmOf s.code))]

/-- A transformation whose two sides are there, as it is offered. -/
def IsOffer (v : Value) : Prop :=
  ∃ t ∈ b.transformations, ∃ d source target, IsCode b.snippetItems source ∧ IsCode b.snippetItems target ∧
    v = .dict [("transformation_type", t.kind), ("similarity", .statistic d), ("source_code", .str source),
      ("target_code", .str target), ("metadata", t.metadata)]

variable {b}

theorem get?_snippetItems (hash : String) :
    Table.get? b.snippetItems hash = (b.snippets.get? hash).map Snippet.document :=
  Table.get?_map ..

theorem isCode (h : b.snippets.get? hash = some s) : IsCode b.snippetItems s.code :=
  ⟨hash, s.document, by rw [get?_snippetItems, h]; rfl, rfl⟩

theorem has_snippetItems (hash : String) : Table.has b.snippetItems hash = b.snippets.has hash := Table.has_map ..

theorem exists_snippet (h : hash ∈ b.snippets.keys) : ∃ s, b.snippets.get? hash = some s := by
  rw [← Table.has_iff_mem_keys, Table.has] at h
  exact Option.isSome_iff_exists.1 h

theorem item_snippetItems (h : b.snippets.get? hash = some s) :
    (Value.dict b.snippetItems).item hash = .ok s.document :=
  item_map _ h

theorem holds_snippetItems (h : b.snippets.get? hash = some s) :
    (Value.dict b.snippetItems).holds (.str hash) = .ok true := by
  show Except.ok (Table.has b.snippetItems hash) = _
  rw [has_snippetItems, Table.has, h]
  rfl

theorem snippetCode_eq (h : b.snippets.get? hash = some s) :
    snippetCode (.dict b.snippetItems) (.str hash) = .ok (.str s.code) := by
  have hunder : valueUnder (.dict b.snippetItems) (.str hash) = .ok s.document := item_snippetItems h
  rw [snippetCode, holds_snippetItems h, hunder]
  rfl

end Library

open Library

/-! ### Vectors that can be compared -/

theorem Space.exists_near (hthreshold : threshold.IsNumber) {e : String × List Float} (h : x.length = e.2.length) :
    ∃ r, Space.near? x threshold e = .ok r ∧ ∀ e', r = some e' → e'.2.IsNumber := by
  have hsimilar : similarity x e.2 = .ok (.statistic (inner x e.2)) := by rw [similarity, if_pos h]
  obtain ⟨reaches, hreaches⟩ := relate_of_numbers .ge (v := .statistic (inner x e.2)) rfl hthreshold
  refine ⟨if reaches then some (e.1, .statistic (inner x e.2)) else none, ?_, ?_⟩
  · rw [Space.near?, hsimilar]
    show ((Value.statistic (inner x e.2)).relate .ge threshold >>= _) = _
    rw [hreaches]
    cases reaches <;> rfl
  · intro e' he'
    cases reaches with
    | false => cases he'
    | true =>
      cases he'
      rfl

theorem Space.exists_nearest {table : Table (List Float)}
    (h : ∀ e ∈ table, x.length = e.2.length) (hthreshold : threshold.IsNumber) (limit : Int) :
    ∃ near, Space.nearest x table threshold limit = .ok near := by
  obtain ⟨found, hfound, hall⟩ := exists_mapM_eq_ok fun e he => Space.exists_near hthreshold (h e he)
  have hnumbers : ∀ e ∈ found.filterMap id, ∃ v, (.ok e.2 : Except Fault Value) = .ok v ∧ v.IsNumber := by
    intro e he
    obtain ⟨r, hr, hre⟩ := List.mem_filterMap.1 he
    exact ⟨e.2, rfl, hall r hr e hre⟩
  obtain ⟨sorted, hsorted, -⟩ := sortDescending_perm hnumbers
  refine ⟨upTo limit sorted, ?_⟩
  rw [Space.nearest, hfound]
  show (sortDescending _ _ >>= _) = _
  rw [hsorted]
  rfl

theorem Space.exists_similarCode {s : Space} (h : s.Even) (code : String)
    (hthreshold : threshold.IsNumber) (limit : Int) :
    ∃ near, s.similarCode code threshold limit = (.ok near, (s.code code).2) := by
  have hextends := s.extends_code code
  have hlength := Space.length_code h code
  rw [Space.similarCode]
  generalize s.code code = r at hextends hlength
  obtain ⟨x, s'⟩ := r
  have heven : ∀ e ∈ s'.codes.filter (·.1 ≠ s'.digest code), x.length = e.2.length := by
    intro e he
    rw [hlength, hextends.even h e (List.mem_filter.1 he).1, hextends.dimension]
  obtain ⟨near, hnear⟩ := Space.exists_nearest heven hthreshold limit
  exact ⟨near, Prod.ext hnear rfl⟩

/-! ### Advice -/

namespace Knowledge

variable {b : Library} {n : Nat} {w : World} {s : Knowledge × World}

/-- The knowledge base holds the library, and all its vectors have one dimension. -/
structure Reads (b : Library) (n : Nat) (w : World) (s : Knowledge × World) : Prop where
  base : s.1.base = b.document
  even : s.1.space.Even
  dimension : s.1.space.dimension = n
  world : s.2 = w

namespace Reads

theorem perform_part (h : Reads b n w s) (name : String) : (part name).perform s = (b.document.item name, s) := by
  rw [← h.base]
  exact Knowledge.perform_part s.1 s.2 name

theorem perform_vector (h : Reads b n w s) (code : String) :
    ∃ x s', (vector code).perform s = (.ok x, s') ∧ Reads b n w s' ∧ x.length = n := by
  have hextends := s.1.space.extends_code code
  refine ⟨_, _, Knowledge.perform_vector s.1 s.2 code, ⟨h.base, hextends.even h.even, ?_, h.world⟩, ?_⟩
  · exact hextends.dimension.trans h.dimension
  · rw [Space.length_code h.even, h.dimension]

theorem perform_applicable? (h : Reads b n w s) (hx : x.length = n)
    (hthreshold : threshold.IsNumber) {t : Transformation} (ht : t ∈ b.transformations)
    (hlinked : t.source ∈ b.snippets.keys ∧ t.target ∈ b.snippets.keys) :
    ∃ r s', (applicable? x threshold t.document).perform s = (.ok r, s') ∧ Reads b n w s' ∧
      ∀ v, r = some v → b.IsOffer v := by
  obtain ⟨source, hsource⟩ := exists_snippet hlinked.1
  obtain ⟨target, htarget⟩ := exists_snippet hlinked.2
  have hsnippets {s : Knowledge × World} (h : Reads b n w s) :
      (part "code_snippets").perform s = (.ok (.dict b.snippetItems), s) := h.perform_part _
  have hunder : valueUnder (.dict b.snippetItems) (.str t.source) = .ok source.document := item_snippetItems hsource
  have hhash : t.document.item "source_hash" = .ok (.str t.source) := rfl
  have hcode : source.document.item "code" = .ok (.str source.code) := rfl
  have htext : codeText (.str source.code) = .ok source.code := rfl
  obtain ⟨y, s', hvector, hreads, hy⟩ := h.perform_vector source.code
  have hsimilar : similarity x y = .ok (.statistic (inner x y)) := by rw [similarity, if_pos (hx.trans hy.symm)]
  obtain ⟨reaches, hreaches⟩ := relate_of_numbers .ge (v := .statistic (inner x y)) rfl hthreshold
  rw [applicable?, bind_lift hhash, bind_of_ok (hsnippets h),
    bind_lift (holds_snippetItems hsource), Bool.not_true, if_neg Bool.false_ne_true]
  rw [bind_of_ok (hsnippets h), bind_lift hunder, bind_lift hcode,
    bind_lift htext, bind_of_ok hvector, bind_lift hsimilar,
    bind_lift hreaches]
  cases reaches with
  | false => exact ⟨none, s', rfl, hreads, nofun⟩
  | true =>
    have htargetHash : t.document.item "target_hash" = .ok (.str t.target) := rfl
    rw [if_pos rfl, bind_of_ok (hsnippets hreads), bind_lift htargetHash, bind_lift (snippetCode_eq htarget)]
    refine ⟨_, s', rfl, hreads, fun v hv => ?_⟩
    cases hv
    exact ⟨t, ht, _, _, _, isCode hsource, isCode htarget, rfl⟩

/-- Where all transformations have their sides, those that apply to a piece of code are found. -/
theorem perform_applicable (h : Reads b n w s)
    (hlinked : ∀ t ∈ b.transformations, t.source ∈ b.snippets.keys ∧ t.target ∈ b.snippets.keys)
    (code : String) (hthreshold : threshold.IsNumber) (limit : Int) :
    ∃ vs s', (applicable (.str code) threshold limit).perform s = (.ok vs, s') ∧ Reads b n w s' ∧
      ∀ v ∈ vs, b.IsOffer v := by
  have htext : codeText (.str code) = .ok code := rfl
  have helements : (Value.list b.transformationItems).elements = .ok b.transformationItems := rfl
  obtain ⟨x, s₁, hvector, h₁, hx⟩ := h.perform_vector code
  have hpart : (part "transformations").perform s₁ = (.ok (.list b.transformationItems), s₁) := h₁.perform_part _
  obtain ⟨found, s₂, hfound, h₂, hoffers⟩ := perform_mapM_of_keeps (l := b.transformationItems)
    (f := applicable? x threshold) (I := Reads b n w) (fun v hv s hs => by
      obtain ⟨t, ht, rfl⟩ := List.mem_map.1 hv
      exact hs.perform_applicable? hx hthreshold ht (hlinked t ht)) h₁
  have hall : ∀ v ∈ found.filterMap id, b.IsOffer v := by
    intro v hv
    obtain ⟨r, hr, hrv⟩ := List.mem_filterMap.1 hv
    exact hoffers r hr v hrv
  have hnumbers : ∀ v ∈ found.filterMap id, ∃ d, v.item "similarity" = .ok d ∧ d.IsNumber := by
    intro v hv
    obtain ⟨_, _, d, _, _, _, _, rfl⟩ := hall v hv
    exact ⟨.statistic d, rfl, rfl⟩
  obtain ⟨sorted, hsorted, hperm⟩ := sortDescending_perm hnumbers
  refine ⟨upTo limit sorted, s₂, ?_, h₂, fun v hv => hall v (hperm.mem_iff.1 (mem_of_mem_upTo hv))⟩
  rw [applicable, bind_lift htext, bind_of_ok hvector, bind_of_ok hpart,
    bind_lift helements, bind_of_ok hfound, bind_lift hsorted]
  rfl

theorem perform_similarSnippet? (h : Reads b n w s) (hash : String) (d : Value) :
    ∃ r s', (similarSnippet? hash d).perform s = (.ok r, s') ∧ Reads b n w s' ∧ ∀ v, r = some v → b.IsSimilar v := by
  have hpart : (part "code_snippets").perform s = (.ok (.dict b.snippetItems), s) := h.perform_part _
  rw [similarSnippet?, bind_of_ok hpart, bind_lift (has_dict _ _), has_snippetItems, Table.has]
  cases hsnippet : b.snippets.get? hash with
  | none => exact ⟨none, s, rfl, h, fun _ hv => by cases hv⟩
  | some snippet =>
    rw [Option.isSome_some, if_pos rfl, bind_of_ok hpart, bind_lift (item_snippetItems hsnippet)]
    refine ⟨_, s, rfl, h, fun v hv => ?_⟩
    cases hv
    exact ⟨hash, d, snippet, hsnippet, rfl⟩

theorem perform_similarCode (h : Reads b n w s) (code : String) (hthreshold : threshold.IsNumber) (limit : Int) :
    ∃ vs s', (similarCode (.str code) threshold limit).perform s = (.ok vs, s') ∧ Reads b n w s' ∧
      ∀ v ∈ vs, b.IsSimilar v := by
  have htext : codeText (.str code) = .ok code := rfl
  have hextends := s.1.space.extends_code code
  obtain ⟨near, hnear⟩ := Space.exists_similarCode h.even code hthreshold limit
  generalize (s.1.space.code code).2 = space at hextends hnear
  have hupdated : Reads b n w ({ s.1 with space }, s.2) :=
    ⟨h.base, hextends.even h.even, hextends.dimension.trans h.dimension, h.world⟩
  obtain ⟨found, s', hfound, h', hsimilar⟩ := perform_mapM_of_keeps (l := near)
    (f := fun e => similarSnippet? e.1 e.2) (I := Reads b n w)
    (fun e _ _ hs => by exact hs.perform_similarSnippet? e.1 e.2) hupdated
  refine ⟨found.filterMap id, s', ?_, h', fun v hv => ?_⟩
  · rw [similarCode, bind_self, bind_lift htext, hnear]
    dsimp only
    rw [bind_update, bind_lift rfl, bind_of_ok hfound]
    rfl
  · obtain ⟨r, hr, hrv⟩ := List.mem_filterMap.1 hv
    exact hsimilar r hr v hrv

/-- Where all examples in notes are there, an example of a concept is found if there is one. -/
theorem perform_conceptSuggestion? (h : Reads b n w s)
    (hexamples : ∀ name note, (b.notes .concept).get? name = some note → ∀ hash ∈ note.examples, hash ∈ b.snippets.keys)
    (concept : String) (count : Nat) :
    ∃ r s', (conceptSuggestion? concept count).perform s = (.ok r, s') ∧ Reads b n w s' ∧
      ∀ v, r = some v → IsSuggestion b.snippetItems v := by
  have hsnippets : (part "code_snippets").perform s = (.ok (.dict b.snippetItems), s) := h.perform_part _
  have hpart : (part "concepts").perform s = (.ok (.dict (b.noteItems .concept)), s) := h.perform_part _
  rw [conceptSuggestion?, bind_of_ok hpart, bind_lift (has_dict _ _), Table.has, b.get?_noteItems]
  cases hnote : (b.notes .concept).get? concept with
  | none => exact ⟨none, s, rfl, h, fun _ hv => by cases hv⟩
  | some note =>
    have hitem : (Value.dict (b.noteItems .concept)).item concept = .ok (note.document .concept) := item_map _ hnote
    have hlist : (note.document .concept).item "examples" = .ok (texts note.examples) := rfl
    rw [Option.map_some, Option.isSome_some, Bool.not_true, if_neg Bool.false_ne_true]
    rw [bind_of_ok hpart, bind_lift hitem, bind_lift hlist]
    cases hfirst : note.examples with
    | nil => exact ⟨none, s, rfl, h, fun _ hv => by cases hv⟩
    | cons hash rest =>
      have htrue : (texts (hash :: rest)).isTrue := rfl
      have helement : (texts (hash :: rest)).element 0 = .ok (.str hash) := rfl
      obtain ⟨snippet, hsnippet⟩ := exists_snippet
        (hexamples concept note hnote hash (by rw [hfirst]; exact List.mem_cons_self))
      rw [htrue, Bool.not_true, if_neg Bool.false_ne_true]
      rw [bind_of_ok hsnippets, bind_lift helement, bind_lift (snippetCode_eq hsnippet)]
      refine ⟨_, s, rfl, h, fun v hv => .inl ⟨snippet.code, ?_, isCode hsnippet⟩⟩
      cases hv
      rfl

end Reads

theorem exists_similarSuggestion (h : b.IsSimilar v) :
    ∃ v', similarSuggestion v = .ok v' ∧ IsSuggestion b.snippetItems v' := by
  obtain ⟨hash, d, snippet, hsnippet, rfl⟩ := h
  exact ⟨_, rfl, .inl ⟨snippet.code, rfl, isCode hsnippet⟩⟩

theorem exists_transformationSuggestion (hkinds : ∀ t ∈ b.transformations, t.kind.fault? = none)
    (h : b.IsOffer v) : ∃ v', transformationSuggestion v = .ok v' ∧ IsSuggestion b.snippetItems v' := by
  obtain ⟨t, ht, d, source, target, hsource, htarget, rfl⟩ := h
  obtain ⟨text, htext⟩ := exists_display (hkinds t ht)
  refine ⟨.dict [("type", .str "transformation"), ("confidence", .statistic d),
    ("description", .str ("Suggested transformation: " ++ text)), ("source", .str source), ("target", .str target)],
    ?_, .inr ⟨source, target, rfl, rfl, hsource, htarget⟩⟩
  show (t.kind.display >>= _) = _
  rw [htext]
  rfl

/-- Where no reference is left open, there are suggestions for every piece of code, and all of them show code of
snippets. -/
theorem Reads.perform_suggestions (h : Reads b n w s)
    (hlinked : ∀ t ∈ b.transformations, t.source ∈ b.snippets.keys ∧ t.target ∈ b.snippets.keys)
    (hkinds : ∀ t ∈ b.transformations, t.kind.fault? = none)
    (hexamples : ∀ name note, (b.notes .concept).get? name = some note → ∀ hash ∈ note.examples, hash ∈ b.snippets.keys)
    (code : String) :
    ∃ vs s', (suggestions (.str code)).perform s = (.ok (.list vs), s') ∧ Reads b n w s' ∧
      ∀ v ∈ vs, IsSuggestion b.snippetItems v := by
  have hthreshold : (Value.float 0.6).IsNumber := rfl
  obtain ⟨similar, s₁, hsimilar, h₁, hall₁⟩ := h.perform_similarCode code hthreshold 3
  obtain ⟨offers, s₂, hoffers, h₂, hall₂⟩ := h₁.perform_applicable hlinked code hthreshold 3
  obtain ⟨vs₁, s₃, hvs₁, h₃, hgood₁⟩ := perform_mapM_of_keeps (l := similar) (I := Reads b n w)
    (f := fun v => similarSuggestion v) (fun v hv s hs => by
      obtain ⟨v', hv', hgood⟩ := exists_similarSuggestion (hall₁ v hv)
      exact ⟨v', s, by rw [hv']; rfl, hs, hgood⟩) h₂
  obtain ⟨vs₂, s₄, hvs₂, h₄, hgood₂⟩ := perform_mapM_of_keeps (l := offers) (I := Reads b n w)
    (f := fun v => transformationSuggestion v) (fun v hv s hs => by
      obtain ⟨v', hv', hgood⟩ := exists_transformationSuggestion hkinds (hall₂ v hv)
      exact ⟨v', s, by rw [hv']; rfl, hs, hgood⟩) h₃
  obtain ⟨found, s₅, hfound, h₅, hgood₃⟩ := perform_mapM_of_keeps (l := conceptsOf code) (I := Reads b n w)
    (f := fun e => conceptSuggestion? e.1 e.2)
    (fun e _ _ hs => by exact hs.perform_conceptSuggestion? hexamples e.1 e.2) h₄
  refine ⟨vs₁ ++ vs₂ ++ found.filterMap id, s₅, ?_, h₅, ?_⟩
  · rw [suggestions]
    refine (bind_of_ok (perform_pure code s) _).trans ?_
    rw [bind_of_ok hsimilar, bind_of_ok hoffers, bind_of_ok hvs₁, bind_of_ok hvs₂, bind_of_ok hfound]
    rfl
  · refine List.forall_mem_append.2 ⟨List.forall_mem_append.2 ⟨hgood₁, hgood₂⟩, fun v hv => ?_⟩
    obtain ⟨r, hr, hrv⟩ := List.mem_filterMap.1 hv
    exact hgood₃ r hr v hrv

end Knowledge

end Transfer

end GzLang
