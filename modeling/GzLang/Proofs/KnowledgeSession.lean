import GzLang.Proofs.KnowledgeAdvice

/-!
# A knowledge base in use

A session is a list of requests to a knowledge base whose file is not there yet: to learn a piece of code or a
transformation, to wait, or to start anew from the file. `lessons` says from the requests alone which pieces of
code were learned. Every request is served and keeps to these lessons (`InCourse.perform_serve`), so that no
reference in the knowledge base is ever left open, and no advice lacks its code (`no_reference_is_open`).
-/

namespace GzLang

theorem Value.IsDocument.orEmpty {v : Value} (h : v.IsDocument) : v.orEmpty.IsDocument := by
  rw [Value.orEmpty]
  split
  · exact h
  · exact Value.isDocument_dict_iff.2 ⟨List.nodup_nil, nofun⟩

namespace Transfer

open GzLang.Action

inductive Request where
  | learn (code : String) (metadata : Value)
  | transform (source target : String) (kind metadata : Value)
  | wait (seconds : Float)
  | reopen

def Request.Plain : Request → Prop
  | .learn _ metadata => metadata.IsDocument
  | .transform _ _ kind metadata => kind.IsDocument ∧ metadata.IsDocument
  | .wait _ => True
  | .reopen => True

/-- The lessons after a request. The sides of a transformation are learned if their hashes are new. -/
def lessonsAfter (digest : String → String) (codes : List String) : Request → List String
  | .learn code _ => codes ++ [code]
  | .transform source target _ _ => Library.meet digest (Library.meet digest codes source) target
  | .wait _ => codes
  | .reopen => codes

def lessons (digest : String → String) (rs : List Request) : List String := rs.foldl (lessonsAfter digest) []

def Few (codes : List String) : Prop := ∀ (t : Topic) (name : String), t.total name codes < Value.countLimit

theorem few_of_concat {codes : List String} {code : String} (h : Few (codes ++ [code])) : Few codes :=
  fun t name => (t.total_concat_le name codes code).trans_lt (h t name)

theorem few_of_meet {digest : String → String} {codes : List String} {code : String}
    (h : Few (Library.meet digest codes code)) : Few codes := by
  rw [Library.meet] at h
  split at h
  · exact h
  · exact few_of_concat h

theorem few_of_lessonsAfter (digest : String → String) (codes : List String) (r : Request)
    (h : Few (lessonsAfter digest codes r)) : Few codes := by
  cases r with
  | learn code metadata => exact few_of_concat h
  | transform source target kind metadata => exact few_of_meet (few_of_meet h)
  | wait seconds => exact h
  | reopen => exact h

/-! ### The course of a session -/

namespace Knowledge

def serve (p : FilePlace) (digest : String → String) : Request → Task Knowledge Value
  | .learn code metadata => learn (.str code) metadata
  | .transform source target kind metadata => learnTransformation (.str source) (.str target) kind metadata
  | .wait seconds => do
    Job.advance seconds
    return .null
  | .reopen => do
    let k ← Knowledge.open p.path digest
    Task.update fun _ => k
    return .null

/-- A knowledge base and its file hold a library that tells of the lessons so far. -/
structure InCourse (p : FilePlace) (digest : String → String) (codes : List String) (b : Library)
    (s : Knowledge × World) : Prop where
  tells : b.Tells digest codes
  base : s.1.base = b.document
  path : s.1.path = p.path
  digest : s.1.space.digest = digest
  even : s.1.space.Even
  file : p.Holds (some b.document) s.2.disk ∨ b = {} ∧ p.Holds none s.2.disk

variable {p : FilePlace} {digest : String → String} {codes : List String} {b : Library} {s : Knowledge × World}
  {w : World}

def fresh (p : FilePlace) (digest : String → String) (b : Library) : Knowledge where
  path := p.path
  space := { digest }
  base := b.document

theorem perform_open_none (h : p.Holds none w.disk) :
    (Knowledge.open p.path digest).perform w = (.ok (fresh p digest {}), w) := by
  have hload : load.perform (fresh p digest {}, w) = (.ok (), (fresh p digest {}, w)) := by
    rw [load, bind_self, perform_orElse]
    rw [show (fresh p digest {}).path = p.path from rfl, Task.bind_lift (Job.perform_pathExists p.path w), h.has_none]
    rfl
  show (Task.start (fresh p digest {}) load).perform w = _
  rw [Task.start, perform_of, hload]

theorem perform_open_some (h : p.Holds (some b.document) w.disk) (hb : b.document.IsDocument) :
    (Knowledge.open p.path digest).perform w = (.ok (fresh p digest b), w) := by
  have hload : load.perform (fresh p digest {}, w) = (.ok (), (fresh p digest b, w)) := by
    have hread := h.perform_load hb.whole
    rw [hb.normal] at hread
    rw [load, bind_self, perform_orElse]
    rw [show (fresh p digest {}).path = p.path from rfl,
      Task.bind_lift (Job.perform_pathExists p.path w), Disk.has_of_content h.content, if_pos rfl,
      Task.bind_lift hread]
    rfl
  show (Task.start (fresh p digest {}) load).perform w = _
  rw [Task.start, perform_of, hload]

theorem inCourse_fresh (h : b.Tells digest codes)
    (hfile : p.Holds (some b.document) w.disk ∨ b = {} ∧ p.Holds none w.disk) :
    InCourse p digest codes b (fresh p digest b, w) :=
  ⟨h, rfl, rfl, rfl, nofun, hfile⟩

namespace InCourse

theorem holds (h : InCourse p digest codes b s) : ∃ filed, p.Holds filed s.2.disk := by
  rcases h.file with hholds | ⟨-, hholds⟩
  · exact ⟨_, hholds⟩
  · exact ⟨_, hholds⟩

theorem perform_learn (h : InCourse p digest codes b s) (code : String) {metadata : Value}
    (hplain : metadata.IsDocument) :
    ∃ v b' s', (Knowledge.learn (.str code) metadata).perform s = (.ok v, s') ∧
      InCourse p digest (codes ++ [code]) b' s' := by
  obtain ⟨filed, hholds⟩ := h.holds
  obtain ⟨d, hperform, hholds'⟩ := Knowledge.perform_learn h.base h.path hholds code metadata
  have hextends := s.1.space.extends_code code
  have htells := h.tells.learn (s := .of code metadata s.2.timeText) hplain.orEmpty
  rw [h.digest] at hperform hholds'
  exact ⟨_, _, _, hperform, htells, rfl, h.path, hextends.digest.trans h.digest, hextends.even h.even, .inl hholds'⟩

theorem perform_transform (h : InCourse p digest codes b s) (source target : String) {kind metadata : Value}
    (hplain : kind.IsDocument ∧ metadata.IsDocument) :
    ∃ v b' s', (learnTransformation (.str source) (.str target) kind metadata).perform s = (.ok v, s') ∧
      InCourse p digest (Library.meet digest (Library.meet digest codes source) target) b' s' := by
  obtain ⟨filed, hholds⟩ := h.holds
  generalize ht : Transformation.mk (s.1.space.digest source) (s.1.space.digest target) kind metadata.orEmpty
    s.2.timeText = t
  obtain ⟨d, space, hperform, hholds', hextends⟩ :=
    Knowledge.perform_learnTransformation h.base h.path hholds ht.symm rfl
  have hsource : t.source = digest source := by rw [← ht, h.digest]
  have htarget : t.target = digest target := by rw [← ht, h.digest]
  have htells := (h.tells.learnIfNew source t.time).learnIfNew target t.time
  have hkind : t.kind.IsDocument ∧ t.metadata.IsDocument := by
    rw [← ht]
    exact ⟨hplain.1, hplain.2.orEmpty⟩
  rw [Library.learnIfNew_transform, Library.learnIfNew_transform, hsource, htarget] at hperform hholds'
  generalize hfirst : b.learnIfNew (digest source) (.of source .null t.time) = b₁ at hperform hholds' htells
  have hknown : digest source ∈ b₁.snippets.keys := hfirst ▸ b.mem_keys_learnIfNew ..
  refine ⟨_, _, _, hperform, htells.transform ⟨?_, ?_⟩ hkind, rfl, h.path, hextends.digest.trans h.digest,
    hextends.even h.even, .inl hholds'⟩
  · rw [hsource]
    exact Library.mem_keys_learnIfNew_of_mem hknown ..
  · rw [htarget]
    exact b₁.mem_keys_learnIfNew ..

/-- A knowledge base is started anew with what it knew, as long as that could be written. -/
theorem perform_reopen (h : InCourse p digest codes b s) (hfew : Few codes) :
    (Knowledge.open p.path digest).perform s.2 = (.ok (fresh p digest b), s.2) := by
  rcases h.file with hholds | ⟨rfl, hholds⟩
  · exact perform_open_some hholds (h.tells.isDocument_document hfew)
  · exact perform_open_none hholds

/-- Every request is served, and the knowledge base goes on to tell of all lessons. -/
theorem perform_serve (h : InCourse p digest codes b s) {r : Request} (hplain : r.Plain)
    (hfew : Few (lessonsAfter digest codes r)) :
    ∃ v s', (serve p digest r).perform s = (.ok v, s') ∧
      ∃ b', InCourse p digest (lessonsAfter digest codes r) b' s' := by
  cases r with
  | learn code metadata =>
    obtain ⟨v, b', s', hperform, h'⟩ := h.perform_learn code hplain
    exact ⟨v, s', hperform, b', h'⟩
  | transform source target kind metadata =>
    obtain ⟨v, b', s', hperform, h'⟩ := h.perform_transform source target hplain
    exact ⟨v, s', hperform, b', h'⟩
  | wait seconds =>
    exact ⟨.null, (s.1, { s.2 with clock := s.2.clock + seconds }), rfl, b, h.tells, h.base, h.path, h.digest, h.even,
      h.file⟩
  | reopen =>
    refine ⟨.null, (fresh p digest b, s.2), ?_, b, inCourse_fresh h.tells h.file⟩
    rw [serve]
    exact (Task.bind_lift (h.perform_reopen hfew) _ s.1).trans rfl

theorem reads (h : InCourse p digest codes b s) : Reads b s.1.space.dimension s.2 s := ⟨h.base, h.even, rfl, rfl⟩

end InCourse

end Knowledge

/-! ### No open references -/

/-- The notes on a topic, as they are kept, are those on some lessons: there is a note on what a lesson shows,
with the hashes of the first five that do, each that of a snippet, and their total. -/
structure Noted (t : Topic) (codes : List String) (snippets notes : Table Value) : Prop where
  absent : ∀ name, t.among name codes = [] → notes.get? name = none
  present : ∀ name, t.among name codes ≠ [] → ∃ hashes : List String,
    notes.get? name =
      some (.dict [("examples", Value.texts hashes), (t.countName, .int (t.total name codes))]) ∧
    hashes.length = min 5 (t.among name codes).length ∧ ∀ hash ∈ hashes, snippets.has hash = true

/-- What is kept of some lessons, with no reference left open. -/
structure Closed (digest : String → String) (codes : List String) (snippets : Table Value)
    (notes : Topic → Table Value) (transformations : List Value) : Prop where
  /-- Every snippet is under the hash of its own code. -/
  own : ∀ hash s, snippets.get? hash = some s → ∃ code, s.item "code" = .ok (.str code) ∧ hash = digest code
  known : ∀ code ∈ codes, snippets.has (digest code) = true
  noted : ∀ t, Noted t codes snippets (notes t)
  linked : ∀ v ∈ transformations, ∃ source target, v.item "source_hash" = .ok (.str source) ∧
    v.item "target_hash" = .ok (.str target) ∧ snippets.has source = true ∧ snippets.has target = true

namespace Library.Tells

variable {digest : String → String} {codes : List String} {b : Library}

theorem has_snippetItems (hash : String) : Table.has b.snippetItems hash ↔ hash ∈ b.snippets.keys := by
  rw [Library.has_snippetItems, Table.has_iff_mem_keys]

theorem noted (h : b.Tells digest codes) (t : Topic) : Noted t codes b.snippetItems (b.noteItems t) where
  absent name hnone := by
    rw [b.get?_noteItems, h.notes, Topic.note?, if_pos hnone]
    rfl
  present name hsome := by
    have hnote : (b.notes t).get? name = some ⟨((t.among name codes).map digest).take 5, t.total name codes⟩ := by
      rw [h.notes, Topic.note?, if_neg hsome]
    refine ⟨((t.among name codes).map digest).take 5, ?_, ?_, fun hash hhash => ?_⟩
    · rw [b.get?_noteItems, hnote]
      rfl
    · rw [List.length_take, List.length_map]
    · rw [has_snippetItems]
      exact h.examples_known hnote hash hhash

theorem closed (h : b.Tells digest codes) : Closed digest codes b.snippetItems b.noteItems b.transformationItems where
  own hash s hs := by
    rw [get?_snippetItems] at hs
    obtain ⟨snippet, hsnippet, rfl⟩ := Option.map_eq_some_iff.1 hs
    exact ⟨snippet.code, rfl, h.own _ (Table.mem_of_get?_eq hsnippet)⟩
  known code hcode := (has_snippetItems _).2 (h.known code hcode)
  noted := h.noted
  linked v hv := by
    obtain ⟨t, ht, rfl⟩ := List.mem_map.1 hv
    obtain ⟨hsource, htarget⟩ := h.linked t ht
    exact ⟨t.source, t.target, rfl, rfl, (has_snippetItems _).2 hsource, (has_snippetItems _).2 htarget⟩

end Library.Tells

namespace Knowledge

/-- Whatever a knowledge base was asked so far, starting without a file, it served all of it, as long as its totals
are not too long to be written. Whatever the hash, each of its snippets is under the hash of its own code, the
notes on concepts and on algorithms are those on all lessons, and every hash in a note or a transformation is that
of a snippet. So it finds the transformations that apply to a piece of code, and suggestions for it, and whatever
code these show is that of a snippet. -/
theorem no_reference_is_open (p : FilePlace) {w : World} (h : p.Holds none w.disk) (digest : String → String)
    (rs : List Request) (hplain : ∀ r ∈ rs, r.Plain) (hfew : Few (lessons digest rs)) :
    ∃ k₀ vs k w', (Knowledge.open p.path digest).perform w = (.ok k₀, w) ∧
      (rs.mapM (serve p digest)).perform (k₀, w) = (.ok vs, (k, w')) ∧
      ∃ snippets notes transformations, k.base.item "code_snippets" = .ok (.dict snippets) ∧
        k.base.item "concepts" = .ok (.dict (notes .concept)) ∧
        k.base.item "algorithms" = .ok (.dict (notes .algorithm)) ∧
        k.base.item "transformations" = .ok (.list transformations) ∧
        Closed digest (lessons digest rs) snippets notes transformations ∧
        (∀ code threshold limit, threshold.IsNumber →
          ∃ offers s, (applicable (.str code) threshold limit).perform (k, w') = (.ok offers, s) ∧
            ∀ v ∈ offers, ∃ source target, v.item "source_code" = .ok (.str source) ∧
              v.item "target_code" = .ok (.str target) ∧ IsCode snippets source ∧ IsCode snippets target) ∧
        ∀ code, ∃ found s, (suggestions (.str code)).perform (k, w') = (.ok (.list found), s) ∧
          ∀ v ∈ found, IsSuggestion snippets v := by
  obtain ⟨vs, ⟨k, w'⟩, hserved, b, hcourse⟩ := perform_mapM_of_course
    (P := fun codes s => ∃ b, InCourse p digest codes b s) (few_of_lessonsAfter digest)
    (fun r hr _ _ hb hfew => hb.elim fun _ hb => hb.perform_serve (hplain r hr) hfew)
    ⟨{}, inCourse_fresh (w := w) (Library.tells_nil digest) (.inr ⟨rfl, h⟩)⟩ hfew
  have htells := hcourse.tells
  have hbase : k.base = b.document := hcourse.base
  refine ⟨_, vs, k, w', perform_open_none h, hserved, b.snippetItems, b.noteItems, b.transformationItems,
    by rw [hbase]; rfl, by rw [hbase]; rfl, by rw [hbase]; rfl, by rw [hbase]; rfl, htells.closed, ?_, ?_⟩
  · intro code threshold limit hthreshold
    obtain ⟨offers, s, hperform, -, hall⟩ := hcourse.reads.perform_applicable htells.linked code hthreshold limit
    refine ⟨offers, s, hperform, fun v hv => ?_⟩
    obtain ⟨t, -, d, source, target, hsource, htarget, rfl⟩ := hall v hv
    exact ⟨source, target, rfl, rfl, hsource, htarget⟩
  · intro code
    obtain ⟨found, s, hperform, -, hall⟩ := hcourse.reads.perform_suggestions htells.linked
      (fun t ht => (htells.plain_transformations t ht).1.whole) (fun _ _ hnote => htells.examples_known hnote) code
    exact ⟨found, s, hperform, hall⟩

def usualPlace : FilePlace where
  folder := ["models"]
  name := "transfer_knowledge.json"
  isName := by decide
  folder_ne_nil := FilePlace.models_ne_nil

def briefSession : List Request := [.transform "kung x" "kung y" (.str "rename") .null, .reopen, .learn "kung x" .null]

/-- If all hashes are the same, only one side of the transformation is learned, and the notes refer to it. -/
theorem clashing_hashes_are_known : ∃ k₀ vs k w' snippets concepts hashes,
      (Knowledge.open usualPlace.path fun _ => "0").perform {} = (.ok k₀, {}) ∧
      (briefSession.mapM (serve usualPlace fun _ => "0")).perform (k₀, {}) = (.ok vs, (k, w')) ∧
      k.base.item "code_snippets" = .ok (.dict snippets) ∧ k.base.item "concepts" = .ok (.dict concepts) ∧
      Table.get? concepts "conditional" =
        some (.dict [("examples", Value.texts hashes), ("total_occurrences", .int 2)]) ∧
      hashes.length = 2 ∧ ∀ hash ∈ hashes, Table.has snippets hash = true := by
  have hlessons : lessons (fun _ => "0") briefSession = ["kung x", "kung x"] := rfl
  have hconcepts : conceptsOf "kung x" = [("conditional", 1)] := by cbv
  have hshows : Topic.concept.shows "conditional" "kung x" = true := by
    rw [Topic.shows, hconcepts]
    rfl
  have hamong : Topic.concept.among "conditional" ["kung x", "kung x"] = ["kung x", "kung x"] := by
    simp [Topic.among, hshows]
  have htotal : Topic.concept.total "conditional" ["kung x", "kung x"] = 2 := by
    rw [Topic.total, hamong, List.map_cons, List.map_singleton, hconcepts]
    rfl
  have hweight (t : Topic) (name : String) : t.weight name "kung x" ≤ 1 := by
    cases t with
    | algorithm => exact le_rfl
    | concept =>
      rw [Topic.weight, hconcepts, Table.get?]
      split
      · exact le_rfl
      · exact Nat.zero_le 1
  have hfew : Few (lessons (fun _ => "0") briefSession) := by
    intro t name
    rw [hlessons, Topic.total_eq]
    have hsum := List.sum_le_card_nsmul ((t.among name ["kung x", "kung x"]).map (t.weight name)) 1 fun n hn => by
      obtain ⟨code, hcode, rfl⟩ := List.mem_map.1 hn
      have hx : code = "kung x" := by simpa using (List.mem_filter.1 hcode).1
      rw [hx]
      exact hweight t name
    have hlength : (t.among name ["kung x", "kung x"]).length ≤ 2 := List.length_filter_le ..
    have hlimit : 2 < Value.countLimit := by decide +kernel
    rw [List.length_map, smul_eq_mul, mul_one] at hsum
    omega
  have hplain : ∀ r ∈ briefSession, r.Plain := by
    have hnull : Value.null.IsDocument := ⟨rfl, rfl⟩
    simp only [briefSession, List.forall_mem_cons, Request.Plain]
    exact ⟨⟨Value.isDocument_str _, hnull⟩, trivial, hnull, List.forall_mem_nil _⟩
  obtain ⟨k₀, vs, k, w', hopen, hserved, snippets, notes, _, hsnippets, hnotes, -, -, hclosed, -, -⟩ :=
    no_reference_is_open usualPlace (w := {}) usualPlace.holds_nil (fun _ => "0") briefSession hplain hfew
  have hnoted := (hclosed.noted .concept).present "conditional"
  rw [hlessons, hamong, htotal] at hnoted
  obtain ⟨hashes, hnote, hlength, hknown⟩ := hnoted (List.cons_ne_nil _ _)
  exact ⟨k₀, vs, k, w', snippets, notes .concept, hashes, hopen, hserved, hsnippets, hnotes, hnote, hlength, hknown⟩

end Knowledge

end Transfer

end GzLang
