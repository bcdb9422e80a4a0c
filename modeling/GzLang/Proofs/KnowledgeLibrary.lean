import GzLang.Transfer.Knowledge
import GzLang.Proofs.FilePlace

/-!
# What a knowledge base holds

The document of a knowledge base is that of a library (`Library.document`): snippets of code by their hashes,
notes on the concepts and the kinds of algorithms that code showed, and transformations. Learning a piece of
code is one step of the library (`Library.learn`), and what the knowledge base does from any library is that
step, saved (`perform_learn`). A transformation is two such steps at most (`perform_learnTransformation`).
-/

namespace GzLang

open GzLang.Action Table

namespace Transfer

variable {f : Value → Except Fault Value} {entry : String}

/-! ### Libraries -/

structure Snippet where
  code : String
  metadata : Value
  time : String

def Snippet.of (code : String) (metadata : Value) (time : String) : Snippet := ⟨code, metadata.orEmpty, time⟩

def Snippet.document (s : Snippet) : Value :=
  .dict [("code", .str s.code), ("concepts", countsValue (conceptsOf s.code)),
    ("algorithm_type", .str (algorithmOf s.code)), ("metadata", s.metadata), ("timestamp", .str s.time)]

inductive Topic where
  | concept
  | algorithm
  deriving DecidableEq

def Topic.part : Topic → String
  | .concept => "concepts"
  | .algorithm => "algorithms"

def Topic.countName : Topic → String
  | .concept => "total_occurrences"
  | .algorithm => "count"

/-- A note: the hashes of the first pieces of code that it is about, and a number. -/
structure Note where
  examples : List String := []
  count : Nat := 0

def Note.document (t : Topic) (n : Note) : Value :=
  .dict [("examples", Value.texts n.examples), (t.countName, .int n.count)]

def Note.add (n : Note) (hash : String) (count : Nat) : Note where
  examples := if n.examples.length < 5 then n.examples ++ [hash] else n.examples
  count := n.count + count

/-- A transformation from one snippet to another, by their hashes. -/
structure Transformation where
  source : String
  target : String
  kind : Value
  metadata : Value
  time : String

def Transformation.document (t : Transformation) : Value :=
  .dict [("source_hash", .str t.source), ("target_hash", .str t.target), ("transformation_type", t.kind),
    ("metadata", t.metadata), ("timestamp", .str t.time)]

structure Library where
  snippets : Table Snippet := []
  notes : Topic → Table Note := fun _ => []
  transformations : List Transformation := []

variable {t : Topic}

namespace Library

variable (b : Library)

def snippetItems : Table Value := b.snippets.map fun e => (e.1, e.2.document)

def noteItems (t : Topic) : Table Value := (b.notes t).map fun e => (e.1, e.2.document t)

def transformationItems : List Value := b.transformations.map Transformation.document

def document : Value :=
  .dict [("code_snippets", .dict b.snippetItems), ("concepts", .dict (b.noteItems .concept)),
    ("algorithms", .dict (b.noteItems .algorithm)), ("patterns", .dict []),
    ("transformations", .list b.transformationItems)]

def withNotes (t : Topic) (ns : Table Note) : Library := { b with notes := Function.update b.notes t ns }

def note (t : Topic) (entry hash : String) (count : Nat) : Library :=
  b.withNotes t ((b.notes t).put entry ((((b.notes t).get? entry).getD {}).add hash count))

def keep (hash : String) (s : Snippet) : Library := { b with snippets := b.snippets.put hash s }

def noteConcepts (hash : String) (counts : Table Nat) : Library :=
  counts.foldl (fun b e => b.note .concept e.1 hash e.2) b

def noteAlgorithm (hash name : String) : Library :=
  if name ≠ unknownAlgorithm then b.note .algorithm name hash 1 else b

def learn (hash : String) (s : Snippet) : Library :=
  ((b.keep hash s).noteConcepts hash (conceptsOf s.code)).noteAlgorithm hash (algorithmOf s.code)

theorem learn_of_unknown {hash : String} {s : Snippet} (h : algorithmOf s.code = unknownAlgorithm) :
    b.learn hash s = (b.keep hash s).noteConcepts hash (conceptsOf s.code) := by
  rw [learn, noteAlgorithm, if_neg (not_not.2 h)]

theorem learn_of_known {hash : String} {s : Snippet} (h : algorithmOf s.code ≠ unknownAlgorithm) :
    b.learn hash s = ((b.keep hash s).noteConcepts hash (conceptsOf s.code)).note .algorithm
      (algorithmOf s.code) hash 1 := by
  rw [learn, noteAlgorithm, if_pos h]

def learnIfNew (hash : String) (s : Snippet) : Library := if b.snippets.has hash then b else b.learn hash s

def transform (t : Transformation) : Library := { b with transformations := b.transformations ++ [t] }

/-! ### Changes of the document -/

@[simp] theorem notes_withNotes (t : Topic) (ns : Table Note) : (b.withNotes t ns).notes t = ns :=
  Function.update_self ..

theorem withNotes_withNotes (t : Topic) (ns ns' : Table Note) :
    (b.withNotes t ns).withNotes t ns' = b.withNotes t ns' := by
  simp only [withNotes, Function.update_idem]

theorem item_part (t : Topic) : b.document.item t.part = .ok (.dict (b.noteItems t)) := by
  cases t <;> rfl

theorem get?_noteItems (t : Topic) (entry : String) :
    get? (b.noteItems t) entry = ((b.notes t).get? entry).map (Note.document t) :=
  get?_map ..

theorem noteItems_put (t : Topic) (entry : String) (n : Note) :
    (b.noteItems t).put entry (n.document t) = (b.withNotes t ((b.notes t).put entry n)).noteItems t := by
  rw [noteItems, noteItems, notes_withNotes, put_map]

theorem changeItem_part {n : Note}
    (h : f (.dict (b.noteItems t)) = .ok (.dict ((b.noteItems t).put entry (n.document t)))) :
    b.document.changeItem t.part f = .ok (b.withNotes t ((b.notes t).put entry n)).document := by
  rw [noteItems_put] at h
  cases t with
  | concept =>
    show (f (.dict (b.noteItems .concept)) >>= fun x => b.document.withItem "concepts" x) = _
    rw [h]
    rfl
  | algorithm =>
    show (f (.dict (b.noteItems .algorithm)) >>= fun x => b.document.withItem "algorithms" x) = _
    rw [h]
    rfl

theorem changeItem_entry {n n' : Note}
    (hn : (b.notes t).get? entry = some n) (h : f (n.document t) = .ok (n'.document t)) :
    b.document.changeItem t.part (fun p => p.changeItem entry f) =
      .ok (b.withNotes t ((b.notes t).put entry n')).document := by
  refine b.changeItem_part (Value.changeItem_dict ?_ h)
  rw [get?_noteItems, hn]
  rfl

theorem changeItem_snippets (hash : String) (s : Snippet) :
    b.document.changeItem "code_snippets" (fun p => p.withItem hash s.document) = .ok (b.keep hash s).document := by
  show Except.ok (Value.dict _) = _
  rw [document, snippetItems, keep, snippetItems, ← put_map]
  rfl

theorem changeItem_transformations (t : Transformation) :
    b.document.changeItem "transformations" (fun ts => ts.pushed t.document) = .ok (b.transform t).document := by
  show Except.ok (Value.dict _) = _
  rw [document, transformationItems, transform, transformationItems, List.map_append]
  rfl

end Library

open Library

/-! ### Vectors -/

theorem length_normals (n : Nat) (t : Random.Twister) : (Random.normals n t).length = n := by
  induction n using Nat.twoStepInduction generalizing t with
  | zero => rfl
  | one => rfl
  | more n ih _ => rw [Random.normals, List.length_cons, List.length_cons, ih]

theorem length_embed (dimension : Nat) (text : String) : (embed dimension text).length = dimension := by
  rw [embed, List.length_map, length_normals]

namespace Space

variable (s : Space) (code : String)

def Even : Prop := ∀ e ∈ s.codes, e.2.length = s.dimension

structure Extends (s s' : Space) : Prop where
  digest : s'.digest = s.digest
  dimension : s'.dimension = s.dimension
  even : s.Even → s'.Even

theorem Extends.refl : s.Extends s := ⟨rfl, rfl, id⟩

theorem Extends.trans {s s' s'' : Space} (h : s.Extends s') (h' : s'.Extends s'') : s.Extends s'' :=
  ⟨h'.digest.trans h.digest, h'.dimension.trans h.dimension, h'.even ∘ h.even⟩

theorem extends_code : s.Extends (s.code code).2 := by
  rw [Space.code]
  cases get? s.codes (s.digest code) with
  | some x => exact .refl s
  | none =>
    refine ⟨rfl, rfl, fun h e he => ?_⟩
    rcases mem_put he with he | rfl
    · exact h e he
    · exact length_embed s.dimension code

theorem length_code {s : Space} (h : s.Even) (code : String) : (s.code code).1.length = s.dimension := by
  rw [Space.code]
  cases hx : get? s.codes (s.digest code) with
  | some x => exact h _ (mem_of_get?_eq hx)
  | none => exact length_embed s.dimension code

end Space

/-! ### Learning -/

namespace Knowledge

variable {k : Knowledge} {b : Library} {w : World}

theorem perform_part (k : Knowledge) (w : World) (name : String) :
    (part name).perform (k, w) = (k.base.item name, (k, w)) := by
  rw [part, bind_self]
  rfl

theorem perform_change {name : String} {v : Value} (h : k.base.changeItem name f = .ok v) (w : World) :
    (change name f).perform (k, w) = (.ok (), ({ k with base := v }, w)) := by
  rw [change, bind_self, bind_lift h]
  rfl

theorem perform_hash (k : Knowledge) (w : World) (code : String) :
    (hash code).perform (k, w) = (.ok (k.space.digest code), (k, w)) := rfl

theorem perform_addToNote (hbase : k.base = b.document) {n : Note}
    (hn : (b.notes t).get? entry = some n) (hash : String) (count : Nat) : ((do
      let examples ← (← (← part t.part).item entry).item "examples"
      if (← examples.size) < 5 then
        change t.part fun p => p.changeItem entry fun e =>
          e.changeItem "examples" fun xs => xs.pushed (.str hash)
      change t.part fun p => p.changeItem entry fun e =>
        e.changeItem t.countName fun m => m.add (.int count)) : Task Knowledge Unit).perform (k, w) =
      (.ok (), ({ k with base := (b.withNotes t ((b.notes t).put entry (n.add hash count))).document }, w)) := by
  have hentry : (Value.dict (b.noteItems t)).item entry = .ok (n.document t) := Value.item_map _ hn
  have hpart : (part t.part).perform (k, w) = (.ok (.dict (b.noteItems t)), (k, w)) := by
    rw [perform_part, hbase, b.item_part]
  have hexamples : (n.document t).item "examples" = .ok (Value.texts n.examples) := rfl
  have hcount (es : List String) : (Note.document t ⟨es, n.count⟩).changeItem t.countName
      (fun m => m.add (.int count)) = .ok (Note.document t ⟨es, n.count + count⟩) := by
    cases t <;> rfl
  rw [bind_of_ok hpart, bind_lift hentry, bind_lift hexamples, bind_lift (Value.size_texts _), Note.add]
  by_cases hfew : n.examples.length < 5
  · have hpush : (n.document t).changeItem "examples" (fun xs => xs.pushed (.str hash)) =
        .ok (Note.document t ⟨n.examples ++ [hash], n.count⟩) := by
      show ((Value.texts n.examples).pushed (.str hash) >>= fun x => (n.document t).withItem "examples" x) = _
      rw [Value.pushed_texts]
      rfl
    have hfirst := b.changeItem_entry (f := fun e => e.changeItem "examples" fun xs => xs.pushed (.str hash)) hn hpush
    have hsecond := (b.withNotes t ((b.notes t).put entry ⟨n.examples ++ [hash], n.count⟩)).changeItem_entry
      (f := fun e => e.changeItem t.countName fun m => m.add (.int count))
      (by rw [notes_withNotes, get?_put_self]) (hcount (n.examples ++ [hash]))
    rw [← hbase] at hfirst
    rw [if_pos hfew, if_pos hfew, bind_of_ok (perform_change hfirst w), perform_change hsecond w,
      withNotes_withNotes, notes_withNotes, put_put]
  · have honly := b.changeItem_entry (f := fun e => e.changeItem t.countName fun m => m.add (.int count)) hn
      (hcount n.examples)
    rw [← hbase] at honly
    rw [if_neg hfew, if_neg hfew]
    exact perform_change honly w

theorem perform_addExample (hbase : k.base = b.document) (t : Topic) (entry hash : String) (count : Nat) :
    (addExample t.part entry hash t.countName count).perform (k, w) =
      (.ok (), ({ k with base := (b.note t entry hash count).document }, w)) := by
  have hpart : (part t.part).perform (k, w) = (.ok (.dict (b.noteItems t)), (k, w)) := by
    rw [perform_part, hbase, b.item_part]
  rw [addExample, bind_of_ok hpart, bind_lift (Value.has_dict _ _), has, b.get?_noteItems, note]
  cases hn : (b.notes t).get? entry with
  | none =>
    have hnew : k.base.changeItem t.part (fun p =>
        p.withItem entry (.dict [("examples", .list []), (t.countName, .int 0)])) =
        .ok (b.withNotes t ((b.notes t).put entry {})).document := by
      rw [hbase]
      exact b.changeItem_part rfl
    refine (bind_of_ok (perform_change hnew w) _).trans ?_
    refine (perform_addToNote rfl (by rw [notes_withNotes, get?_put_self]) hash count).trans ?_
    rw [withNotes_withNotes, notes_withNotes, put_put]
    rfl
  | some n => exact perform_addToNote hbase hn hash count

theorem perform_noteConcepts (hbase : k.base = b.document) {hash : String} {f : String × Nat → Task Knowledge Unit}
    (hf : ∀ e, f e = addExample "concepts" e.1 hash "total_occurrences" e.2) (counts : Table Nat) :
    (counts.forM f).perform (k, w) = (.ok (), ({ k with base := (b.noteConcepts hash counts).document }, w)) := by
  induction counts generalizing k b with
  | nil =>
    show (Except.ok (), (k, w)) = _
    rw [noteConcepts, List.foldl_nil, ← hbase]
  | cons e counts ih =>
    have hfirst : (f e).perform (k, w) = (.ok (), ({ k with base := (b.note .concept e.1 hash e.2).document }, w)) := by
      rw [hf]
      exact perform_addExample hbase .concept e.1 hash e.2
    exact (bind_of_ok hfirst _).trans (ih rfl)

theorem perform_vector (k : Knowledge) (w : World) (code : String) :
    (vector code).perform (k, w) = (.ok (k.space.code code).1, ({ k with space := (k.space.code code).2 }, w)) := rfl

variable {p : FilePlace} {filed : Option Value}

theorem perform_save (hpath : k.path = p.path) (hholds : p.Holds filed w.disk) :
    ∃ d, save.perform (k, w) = (.ok (), (k, w.withDisk d)) ∧ p.Holds (some k.base) d := by
  obtain ⟨d, hwrite, hholds'⟩ := hholds.perform_saveQuietly k.base
  rw [← hpath] at hwrite
  refine ⟨d, ?_, hholds'⟩
  rw [save, bind_self]
  exact (Task.perform_lift _ k w).trans (by rw [hwrite])

def lessonAnswer (hash code : String) : Value :=
  .dict [("code_hash", .str hash), ("concepts", countsValue (conceptsOf code)),
    ("algorithm_type", .str (algorithmOf code))]

/-- The end of a lesson: the vector of the code is drawn, and the knowledge is saved. -/
theorem perform_finishLesson (hpath : k.path = p.path) (hholds : p.Holds filed w.disk) (code : String) (v : Value) :
    ∃ d, ((do
        let _ ← vector code
        save
        return v) : Task Knowledge Value).perform (k, w) =
        (.ok v, ({ k with space := (k.space.code code).2 }, w.withDisk d)) ∧ p.Holds (some k.base) d := by
  obtain ⟨d, hsave, hholds'⟩ := perform_save (k := { k with space := (k.space.code code).2 }) hpath hholds
  refine ⟨d, ?_, hholds'⟩
  rw [bind_of_ok (perform_vector k w code), bind_of_ok hsave]
  rfl

/-- Learning a piece of code is one step of the library, which is saved. -/
theorem perform_learn (hbase : k.base = b.document) (hpath : k.path = p.path) (hholds : p.Holds filed w.disk)
    (code : String) (metadata : Value) :
    ∃ d, (learn (.str code) metadata).perform (k, w) = (.ok (lessonAnswer (k.space.digest code) code),
        ({ k with base := (b.learn (k.space.digest code) (Snippet.of code metadata w.timeText)).document,
                  space := (k.space.code code).2 }, w.withDisk d)) ∧
      p.Holds (some (b.learn (k.space.digest code) (Snippet.of code metadata w.timeText)).document) d := by
  generalize hhash : k.space.digest code = h
  generalize hsnippet : Snippet.of code metadata w.timeText = s
  generalize hlearned : b.learn h s = b'
  have htext : codeText (.str code) = .ok code := rfl
  have hcode : s.code = code := by rw [← hsnippet]; rfl
  have htime : Job.timestamp.perform w = (.ok s.time, w) := by rw [← hsnippet]; exact Job.perform_timestamp w
  have hkept : k.base.changeItem "code_snippets" (fun v => v.withItem h (.dict [("code", .str code),
      ("concepts", countsValue (conceptsOf code)), ("algorithm_type", .str (algorithmOf code)),
      ("metadata", if metadata.isTrue = true then metadata else .dict []), ("timestamp", .str s.time)])) =
      .ok (b.keep h s).document := by
    rw [hbase, ← b.changeItem_snippets h s, ← hsnippet]
    rfl
  obtain ⟨d, hfinish, hholds'⟩ := perform_finishLesson (k := { k with base := b'.document }) hpath hholds code
    (lessonAnswer h code)
  refine ⟨d, ?_, hholds'⟩
  rw [learn, bind_lift htext, bind_of_ok (perform_hash k w code), hhash, Task.bind_lift htime]
  dsimp only
  rw [bind_of_ok (perform_change hkept w), bind_of_ok (perform_noteConcepts rfl (fun _ => rfl) (conceptsOf code))]
  by_cases hname : algorithmOf code = unknownAlgorithm
  · rw [if_neg (not_not.2 hname)]
    rw [b.learn_of_unknown (by rw [hcode, hname]), hcode] at hlearned
    rw [hlearned]
    exact hfinish
  · rw [if_pos hname]
    rw [b.learn_of_known (by rwa [hcode]), hcode] at hlearned
    refine (bind_of_ok (perform_addExample rfl .algorithm (algorithmOf code) h 1) _).trans ?_
    rw [hlearned]
    exact hfinish

theorem perform_learnIfNew (hbase : k.base = b.document) (hpath : k.path = p.path) (hholds : p.Holds filed w.disk)
    (code : String) :
    ∃ d space filed', (learnIfNew code).perform (k, w) = (.ok (),
        ({ k with base := (b.learnIfNew (k.space.digest code) (.of code .null w.timeText)).document, space },
          w.withDisk d)) ∧
      p.Holds filed' d ∧ k.space.Extends space := by
  have hpart : (part "code_snippets").perform (k, w) = (.ok (.dict b.snippetItems), (k, w)) := by
    rw [perform_part, hbase]
    rfl
  have hhas : (Value.dict b.snippetItems).has (k.space.digest code) = .ok (b.snippets.has (k.space.digest code)) :=
    congrArg _ (has_map ..)
  rw [learnIfNew, bind_of_ok hpart, bind_of_ok (perform_hash k w code), bind_lift hhas, Library.learnIfNew]
  cases b.snippets.has (k.space.digest code) with
  | true =>
    refine ⟨w.disk, k.space, filed, ?_, hholds, .refl _⟩
    rw [if_pos rfl, ← hbase]
    rfl
  | false =>
    obtain ⟨d, hlearn, hholds'⟩ := perform_learn hbase hpath hholds code .null
    refine ⟨d, _, _, ?_, hholds', k.space.extends_code code⟩
    rw [Bool.not_false, if_pos rfl, bind_of_ok hlearn]
    rfl

/-- Learning a transformation takes it in and learns what of its two sides is new, and all of it is saved. -/
theorem perform_learnTransformation (hbase : k.base = b.document) (hpath : k.path = p.path)
    (hholds : p.Holds filed w.disk) {source target : String} {kind metadata : Value} {t : Transformation} {b' : Library}
    (ht : t = ⟨k.space.digest source, k.space.digest target, kind, metadata.orEmpty, w.timeText⟩)
    (hb' : b' = ((b.transform t).learnIfNew t.source (.of source .null t.time)).learnIfNew t.target
      (.of target .null t.time)) :
    ∃ d space, (learnTransformation (.str source) (.str target) kind metadata).perform (k, w) =
        (.ok t.document, ({ k with base := b'.document, space }, w.withDisk d)) ∧
      p.Holds (some b'.document) d ∧ k.space.Extends space := by
  subst ht hb'
  have hsource : codeText (.str source) = .ok source := rfl
  have htarget : codeText (.str target) = .ok target := rfl
  have htaken := b.changeItem_transformations
    ⟨k.space.digest source, k.space.digest target, kind, metadata.orEmpty, w.timeText⟩
  rw [← hbase] at htaken
  obtain ⟨d₁, space₁, filed₁, hfirst, hholds₁, hextends₁⟩ := perform_learnIfNew (w := w)
    (k := { k with base := _ }) rfl hpath hholds source
  obtain ⟨d₂, space₂, filed₂, hsecond, hholds₂, hextends₂⟩ := perform_learnIfNew (w := w.withDisk d₁)
    (k := { k with base := _, space := space₁ }) rfl hpath hholds₁ target
  obtain ⟨d, hsave, hholds'⟩ := perform_save (w := w.withDisk d₂) (k := { k with base := _, space := space₂ })
    hpath hholds₂
  rw [hextends₁.digest] at hsecond
  refine ⟨d, space₂, ?_, hholds', hextends₁.trans hextends₂⟩
  rw [learnTransformation, bind_lift hsource, bind_lift htarget,
    Task.bind_lift (Job.perform_timestamp w), bind_of_ok (perform_hash k w source),
    bind_of_ok (perform_hash k w target)]
  refine (bind_of_ok (perform_change htaken w) _).trans ?_
  refine (bind_of_ok hfirst _).trans ?_
  refine (bind_of_ok hsecond _).trans ?_
  exact bind_of_ok hsave _

end Knowledge

end Transfer

end GzLang
