import GzLang.Proofs.Interface

/-!
# Lines and the texts that are read as them

The lines of a source are numbered upwards, and each has some code as its content (`isRead_ofSource`). Every list of
such lines can be written as a text that is read as this list (`ofSource_toSource`): each content behind as many spaces
as its indent says, on the line of its number, and nothing on the lines between.
-/

namespace GzLang.Line

open GzLang.Text List

/-- Lines with code as their contents, numbered upwards from one. -/
structure IsRead (ls : List Line) : Prop where
  code : ∀ l ∈ ls, Code l.content
  pos : ∀ l ∈ ls, 1 ≤ l.number
  increasing : ls.Pairwise (·.number < ·.number)

/-! ### Lines that are read -/

theorem isPrefix_beforeComment (s : List Char) : beforeComment s <+: s := by
  rw [beforeComment]
  split
  · rename_i hcut
    rw [eq_append_of_cutFirst hcut]
    exact prefix_append ..
  · exact prefix_rfl

theorem not_infix_beforeComment (s : List Char) : ¬ ['/', '/'] <:+: beforeComment s := by
  induction s with
  | nil => decide
  | cons c s ih =>
    cases hcomment : ['/', '/'].isPrefixOf (c :: s) with
    | true =>
      obtain ⟨r, hr⟩ := isPrefixOf_iff_prefix.1 hcomment
      rw [← hr, show beforeComment (['/', '/'] ++ r) = [] from rfl]
      decide
    | false =>
      rw [beforeComment_cons hcomment, infix_cons_iff, not_or]
      refine ⟨fun hp => ?_, ih⟩
      rw [List.isPrefixOf_iff_prefix.2 (hp.trans (prefix_cons_inj c |>.2 (isPrefix_beforeComment s)))] at hcomment
      cases hcomment

theorem solid_trim {s : List Char} (h : trim s ≠ []) : Solid (trim s) := by
  rcases blank_or_exists s with hs | ⟨l, c, r, rfl, hl, hc⟩
  · exact absurd (trim_of_blank hs) h
  · obtain ⟨a, v, hr, ha, hv⟩ := exists_solid hc r
    rwa [hr, trim_around ha hl hv]

theorem of_read? {n : Nat} {s : List Char} {l : Line} (hs : '\n' ∉ s) (h : read? n s = some l) :
    l.number = n ∧ Code l.content := by
  simp only [read?] at h
  split at h
  · cases h
  · rename_i hne
    cases h
    have hpart : trim (beforeComment s) <:+: beforeComment s := by
      obtain ⟨u, v, -, -, he⟩ := exists_blanks_around (beforeComment s)
      exact ⟨u, v, by rw [append_assoc, ← he]⟩
    refine ⟨rfl, ⟨?_, ?_⟩, ?_⟩ <;> rw [String.toList_ofList]
    · exact fun hmem => hs ((isPrefix_beforeComment s).subset (hpart.subset hmem))
    · exact fun hc => not_infix_beforeComment s (hc.trans hpart)
    · exact solid_trim fun hnil => hne (by rw [hnil]; rfl)

theorem increasing_readAll (k : Nat) {texts : List (List Char)} (h : ∀ s ∈ texts, '\n' ∉ s) :
    (∀ l ∈ readAll k texts, k ≤ l.number ∧ Code l.content) ∧ (readAll k texts).Pairwise (·.number < ·.number) := by
  induction texts generalizing k with
  | nil => exact ⟨by simp [readAll], .nil⟩
  | cons s texts ih =>
    rw [forall_mem_cons] at h
    obtain ⟨hall, hpairs⟩ := ih (k + 1) h.2
    have hlater : ∀ l ∈ readAll (k + 1) texts, k ≤ l.number ∧ Code l.content := fun l hl =>
      ⟨Nat.le_of_succ_le (hall l hl).1, (hall l hl).2⟩
    rw [readAll_cons]
    cases hread : read? k s with
    | none => exact ⟨hlater, hpairs⟩
    | some l =>
      obtain ⟨rfl, hcode⟩ := of_read? h.1 hread
      exact ⟨forall_mem_cons.2 ⟨⟨Nat.le_refl _, hcode⟩, hlater⟩, .cons (fun m hm => (hall m hm).1) hpairs⟩

theorem isRead_ofSource (code : String) : IsRead (ofSource code) := by
  obtain ⟨hall, hpairs⟩ := increasing_readAll 1 fun s (hs : s ∈ lines code.toList) => not_mem_of_mem_splitAll hs
  exact ⟨fun l hl => (hall l hl).2, fun l hl => (hall l hl).1, hpairs⟩

/-! ### Lines that are written -/

def text (l : Line) : String :=
  String.ofList (replicate l.indent ' ') ++ l.content

/-- The texts of lines from a number on, with nothing on the lines between. -/
def textsFrom (n : Nat) : List Line → List String
  | [] => []
  | l :: ls => replicate (l.number - n) "" ++ l.text :: textsFrom (l.number + 1) ls

def toSource (ls : List Line) : String :=
  String.intercalate "\n" (textsFrom 1 ls)

theorem read?_text {l : Line} (h : Code l.content) : read? l.number l.text.toList = some l := by
  have hblank : ∀ c ∈ replicate l.indent ' ', isBlank c = true := fun c hc => by
    rw [eq_of_mem_replicate hc]
    rfl
  have hcode : beforeComment l.text.toList = replicate l.indent ' ' ++ (l.content.toList ++ []) := by
    rw [text, String.toList_append, String.toList_ofList, beforeComment_append (slash_not_mem_of_blank hblank),
      beforeComment_of_inline h.inline, append_nil]
  rw [read?_of_around h.solid hblank (by simp) hcode, length_replicate, String.ofList_toList]

theorem readAll_replicate (n k : Nat) : readAll n (replicate k []) = [] := by
  induction k generalizing n with
  | zero => rfl
  | succ k ih =>
    rw [replicate_succ, readAll_cons, ih]
    rfl

theorem readAll_textsFrom {ls : List Line} {n : Nat} (hcode : ∀ l ∈ ls, Code l.content) (hn : ∀ l ∈ ls, n ≤ l.number)
    (h : ls.Pairwise (·.number < ·.number)) : readAll n ((textsFrom n ls).map String.toList) = ls := by
  induction ls generalizing n with
  | nil => rfl
  | cons l ls ih =>
    rw [pairwise_cons] at h
    rw [forall_mem_cons] at hcode hn
    have hnumber : n + (l.number - n) = l.number := by omega
    rw [textsFrom, map_append, map_replicate, map_cons, readAll_append, String.toList_empty, readAll_replicate,
      length_replicate, hnumber, readAll_cons, read?_text hcode.1, ih hcode.2 h.1 h.2]
    rfl

theorem newline_not_mem_textsFrom {ls : List Line} (h : ∀ l ∈ ls, Code l.content) (n : Nat) :
    ∀ s ∈ textsFrom n ls, '\n' ∉ s.toList := by
  induction ls generalizing n with
  | nil => simp [textsFrom]
  | cons l ls ih =>
    rw [forall_mem_cons] at h
    rw [textsFrom, forall_mem_append, forall_mem_cons]
    refine ⟨fun s hs => ?_, ?_, ih h.2 _⟩
    · rw [eq_of_mem_replicate hs]
      decide
    · rw [text, String.toList_append, String.toList_ofList, mem_append, not_or]
      exact ⟨fun hmem => absurd (eq_of_mem_replicate hmem) (by decide), h.1.inline.oneLine⟩

theorem ofSource_toSource {ls : List Line} (h : IsRead ls) : ofSource (toSource ls) = ls := by
  cases ls with
  | nil => cbv
  | cons l ls =>
    have hne : textsFrom 1 (l :: ls) ≠ [] := by simp [textsFrom]
    show readAll 1 (lines (toSource (l :: ls)).toList) = _
    rw [toSource, lines_intercalate hne (newline_not_mem_textsFrom h.code 1)]
    exact readAll_textsFrom h.code h.pos h.increasing

/-- Reading and writing lines: what is read is always a list of lines with code, numbered upwards, and exactly these
lists are read back from what is written for them. -/
theorem lines_are_read_back : (∀ code, IsRead (ofSource code)) ∧ (∀ ls, ofSource (toSource ls) = ls ↔ IsRead ls) ∧
    ∀ code, ofSource (toSource (ofSource code)) = ofSource code :=
  ⟨isRead_ofSource, fun ls => ⟨fun h => h ▸ isRead_ofSource (toSource ls), ofSource_toSource⟩, fun code =>
    ofSource_toSource (isRead_ofSource code)⟩

end GzLang.Line
