import GzLang.Pattern.Template

/-!
# What patterns match

`Pattern.Derives p g w h` reads a pattern as a regular expression with a memory: it can match the
text `w`, and what is remembered goes from `g` to `h`. The matcher only finds such texts
(`sound_run`), so every match in a text has a derivation (`derives_of_mem_findAll`). The
pieces into which a text is cut make up the text (`text_pieces`), and a text in which a pattern
does not occur stays as it is (`replace_of_not_occursIn`).
-/

namespace GzLang

open List

variable {fuel : Nat}

namespace Pattern

variable {n : Nat} {negated : Bool} {items : List SetItem}
variable {k : Continuation} {s : List Char} {c e : Cursor}

/-- A pattern can match a text, with what is remembered before and after. Places in a text are
taken to be there. -/
inductive Derives : Pattern → List (Nat × List Char) → List Char → List (Nat × List Char) → Prop
  | empty {g : List (Nat × List Char)} : Derives .empty g [] g
  | char {x : Char} {g : List (Nat × List Char)} : Derives (.char x) g [x] g
  | any {x : Char} {g : List (Nat × List Char)} (hx : x ≠ '\n') : Derives .any g [x] g
  | set {negated : Bool} {items : List SetItem} {x : Char} {g : List (Nat × List Char)}
    (hx : ((items.any (·.covers x)) != negated) = true) : Derives (.set negated items) g [x] g
  | seq {p q : Pattern} {g h k : List (Nat × List Char)} {u v : List Char} :
    Derives p g u h → Derives q h v k → Derives (.seq p q) g (u ++ v) k
  | altLeft {p q : Pattern} {g h : List (Nat × List Char)} {w : List Char} :
    Derives p g w h → Derives (.alt p q) g w h
  | altRight {p q : Pattern} {g h : List (Nat × List Char)} {w : List Char} :
    Derives q g w h → Derives (.alt p q) g w h
  | repNil {p : Pattern} {most : Option Nat} {greedy : Bool} {g : List (Nat × List Char)} :
    Derives (.rep p 0 most greedy) g [] g
  | repCons {p : Pattern} {least : Nat} {most : Option Nat} {greedy : Bool}
    {g h k : List (Nat × List Char)} {u v : List Char} (hmost : most ≠ some 0) :
    Derives p g u h → Derives (.rep p (least - 1) (most.map (· - 1)) greedy) h v k →
      Derives (.rep p least most greedy) g (u ++ v) k
  | group {n : Nat} {p : Pattern} {g h : List (Nat × List Char)} {w : List Char} :
    Derives p g w h → Derives (.group n p) g w ((n, w) :: h)
  | backref {n : Nat} {g : List (Nat × List Char)} {w : List Char}
    (hw : (g.find? (·.1 == n)).map (·.2) = some w) : Derives (.backref n) g w g
  | place {p : Pattern} {g : List (Nat × List Char)} (hp : isPlace p = true) : Derives p g [] g

/-! ### Reading derivations -/

section

variable {least : Nat} {k : CharClass}

variable {p q : Pattern} {g h : List (Nat × List Char)} {w : List Char}

theorem derives_char_iff {x : Char} : Derives (.char x) g w h ↔ w = [x] ∧ h = g := by
  constructor
  · intro hd
    cases hd with
    | char => exact ⟨rfl, rfl⟩
    | place hp => cases hp
  · rintro ⟨rfl, rfl⟩
    exact .char

theorem derives_set_iff : Derives (.set negated items) g w h ↔
    ∃ x, w = [x] ∧ ((items.any (·.covers x)) != negated) ∧ h = g := by
  constructor
  · intro hd
    cases hd with
    | set hx => exact ⟨_, rfl, hx, rfl⟩
    | place hp => cases hp
  · rintro ⟨x, rfl, hx, rfl⟩
    exact .set hx

theorem derives_seq_iff : Derives (.seq p q) g w h ↔ ∃ u v k, w = u ++ v ∧ Derives p g u k ∧ Derives q k v h := by
  constructor
  · intro hd
    cases hd with
    | seq hp hq => exact ⟨_, _, _, rfl, hp, hq⟩
    | place hp => cases hp
  · rintro ⟨u, v, k, rfl, hp, hq⟩
    exact .seq hp hq

theorem derives_group_iff : Derives (.group n p) g w h ↔ ∃ k, Derives p g w k ∧ h = (n, w) :: k := by
  constructor
  · intro hd
    cases hd with
    | group hp => exact ⟨_, hp, rfl⟩
    | place hp => cases hp
  · rintro ⟨k, hp, rfl⟩
    exact .group hp

theorem derives_backref_iff : Derives (.backref n) g w h ↔ (g.find? (·.1 == n)).map (·.2) = some w ∧ h = g := by
  constructor
  · intro hd
    cases hd with
    | backref hw => exact ⟨hw, rfl⟩
    | place hp => cases hp
  · rintro ⟨hw, rfl⟩
    exact .backref hw

def literally (s : List Char) (p : Pattern) : Pattern :=
  s.foldr (fun c q => .seq (.char c) q) p

theorem derives_literally_iff : Derives (literally s p) g w h ↔ ∃ v, w = s ++ v ∧ Derives p g v h := by
  induction s generalizing w with
  | nil => simp [literally]
  | cons c s ih =>
    rw [literally, foldr_cons, derives_seq_iff]
    constructor
    · rintro ⟨u, v, k, rfl, hu, hv⟩
      obtain ⟨rfl, rfl⟩ := derives_char_iff.1 hu
      obtain ⟨t, rfl, ht⟩ := ih.1 hv
      exact ⟨t, rfl, ht⟩
    · rintro ⟨v, rfl, hv⟩
      exact ⟨[c], s ++ v, g, rfl, .char, ih.2 ⟨v, rfl, hv⟩⟩

/-- At least so many characters of a class, as many as there are. -/
def repeated (k : CharClass) (least : Nat) : Pattern :=
  .rep (.set false [.named k false]) least none true

theorem derives_rep_iff : Derives (.rep (.set negated items) least none true) g w h ↔
    h = g ∧ least ≤ w.length ∧ ∀ c ∈ w, (items.any (·.covers c) != negated) := by
  constructor
  · intro hd
    generalize hp : Pattern.rep (.set negated items) least none true = p at hd
    induction hd generalizing least with
    | repNil =>
      cases hp
      exact ⟨rfl, Nat.le_refl 0, by simp⟩
    | repCons hmost hu _ _ ih =>
      cases hp
      cases hu with
      | set hx =>
        obtain ⟨rfl, hlen, hall⟩ := ih rfl
        exact ⟨rfl, by rw [singleton_append, length_cons]; omega, forall_mem_cons.2 ⟨hx, hall⟩⟩
      | place hp => cases hp
    | place hplace => subst hp; cases hplace
    | _ => cases hp
  · rintro ⟨rfl, hlen, hall⟩
    induction w generalizing least with
    | nil =>
      obtain rfl : least = 0 := Nat.le_zero.1 hlen
      exact .repNil
    | cons x w ih =>
      rw [forall_mem_cons] at hall
      exact .repCons (by simp) (.set hall.1) (ih (Nat.sub_le_of_le_add hlen) hall.2)

theorem derives_repeated_iff : Derives (repeated k least) g w h ↔ h = g ∧ least ≤ w.length ∧ ∀ c ∈ w, k.holds c := by
  rw [repeated, derives_rep_iff]
  simp [SetItem.covers]

end

/-! ### The matcher is sound -/

/-- A way from a cursor to another one along a text that a pattern can match. -/
structure Leads (p : Pattern) (c d : Cursor) (w : List Char) : Prop where
  rest : c.rest = w ++ d.rest
  left : d.left = d.rest.length
  derives : Derives p c.groups w d.groups

/-- Whatever a matching function finds, it finds at the end of such a way. -/
def Sound (p : Pattern) (step : Cursor → Continuation → Option Cursor) : Prop :=
  ∀ ⦃c k e⦄, c.left = c.rest.length → step c k = some e → ∃ d w, Leads p c d w ∧ k d = some e

theorem left_behind {x : Char} {r : List Char} (hc : c.left = c.rest.length)
    (hr : c.rest = x :: r) : (c.behind x r).left = (c.behind x r).rest.length := by
  simp [Cursor.behind, hc, hr]

theorem sound_one {p : Pattern} {f : Char → Bool} (hp : ∀ x g, f x → Derives p g [x] g) : Sound p (one f) := by
  intro c k e hc h
  unfold one at h
  split at h
  · rename_i x r hr
    split at h
    · rename_i hx
      exact ⟨c.behind x r, [x], ⟨hr, left_behind hc hr, hp x c.groups hx⟩, h⟩
    · cases h
  · cases h

theorem sound_literal (hs : c.group? n = some s) (hc : c.left = c.rest.length) (h : literal s c k = some e) :
    ∃ d, Leads (.backref n) c d s ∧ k d = some e := by
  have hstep (t : List Char) : ∀ c : Cursor, c.left = c.rest.length → literal t c k = some e →
      ∃ d, c.rest = t ++ d.rest ∧ d.left = d.rest.length ∧ d.groups = c.groups ∧ k d = some e := by
    induction t with
    | nil => exact fun c hc h => ⟨c, rfl, hc, rfl, h⟩
    | cons x t ih =>
      intro c hc h
      have hone : Sound (.char x) (one (· == x)) := sound_one fun y g hy => by rw [eq_of_beq hy]; exact .char
      obtain ⟨d, w, ⟨hr, hl, hd⟩, h⟩ := hone hc h
      -- a character remembers nothing
      generalize hg : c.groups = g at hd
      generalize hg' : d.groups = g' at hd
      cases hd with
      | char =>
        obtain ⟨e', hr', hl', hg'', h'⟩ := ih d hl h
        exact ⟨e', by rw [hr, hr']; rfl, hl', by rw [hg'', hg'], h'⟩
      | place hp => cases hp
  obtain ⟨d, hr, hl, hg, hk⟩ := hstep s c hc h
  exact ⟨d, ⟨hr, hl, by rw [hg]; exact .backref hs⟩, hk⟩

/-- Repeating a sound step is sound, as long as the fuel does not run out before the least number
of repetitions. -/
theorem leads_of_repeatStep {p : Pattern} {step : Cursor → Continuation → Option Cursor}
    (hp : Sound p step) {greedy : Bool} {least : Nat} {most : Option Nat} (hc : c.left = c.rest.length) (hfuel : least ≤ fuel)
    (h : repeatStep step greedy fuel least most c k = some e) :
    ∃ d w, Leads (.rep p least most greedy) c d w ∧ k d = some e := by
  induction fuel generalizing least most c with
  | zero =>
    obtain rfl : least = 0 := by omega
    exact ⟨c, [], ⟨rfl, hc, .repNil⟩, h⟩
  | succ fuel ih =>
    have hmore : (if most = some 0 then none else step c fun d =>
          if d.left < c.left || least > 0 then
            repeatStep step greedy fuel (least - 1) (most.map (· - 1)) d k
          else none) = some e →
        ∃ d w, Leads (.rep p least most greedy) c d w ∧ k d = some e := by
      intro h
      split at h
      · cases h
      · rename_i hmost
        obtain ⟨d, u, hd, h⟩ := hp hc h
        split at h
        · obtain ⟨e', v, he, hk⟩ := ih hd.left (by omega) h
          refine ⟨e', u ++ v, ⟨?_, he.left, .repCons hmost hd.derives he.derives⟩, hk⟩
          rw [hd.rest, he.rest, append_assoc]
        · cases h
    have hnil (hleast : ¬ least > 0) (hk : k c = some e) :
        ∃ d w, Leads (.rep p least most greedy) c d w ∧ k d = some e := by
      obtain rfl : least = 0 := by omega
      exact ⟨c, [], ⟨rfl, hc, .repNil⟩, hk⟩
    -- whether it is greedy or not, what is found is found on one of the two ways
    rw [repeatStep] at h
    split at h
    · exact hmore h
    · rename_i hleast
      split at h <;> unfold first at h <;> split at h
      · rename_i d hd
        exact hmore (hd.trans h)
      · exact hnil hleast h
      · rename_i d hd
        exact hnil hleast (hd.trans h)
      · exact hmore h

theorem sound_run (p : Pattern) : Sound p (run p) := by
  induction p with
  | empty => exact fun c k e hc h => ⟨c, [], ⟨rfl, hc, .empty⟩, h⟩
  | char x => exact sound_one fun y g hy => by rw [eq_of_beq hy]; exact .char
  | any => exact sound_one fun y g hy => .any (by simpa using hy)
  | set negated items => exact sound_one fun y g hy => .set hy
  | seq p q ihp ihq =>
    intro c k e hc h
    obtain ⟨d, u, hd, h⟩ := ihp hc h
    obtain ⟨e', v, he, h⟩ := ihq hd.left h
    exact ⟨e', u ++ v, ⟨by rw [hd.rest, he.rest, append_assoc], he.left, .seq hd.derives he.derives⟩, h⟩
  | alt p q ihp ihq =>
    intro c k e hc h
    unfold run first at h
    split at h
    · rename_i d hd
      obtain ⟨d, w, hd, hk⟩ := ihp hc (hd.trans h)
      exact ⟨d, w, ⟨hd.rest, hd.left, .altLeft hd.derives⟩, hk⟩
    · obtain ⟨d, w, hd, hk⟩ := ihq hc h
      exact ⟨d, w, ⟨hd.rest, hd.left, .altRight hd.derives⟩, hk⟩
  | rep p least most greedy ih =>
    exact fun c k e hc h => leads_of_repeatStep ih hc (by omega) h
  | group n p ih =>
    intro c k e hc h
    obtain ⟨d, w, hd, h⟩ := ih hc h
    refine ⟨d.remember n c, w, ⟨hd.rest, hd.left, ?_⟩, h⟩
    -- what is remembered is what lies between the two cursors
    have hw : c.rest.take (c.left - d.left) = w := by
      rw [hc, hd.left, hd.rest]
      simp
    rw [Cursor.remember, hw]
    exact .group hd.derives
  | backref n =>
    intro c k e hc h
    unfold run at h
    split at h
    · rename_i s hs
      obtain ⟨d, hd, hk⟩ := sound_literal hs hc h
      exact ⟨d, s, hd, hk⟩
    · cases h
  | textStart | textEnd | veryEnd | wordEdge =>
    intro c k e hc h
    unfold run at h
    split at h
    · exact ⟨c, [], ⟨rfl, hc, .place rfl⟩, h⟩
    · cases h

/-! ### Pieces of a text -/

end Pattern

def Piece.text : Piece → List Char
  | .found m => m.text
  | .char c => [c]

namespace Pattern

variable {s : List Char}

variable {p : Pattern} {c d : Cursor} {advance : Bool}
variable {m : Match}

/-- What lies between the start and the end of a match is a text that the pattern can match. -/
theorem leads_of_runAt (hc : c.left = c.rest.length) (h : runAt p c advance = some d) :
    Leads p { c with groups := [] } d (c.rest.take (c.left - d.left)) := by
  obtain ⟨d', w, hd, hk⟩ := sound_run p (c := { c with groups := [] }) hc h
  split at hk
  · cases hk
  · cases hk
    have hr : c.rest = w ++ d.rest := hd.rest
    have hw : c.rest.take (c.left - d.left) = w := by
      rw [hc, hd.left, hr]
      simp
    rw [hw]
    exact hd

theorem text_piecesFrom (hc : c.left = c.rest.length) : (piecesFrom p c advance).flatMap Piece.text = c.rest := by
  fun_induction piecesFrom p c advance with
  | case1 c advance d hd m hlt ih =>
    have hlead := leads_of_runAt hc hd
    rw [flatMap_cons, ih hlead.left]
    exact hlead.rest.symm
  | case2 c d hlt hr hd => simp [hr]
  | case3 c d hlt x r hr hd ih =>
    rw [flatMap_cons, ih (left_behind hc hr), hr]
    rfl
  | case4 c advance d hd m hlt hadv ih =>
    -- the match is empty
    have hlen : c.rest.length = m.text.length + d.rest.length := by
      have := congrArg length (leads_of_runAt hc hd).rest
      rwa [length_append] at this
    have hm : m.text = [] := length_eq_zero_iff.1 (by omega)
    rw [flatMap_cons, ih hc, Piece.text, hm, nil_append]
  | case5 c advance hd hr => simp [hr]
  | case6 c advance hd x r hr ih =>
    rw [flatMap_cons, ih (left_behind hc hr), hr]
    rfl

theorem derives_of_mem_piecesFrom (hc : c.left = c.rest.length)
    (hm : Piece.found m ∈ piecesFrom p c advance) : Derives p [] m.text m.groups := by
  fun_induction piecesFrom p c advance with
  | case1 c advance d hd m' hlt ih =>
    have hlead := leads_of_runAt hc hd
    rcases mem_cons.1 hm with he | hm
    · rw [Piece.found.inj he]
      exact hlead.derives
    · exact ih hlead.left hm
  | case2 c d hlt hr hd => cases hm
  | case3 c d hlt x r hr hd ih => exact ih (left_behind hc hr) (by simpa using hm)
  | case4 c advance d hd m' hlt hadv ih =>
    rcases mem_cons.1 hm with he | hm
    · rw [Piece.found.inj he]
      exact (leads_of_runAt hc hd).derives
    · exact ih hc hm
  | case5 c advance hd hr => cases hm
  | case6 c advance hd x r hr ih => exact ih (left_behind hc hr) (by simpa using hm)

theorem piecesFrom_of_searchFrom (hfuel : c.rest.length < fuel)
    (h : searchFrom p fuel c = none) : piecesFrom p c false = c.rest.map .char := by
  induction fuel generalizing c with
  | zero => omega
  | succ fuel ih =>
    rw [searchFrom] at h
    split at h
    · cases h
    · rename_i hrun
      rw [piecesFrom]
      simp only [hrun]
      split at h
      · rename_i hr
        split
        · simp [hr]
        · rename_i hr'
          simp [hr] at hr'
      · rename_i x r hr
        split
        · rename_i hr'
          simp [hr] at hr'
        · rename_i y t hr'
          obtain ⟨rfl, rfl⟩ : x = y ∧ r = t := by simpa [hr] using hr'
          rw [ih (by rw [hr] at hfuel; simpa [Cursor.behind] using hfuel) h, hr]
          rfl

theorem exists_found_of_searchFrom (h : searchFrom p fuel c = some m) : ∃ m', .found m' ∈ piecesFrom p c false := by
  induction fuel generalizing c with
  | zero => cases h
  | succ fuel ih =>
    rw [searchFrom] at h
    rw [piecesFrom]
    cases hrun : runAt p c false with
    | some d =>
      simp only
      split <;> exact ⟨_, mem_cons_self ..⟩
    | none =>
      simp only [hrun] at h ⊢
      split at h
      · cases h
      · rename_i x r hr
        obtain ⟨m', hm'⟩ := ih h
        refine ⟨m', ?_⟩
        split
        · rename_i hr'
          simp [hr] at hr'
        · rename_i y t hr'
          obtain ⟨rfl, rfl⟩ : x = y ∧ r = t := by simpa [hr] using hr'
          exact mem_cons_of_mem _ hm'

theorem text_pieces (p : Pattern) (s : List Char) : (pieces p s).flatMap Piece.text = s := text_piecesFrom rfl

/-- Whatever is found in a text, the pattern can match. -/
theorem derives_of_mem_findAll (hm : m ∈ findAll p s) : Derives p [] m.text m.groups := by
  obtain ⟨x, hx, hxm⟩ := mem_filterMap.1 hm
  cases x with
  | found m' =>
    cases hxm
    exact derives_of_mem_piecesFrom rfl hx
  | char c => cases hxm

theorem mem_findAll (hm : Piece.found m ∈ pieces p s) : m ∈ findAll p s := mem_filterMap.2 ⟨_, hm, rfl⟩

theorem findAll_ne_nil_of_occursIn (h : occursIn p s) : findAll p s ≠ [] := by
  obtain ⟨m, hm⟩ := Option.isSome_iff_exists.1 h
  obtain ⟨m', hm'⟩ := exists_found_of_searchFrom hm
  exact ne_nil_of_mem (mem_findAll hm')

/-- A text in which a pattern does not occur stays as it is. -/
theorem replace_of_not_occursIn (h : occursIn p s = false) (write : Match → List Char) : replace p write s = s := by
  have hnone : search? p s = none := by simpa [occursIn] using h
  have hs : pieces p s = s.map .char := piecesFrom_of_searchFrom (Nat.lt_succ_self _) hnone
  rw [replace, hs, flatMap_map]
  simp

end Pattern

end GzLang
