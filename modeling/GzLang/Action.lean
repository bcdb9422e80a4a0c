import GzLang.Fault

/-!
# Actions

An action changes a state and ends with a result or a fault. What it changed before a fault stays
changed. An action on a part of a state is an action on the whole (`Action.on`).
-/

namespace GzLang

abbrev Action (σ : Type) := ExceptT Fault (StateM σ)

/-- A part of a state: how to read it and how to replace it. -/
structure Part (σ τ : Type) where
  get : σ → τ
  set : τ → σ → σ

namespace Action

def perform (a : Action σ α) (s : σ) : Except Fault α × σ :=
  (ExceptT.run a).run s

def of (f : σ → Except Fault α × σ) : Action σ α :=
  ExceptT.mk fun s => f s

def on (p : Part σ τ) (a : Action τ α) : Action σ α :=
  of fun s =>
    let (r, t) := a.perform (p.get s)
    (r, p.set t s)

def ofExcept (e : Except Fault α) : Action σ α :=
  of fun s => (e, s)

def orElse (a : Action σ α) (handle : Fault → Action σ α) : Action σ α :=
  of fun s =>
    match a.perform s with
    | (.ok r, s) => (.ok r, s)
    | (.error f, s) => (handle f).perform s

def outcome (a : Action σ α) : Action σ (Except Fault α) :=
  of fun s =>
    let (r, s) := a.perform s
    (.ok r, s)

end Action

end GzLang
