import GzLang.Assistant.Work
import GzLang.Ensemble

/-!
# The compiler's aide

The compiler learns, corrects and optimizes with the help of an assistant, or of an ensemble where
no assistant is installed. An ensemble cannot generate or explain code and does not share what it
learns.
-/

namespace GzLang.Command

inductive Aide where
  | assistant (a : Assistant)
  | ensemble (e : Ensemble)

inductive AideKind where
  | assistant
  | ensemble
  deriving DecidableEq, Repr

namespace Aide

def act (onAssistant : Task Assistant α) (onEnsemble : Task Ensemble α) : Task Aide α :=
  Action.of fun (aide, w) =>
    match aide with
    | .assistant a =>
      let (r, (a, w)) := onAssistant.perform (a, w)
      (r, (.assistant a, w))
    | .ensemble e =>
      let (r, (e, w)) := onEnsemble.perform (e, w)
      (r, (.ensemble e, w))

/-- The fault of asking an ensemble for something that it cannot do. -/
def cannot (operation : String) : Task Ensemble α :=
  throw (.noOperation (.object "AICapabilities") operation)

def start (kind : AideKind) (config : Value) : Job Aide := do
  let aide ← match kind with
    | .assistant => Aide.assistant <$> Assistant.open true config
    | .ensemble => do pure (Aide.ensemble (← Ensemble.ofConfig config))
  Task.start aide do
    let _ ← act Assistant.setUp Ensemble.setUp

def process (code context : Value) : Task Aide Value :=
  act (Assistant.process code context) (Ensemble.process code context)

def correct (code : Value) : Task Aide Value :=
  act (Assistant.correct code .null) (Ensemble.correct code .null)

def optimize (code level : Value) : Task Aide Value :=
  act (Assistant.optimize code level) (Ensemble.optimize code level)

def generate (description : Value) : Task Aide Value :=
  act (Assistant.generate description) (cannot "generate_code")

def explain (code : Value) : Task Aide Value :=
  act (Assistant.explain code) (cannot "explain_code")

def stats : Task Aide Value := act Assistant.stats Ensemble.stats

def evolution : Task Aide (Option Value) :=
  act (some <$> Assistant.evolution) (pure none)

/-- Push what was learned, and say whether that could be done; nothing if the aide does not share. -/
def push : Task Aide (Option Bool) :=
  act (Task.ifThere Assistant.collectivePart Collective.forceUpdate) (pure none)

def shares : Aide → Bool
  | .assistant a => a.collective.isSome
  | .ensemble _ => false

def shutDown : Task Aide Unit := act Assistant.shutDown Ensemble.shutDown

end Aide

end GzLang.Command
