import ScopedEffects.Effect.Basic
import ScopedEffects.Machine
import ScopedEffects.Settings

/-! Runners: what turns an effect into a result. A runner has a base provider and settings. Every run
has a context of its own over the base provider, and begins only if that provider binds all keys that
the effect requires. The identifier under which a run is traced is drawn at random, and is left out. -/

namespace ScopedEffects

structure Runner (H : Host) where
  provider : Provider H
  settings : Settings := {}

/-- Why a runner cannot be built. -/
inductive BuildError where
  | missingTokens (keys : List Key)
  | refused (r : Settings.Refusal)
  deriving DecidableEq, Repr

def BuildError.message : BuildError → String
  | .missingTokens keys =>
    "Missing tokens: " ++ Text.quoteList keys ++ ". These tokens were expected but not provided."
  | .refused r => r.message

/-- What a runner is to be built from. -/
structure RunnerPlan (H : Host) where
  provider : Provider H
  settings : Settings := {}
  /-- The keys that the base provider has to bind. -/
  expected : List Key := []

namespace RunnerPlan

variable {H : Host}

/-- Merges a provider into the base; later bindings win. -/
def provide (p : RunnerPlan H) (q : Provider H) : Fresh (RunnerPlan H) :=
  return { p with provider := ← p.provider.merge q }

def missing (p : RunnerPlan H) : List Key := p.expected.filter fun k => !p.provider.contains k

/-- Checks the wiring first and the settings after it. -/
def build (p : RunnerPlan H) : Except BuildError (Runner H) :=
  if !p.missing.isEmpty then .error (.missingTokens p.missing)
  else
    match p.settings.refusal? with
    | some r => .error (.refused r)
    | none => .ok ⟨p.provider, p.settings⟩

end RunnerPlan

/-- How a run ends: with a result, or with a panic that no step has caught. -/
abbrev RunResult (H : Host) (a : Shape H.Plain) : Type :=
  Except Panic (Except (Failure H) (a.El H))

namespace Runner

variable {H : Host} {a : Shape H.Plain}

/-- The keys an effect requires that a context does not provide. -/
def missing (s : Store H) (scope : Scope) (e : Effect H a) : List Key :=
  e.requires.toList.filter fun k => !s.provides scope k

/-- The effect with the deadline of the settings. -/
def withDeadline (r : Runner H) (e : Effect H a) : Effect H a :=
  match r.settings.deadline with
  | some d => e.timeout d
  | none => e

/-- Opens the context of a run and begins the execution, or refuses the run. -/
def launch (r : Runner H) (e : Effect H a) (signal : Signal) (s : Store H) :
    Except (Failure H) (Execution H) × Scope × Store H :=
  let s := s.record (.runOpened r.settings.label)
  let (scope, s) := s.openBase r.provider signal
  let missing := missing s scope e
  if missing.isEmpty then
    let env : Env := ⟨scope, signal, r.settings.defaultConcurrency⟩
    (.ok (.enter (r.withDeadline e).node env), scope, s.record .runStarted)
  else
    (.error (.missingRequirements missing), scope, s.record (.runRefused missing))

/-- What the trace tells of the end of a run. -/
def closing : Exit H → Event
  | .ok _ => .runSucceeded
  | .error f => .runFailed f.display f.key

/-- Runs an effect. Alarms that are due at once ring before the run begins. Nothing is returned when
the run does not end within the given moves and the given time. -/
def run [Tracing H] (schedule : Schedule) (horizon : Clock) (fuel : Nat) (r : Runner H)
    (e : Effect H a) (signal : Signal) (alarms : List Alarm) (s : Store H) :
    Option (RunResult H a) × Store H :=
  match r.launch e signal s with
  | (.error f, scope, s) => (some (.ok (.error f)), s.release scope)
  | (.ok execution, scope, s) =>
    let (_, m) := Machine.run schedule horizon fuel (Machine.ring ⟨s, execution, alarms⟩)
    match m.execution with
    | .settled exit =>
      let s := (m.store.record (closing exit)).release scope
      (some (.ok (exit.bind (Value.take a))), s)
    | .unwound p => (some (.error p), m.store.release scope)
    | _ => (none, m.store)

/-- The panic of a caller that insists on a value. -/
def unwrapped : RunResult H a → Except Panic (a.El H)
  | .error p => .error p
  | .ok (.ok x) => .ok x
  | .ok (.error f) => .error (.text ("effect failed: " ++ f.display))

end Runner

end ScopedEffects
