import ScopedEffects.Execution.Enter
import ScopedEffects.Tracing

/-! How steps go on when their inner effect has settled. -/

namespace ScopedEffects

open Execution

variable {H : Host}

/-- What a continuation goes on with, as an execution. -/
def Next.execution (env : Env) : Next H (Node H) → Execution H
  | .value v => settled (.ok v)
  | .fail f => settled (.error f)
  | .program p => ofProgram env p
  | .effect n => enter n env

/-- How a step settles whose finalizer has settled. A failed inner effect keeps its failure. -/
def concludeFinalizer (exit cleanup : Exit H) (s : Store H) : Execution H × Store H :=
  match exit, cleanup with
  | exit, .ok _ => (settled exit, s)
  | .ok _, .error g => (settled (.error g), s)
  | .error f, .error g => (settled (.error f), s.record (.finalizerFailed f.display g.display))

/-- The next random draw, for a policy that spreads its delays. -/
def Store.draw (s : Store H) (policy : RetryPolicy H) : Binary64 × Store H :=
  match policy.jitter.isPositive, s.draws with
  | true, d :: rest => (d, { s with draws := rest })
  | _, _ => (.zero false, s)

/-- How a retry goes on after the failure of attempt number `attempt`, counted from zero. -/
def retryAfter (env : Env) (inner : Node H) (policy : RetryPolicy H) (attempt : Nat)
    (f : Failure H) (s : Store H) : Execution H × Store H :=
  if policy.times ≤ attempt then (settled (.error f), s)
  else
    match s.perform (policy.accepts f) with
    | (.error p, s) => (unwound p, s)
    | (.ok false, s) => (settled (.error f), s)
    | (.ok true, s) =>
      let (draw, s) := s.draw policy
      match policy.nextDelay (attempt + 1) draw with
      | .error p => (unwound p, s)
      | .ok delay =>
        let s := s.record (.retrying (attempt + 1) policy.times delay f.display)
        if delay.isZero then (frame env (.retry inner policy (attempt + 1)) (enter inner env), s)
        else (pause (s.now + delay.ticks) env inner policy (attempt + 1), s)

/-- What a frame becomes when the execution above it has settled. -/
def Frame.resume [Tracing H] (env : Env) (exit : Exit H) (s : Store H) :
    Frame H → Execution H × Store H
  | .map code =>
    match exit with
    | .ok v => build s (code v) (Next.execution env)
    | .error f => (settled (.error f), s)
  | .withService t pair =>
    match exit with
    | .ok v =>
      match pair v with
      | .ok wrap => (ofProgram env (serviceProgram env t wrap), s)
      | .error f => (settled (.error f), s)
    | .error f => (settled (.error f), s)
  | .recover code =>
    match exit with
    | .ok v => (settled (.ok v), s)
    | .error f =>
      if f.isDefect then (settled (.error f), s)
      else build s (code f) fun
        | some n => enter n env
        | none => settled (.error f)
  | .tap code =>
    match exit with
    | .ok v => build s (code v) fun
        | .ok n => frame env (.tapped v) (enter n env)
        | .error f => settled (.error f)
    | .error f => (settled (.error f), s)
  | .tapped v =>
    match exit with
    | .ok _ => (settled (.ok v), s)
    | .error f => (settled (.error f), s)
  | .tapError code =>
    match exit with
    | .ok v => (settled (.ok v), s)
    | .error f => build s (code f) fun n => frame env (.tapErrored f) (enter n env)
  | .tapErrored f =>
    match exit with
    | .ok _ => (settled (.error f), s)
    | .error g => (settled (.error g), s)
  | .ensuring code =>
    let (own, s) := s.newSignal
    let detached := { env with signal := own }
    match s.perform code with
    | (.ok n, s) => (frame detached (.ensured exit) (enter n detached), s)
    | (.error p, s) => concludeFinalizer exit (.error (.ofPanic p)) s
  | .ensured first => concludeFinalizer first exit s
  | .timeout .. => (settled exit, s)
  | .draining after fallback =>
    match fallback with
    | some n => (enter n env, s)
    | none => (settled (.error (.timeout after)), s)
  | .retry inner policy attempt =>
    match exit with
    | .ok v => (settled (.ok v), s)
    | .error f => retryAfter env inner policy attempt f s
  | .acquire inner name attributes =>
    match exit.bind (Value.take (.shared .tracer)) with
    | .ok i =>
      (frame env (.entered inner i.value name) (task .bare (.run (i.value.before name attributes))),
        s)
    | .error f => (settled (.error f), s)
  | .entered inner tracer name =>
    match exit with
    | .ok _ => (frame env (.body tracer name) (enter inner env), s)
    | .error f => (settled (.error f), s)
  | .body tracer name => (task .bare (.run (tracer.after name exit)), s)

/-- Is the frame a timeout whose time is over? -/
def Frame.expired (now : Clock) : Frame H → Bool
  | .timeout deadline .. => deadline ≤ now
  | _ => false

/-- The instant at which the frame's own timer fires. -/
def Frame.timers : Frame H → List Clock
  | .timeout deadline .. => [deadline]
  | _ => []

/-- Ends the time of a timeout: the signal of its inner effect fires. -/
def Frame.expire (env : Env) (above : Execution H) (s : Store H) :
    Frame H → Option (Execution H × Store H)
  | .timeout deadline after child fallback =>
    if deadline ≤ s.now then
      some (frame env (.draining after fallback) above,
        (s.record (.timeoutExpired after)).fire child)
    else none
  | _ => none

end ScopedEffects
