import ScopedEffects.Execution.Basic

/-! How combinators deal with their branches: which may be admitted, what a branch's exit changes, and
how the combinator settles when no branch is left. -/

namespace ScopedEffects.Crew

variable {H : Host}

/-- The cap of a combinator: its own, else that of the environment. It is at least one. -/
def limit (env : Env) (cap : Option Nat) : Option Nat := (cap.or env.concurrency).map (max 1)

/-- May one more branch run beside those under way? -/
def hasRoom (env : Env) (cap : Option Nat) (running : Nat) : Bool :=
  match limit env cap with
  | none => true
  | some n => running < n

/-- The branch to admit next, and the crew without it: there is one while no failure has been seen
and fewer branches are under way than the cap allows. -/
def next? (env : Env) (running : Nat) : Crew H → Option (Nat × Node H × Crew H)
  | .all cap collect ((i, n) :: pending) values none =>
    if hasRoom env cap running then some (i, n, .all cap collect pending values none) else none
  | _ => none

/-- The failure with the lower index. -/
def lowest (i : Nat) (f : Failure H) : Option (Nat × Failure H) → Nat × Failure H
  | none => (i, f)
  | some (j, g) => if i < j then (i, f) else (j, g)

/-- The crew after branch `i` has settled. A decision cancels the branches that are left. -/
def absorb (i : Nat) (exit : Exit H) (s : Store H) : Crew H → Crew H × Store H
  | .all cap collect pending values failure =>
    match exit with
    | .ok v => (.all cap collect pending (values.set i (some v)) failure, s)
    | .error f =>
      (.all cap collect pending values (some (lowest i f failure)),
        s.record (.branchFailed i f.display))
  | .any child errors (some v) => (.any child errors (some v), s)
  | .any child errors none =>
    match exit with
    | .ok v => (.any child errors (some v), (s.record (.branchSucceeded i)).fire child)
    | .error f => (.any child (errors.set i (some f)) none, s)
  | .race child (some won) => (.race child (some won), s)
  | .race child none => (.race child (some exit), s.fire child)

/-- How the combinator settles when no branch is left. -/
def conclude (env : Env) (s : Store H) : Crew H → Exit H
  | .all _ collect _ values failure =>
    match failure with
    | some (_, f) => .error f
    | none => collect (values.filterMap id)
  | .any _ errors won =>
    match won with
    | some v => .ok v
    | none =>
      if s.isFired env.signal then .error .aborted else .error (.aggregate (errors.filterMap id))
  | .race _ won => won.getD (.error (.ofMessage "race over no effects"))

end ScopedEffects.Crew
