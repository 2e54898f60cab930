import ScopedEffects.Number.Power
import ScopedEffects.Number.Shortest
import ScopedEffects.Number.Spread
import ScopedEffects.Program

/-! Retry policies: how often an effect is run again after a failure, for which failures, and after
what delay. The delay is multiplied for each further attempt, and may be spread by a random part. -/

namespace ScopedEffects

structure RetryPolicy (H : Host) where
  /-- Attempts after the first. -/
  times : Nat
  delay : Duration := .zero
  multiplier : Binary64 := .one
  /-- The part of a delay that is random, from zero to one. -/
  jitter : Binary64 := .zero false
  /-- Which failures are tried again; defects never are. -/
  condition : Option (Failure H → Code H Bool) := none

namespace RetryPolicy

variable {H : Host}

/-- Retries at once. -/
def immediate (times : Nat) : RetryPolicy H := { times := times }

/-- Each delay is twice the one before. -/
def exponential (times : Nat) (delay : Duration) : RetryPolicy H :=
  { times := times, delay := delay, multiplier := .ofNat 2 }

def withDelay (p : RetryPolicy H) (d : Duration) : RetryPolicy H := { p with delay := d }

def withBackoff (p : RetryPolicy H) (m : Binary64) : RetryPolicy H := { p with multiplier := m }

/-- Spreads each delay by up to a fraction of it, which is brought between zero and one. -/
def withJitter (p : RetryPolicy H) (fraction : Binary64) : RetryPolicy H :=
  { p with jitter := .clamp (.zero false) .one fraction }

def retryWhile (p : RetryPolicy H) (condition : Failure H → Code H Bool) : RetryPolicy H :=
  { p with condition := some condition }

/-- May the failure be tried again? A defect is refused without asking. -/
def accepts (p : RetryPolicy H) (f : Failure H) : Code H Bool :=
  if f.isDefect then .pure false
  else match p.condition with
    | none => .pure true
    | some condition => condition f

/-- The exponent of the multiplier for an attempt, as a signed number of 32 bits. -/
def exponent (attempt : Nat) : Int :=
  let n := attempt - 1
  if n < Nat.pow 2 31 then n else (n : Int) - Nat.pow 2 32

/-- The delay before an attempt in seconds, before it is spread. -/
def baseSeconds (p : RetryPolicy H) (attempt : Nat) : Binary64 :=
  p.delay.seconds.mul (p.multiplier.zpow (exponent attempt))

/-- The delay in seconds, spread by a draw between minus one and one. -/
def seconds (p : RetryPolicy H) (attempt : Nat) (draw : Binary64) : Except SpreadFault Binary64 :=
  let base := p.baseSeconds attempt
  if p.jitter.isPositive && base.isPositive then base.spread (base.mul p.jitter) draw else .ok base

/-- The delay of so many seconds. A number that is not finite and positive means no delay. -/
def delayOf (seconds : Binary64) : Duration :=
  if seconds.isFinite && seconds.isPositive then .ofSeconds seconds else .zero

/-- The delay before retry number `attempt`, counted from one. A delay too long to be spread is a
panic. -/
def nextDelay (p : RetryPolicy H) (attempt : Nat) (draw : Binary64) : Except Panic Duration :=
  match p.seconds attempt draw with
  | .ok s => .ok (delayOf s)
  | .error fault => .error (.text fault.message)

def describe (p : RetryPolicy H) : String :=
  Text.record "RetryPolicy" [("times", toString p.times), ("delay", p.delay.render),
    ("multiplier", p.multiplier.render), ("jitter", p.jitter.render),
    ("has_predicate", toString p.condition.isSome)]

end RetryPolicy

end ScopedEffects
