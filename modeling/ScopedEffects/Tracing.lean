import ScopedEffects.Program

/-! Tracers: what surrounds the body of a span. A tracer runs a program before the body, which can
keep the body from running, and one after it, which says how the span settles. -/

namespace ScopedEffects

/-- The behaviour of a host's tracers. -/
class Tracing (H : Host) where
  /-- Runs before the body. The body begins if this settles with a value; otherwise the span settles
  with the failure. -/
  before : H.Tracer → (name : String) → (attributes : List (String × String)) → Program H
  /-- Runs after the body, and settles the span. -/
  after : H.Tracer → (name : String) → Exit H → Program H

instance : Tracing Host.counting where
  before t := nomatch t
  after t := nomatch t

namespace TracerChoice

variable {H : Host} [Tracing H]

/-- The standard tracer opens a span in the trace. -/
def before (t : TracerChoice H) (name : String) (attributes : List (String × String)) :
    Program H :=
  match t with
  | .standard => .record (.spanOpened name attributes) (.done (.ok ⟨.unit, ()⟩))
  | .custom t => Tracing.before t name attributes

/-- The standard tracer writes the outcome to its span and keeps the body's exit. -/
def after (t : TracerChoice H) (name : String) (exit : Exit H) : Program H :=
  match t with
  | .standard =>
    let outcome := match exit with
      | .ok _ => "ok"
      | .error f => f.key
    .record (.spanClosed outcome) (.done exit)
  | .custom t => Tracing.after t name exit

end TracerChoice

/-- The opaque outcome of a span's body in words. -/
def describeOutcome {H : Host} : Exit H → String
  | .ok _ => "SpanOutcome(Ok(..))"
  | .error f => Text.delimited "SpanOutcome(" ")" [f.describe]

end ScopedEffects
