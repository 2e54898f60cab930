import ScopedEffects.Program

/-! Programs side by side: waiting for all of several programs, or for one within some time. -/

namespace ScopedEffects.Program

variable {H : Host}

/-- Waits for all programs, and settles with their values, all of the shape `a`, in order. If some
fail, it settles with the failure of the first of them. -/
def all (a : Shape H.Plain) : List (Program H) → Program H
  | [] => .done (.ok ⟨.list a, []⟩)
  | p :: rest => .both p (all a rest) fun e es => .done do
      let x ← (← e).take a
      let xs ← (← es).take (.list a)
      return ⟨.list a, x :: xs⟩

/-- Settles as `p` does within the given time. When the time is over, `p` is dropped and the program
goes on with `late`. -/
def within (d : Duration) (late p : Program H) : Program H :=
  .first p (.sleep d late) fun _ e => .done e

end ScopedEffects.Program
