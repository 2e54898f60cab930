import ScopedEffects.Proofs.Execution.Depths
import ScopedEffects.Proofs.Execution.Sequence
import ScopedEffects.Proofs.Execution.Story

/-! What is seen of an execution. Each change of the store is seen, and whether the execution has
made it or others have; and so are the timers that it waits for and how it ends. A move that leaves
the store as it is cannot be seen. Since user code may count its calls in the state that it shares,
and the clock and the trace are parts of the store, the sights of all executions tell of all calls of
user code and all invocations of factories, in their order and with their times. -/

namespace ScopedEffects

open Relation

variable {H : Host} {a : Shape H.Plain}

inductive Sight (H : Host) (a : Shape H.Plain) where
  /-- The execution has changed the store. -/
  | acted (after : Store H)
  /-- Others have changed the store. -/
  | elsewhere (after : Store H)
  /-- The execution cannot go on before one of these instants, or before others change the store. -/
  | waiting (timers : List Clock)
  | settled (outcome : Except (Failure H) (a.El H))
  | unwound (p : Panic)

def Sight.store? : Sight H a → Option (Store H)
  | acted s | elsewhere s => some s
  | _ => none

/-- It holds of the store at first, and of all stores that are seen. -/
def Throughout (calm : Store H → Prop) (s : Store H) (L : List (Sight H a)) : Prop :=
  calm s ∧ ∀ t ∈ L.filterMap Sight.store?, calm t

namespace Throughout

variable {calm : Store H → Prop} {s t : Store H} {L : List (Sight H a)}

theorem acted (h : Throughout calm s (.acted t :: L)) : Throughout calm t L :=
  ⟨h.2 t List.mem_cons_self, fun u hu => h.2 u (List.mem_cons_of_mem t hu)⟩

theorem elsewhere (h : Throughout calm s (.elsewhere t :: L)) : Throughout calm t L :=
  ⟨h.2 t List.mem_cons_self, fun u hu => h.2 u (List.mem_cons_of_mem t hu)⟩

end Throughout

/-- How an execution settles, as a value of the shape of its effect. -/
def Exit.outcome (a : Shape H.Plain) (exit : Exit H) : Except (Failure H) (a.El H) :=
  exit.bind (Value.take a)

namespace Execution

variable [Tracing H] {P : Policy.Choice} {free : Prop} {calm : Store H → Prop}
  {R : Execution H → Execution H → Prop} {x y x' y' : Execution H} {s t : Store H}
  {L : List (Sight H a)}

/-- A move of the execution may follow the policy. -/
def Allows (P : Policy.Choice) (x : Execution H) (s : Store H) (p : Policy) : Prop :=
  P (x.going { p with anew := false } 0 s) p

/-- A move so is possible. -/
def MovesTo (P : Policy.Choice) (x : Execution H) (s : Store H) (y : Execution H) (t : Store H) :
    Prop := ∃ p, x.Allows P s p ∧ x.move p 0 s = some (y, t)

/-- No move is possible. -/
def Stuck (P : Policy.Choice) (x : Execution H) (s : Store H) : Prop :=
  ∀ p, x.Allows P s p → x.move p 0 s = none

theorem MovesTo.not_stuck (moved : x.MovesTo P s y t) : ¬ x.Stuck P s := by
  intro stuck
  obtain ⟨p, hp, moved⟩ := moved
  cases (stuck p hp).symm.trans moved

/-- What may be seen of an execution from a store on. If `free`, others may act at any moment, and
else only when the execution is stuck. -/
inductive Shows (P : Policy.Choice) (free : Prop) :
    Execution H → Store H → List (Sight H a) → Prop
  | nil (x : Execution H) (s : Store H) : Shows P free x s []
  | silent {x y : Execution H} {s : Store H} {L : List (Sight H a)} (moved : x.MovesTo P s y s)
      (rest : Shows P free y s L) : Shows P free x s L
  | acts {x y : Execution H} {s t : Store H} {L : List (Sight H a)} (moved : x.MovesTo P s y t)
      (changed : t ≠ s) (rest : Shows P free y t L) : Shows P free x s (.acted t :: L)
  | elsewhere {x : Execution H} {s t : Store H} {L : List (Sight H a)}
      (turn : free ∨ x.Stuck P s) (rest : Shows P free x t L) :
      Shows P free x s (.elsewhere t :: L)
  | waits {x : Execution H} {s : Store H} {L : List (Sight H a)} (running : x.ended = false)
      (stuck : x.Stuck P s) (rest : Shows P free x s L) :
      Shows P free x s (.waiting (x.deadlines s) :: L)
  | settles (exit : Exit H) (s : Store H) :
      Shows P free (.settled exit) s [.settled (exit.outcome a)]
  | unwinds (p : Panic) (s : Store H) : Shows P free (.unwound p) s [.unwound p]

/-! Moves that are not seen -/

/-- All that the execution does while `calm` holds is to go on as another one, unseen and in the same
poll. -/
def Slips (calm : Store H → Prop) (x x' : Execution H) : Prop :=
  ∀ p depth s, calm s → x.going p depth s = true ∧ x.move p depth s = some (x', s)

/-- The relation holds once both have slipped on. -/
def UpTo (calm : Store H → Prop) (R : Execution H → Execution H → Prop) (x y : Execution H) :
    Prop :=
  ∃ x' y', ReflTransGen (Slips calm) x x' ∧ ReflTransGen (Slips calm) y y' ∧ R x' y'

theorem UpTo.of (h : R x y) : UpTo calm R x y := ⟨x, y, .refl, .refl, h⟩

theorem UpTo.left (slips : Slips calm x x') (h : UpTo calm R x' y) : UpTo calm R x y := by
  obtain ⟨x₁, y₁, left, right, related⟩ := h
  exact ⟨x₁, y₁, .head slips left, right, related⟩

theorem UpTo.right (slips : Slips calm y y') (h : UpTo calm R x y') : UpTo calm R x y := by
  obtain ⟨x₁, y₁, left, right, related⟩ := h
  exact ⟨x₁, y₁, left, .head slips right, related⟩

theorem UpTo.flip (h : UpTo calm R x y) : UpTo calm (flip R) y x := by
  obtain ⟨x₁, y₁, left, right, related⟩ := h
  exact ⟨y₁, x₁, right, left, related⟩

theorem exists_movesTo (inhabited : ∃ p, P true p)
    (unseen : ∀ p, x.going p 0 s = true ∧ x.move p 0 s = some (y, t)) : x.MovesTo P s y t := by
  obtain ⟨p, hp⟩ := inhabited
  refine ⟨p, ?_, (unseen p).2⟩
  rw [Allows, (unseen _).1]
  exact hp

theorem Slips.movesTo (slips : Slips calm x x') (inhabited : ∃ p, P true p) (quiet : calm s) :
    x.MovesTo P s x' s :=
  exists_movesTo inhabited fun p => slips p 0 s quiet

theorem Slips.shows (slips : ReflTransGen (Slips calm) x x') (inhabited : ∃ p, P true p)
    (quiet : calm s) (shown : Shows P free x' s L) : Shows P free x s L := by
  induction slips using ReflTransGen.head_induction_on with
  | refl => exact shown
  | head slips _ ih => exact .silent (slips.movesTo inhabited quiet) ih

theorem Slips.not_stuck (slips : Slips calm x x') (inhabited : ∃ p, P true p) (quiet : calm s) :
    ¬ x.Stuck P s :=
  MovesTo.not_stuck (slips.movesTo inhabited quiet)

/-! One execution shows what another does -/

/-- Whatever `x` does unless it slips on, `y` can do, and nothing sets them apart. -/
structure Simulates (P : Policy.Choice) (calm : Store H → Prop) (a : Shape H.Plain)
    (R : Execution H → Execution H → Prop) : Prop where
  moves : ∀ {x y x' s t}, R x y → calm s → x.MovesTo P s x' t →
    ∃ y', y.MovesTo P s y' t ∧ UpTo calm R x' y'
  stuck : ∀ {x y s}, R x y → calm s → x.Stuck P s → y.Stuck P s
  ended : ∀ {x y}, R x y → y.ended = x.ended
  deadlines : ∀ {x y}, R x y → ∀ s, y.deadlines s = x.deadlines s
  settled : ∀ {exit y}, R (.settled exit) y →
    ∃ exit', y = .settled exit' ∧ exit'.outcome a = exit.outcome a
  unwound : ∀ {p y}, R (.unwound p) y → y = .unwound p

theorem Simulates.shows (sim : Simulates P calm a R) (inhabited : ∃ p, P true p)
    (related : UpTo calm R x y) (shown : Shows P free x s L) (quiet : Throughout calm s L) :
    Shows P free y s L := by
  induction shown generalizing y with
  | nil => exact .nil _ _
  | silent moved _ ih =>
    obtain ⟨x₁, y₁, left, right, core⟩ := related
    rcases left.cases_head with rfl | ⟨x₂, slips, left⟩
    · obtain ⟨y₂, moved', later⟩ := sim.moves core quiet.1 moved
      exact Slips.shows right inhabited quiet.1 (.silent moved' (ih later quiet))
    · obtain ⟨p, -, moved⟩ := moved
      cases (slips p 0 _ quiet.1).2.symm.trans moved
      exact ih ⟨x₁, y₁, left, right, core⟩ quiet
  | acts moved changed _ ih =>
    obtain ⟨x₁, y₁, left, right, core⟩ := related
    rcases left.cases_head with rfl | ⟨x₂, slips, -⟩
    · obtain ⟨y₂, moved', later⟩ := sim.moves core quiet.1 moved
      exact Slips.shows right inhabited quiet.1 (.acts moved' changed (ih later quiet.acted))
    · obtain ⟨p, -, moved⟩ := moved
      cases (slips p 0 _ quiet.1).2.symm.trans moved
      exact absurd rfl changed
  | elsewhere turn _ ih =>
    rcases turn with free | stuck
    · exact .elsewhere (.inl free) (ih related quiet.elsewhere)
    · obtain ⟨x₁, y₁, left, right, core⟩ := related
      rcases left.cases_head with rfl | ⟨x₂, slips, -⟩
      · exact Slips.shows right inhabited quiet.1
          (.elsewhere (.inr (sim.stuck core quiet.1 stuck)) (ih (.of core) quiet.elsewhere))
      · exact absurd stuck (slips.not_stuck inhabited quiet.1)
  | waits running stuck _ ih =>
    obtain ⟨x₁, y₁, left, right, core⟩ := related
    rcases left.cases_head with rfl | ⟨x₂, slips, -⟩
    · have waits := Shows.waits ((sim.ended core).trans running) (sim.stuck core quiet.1 stuck)
        (ih (.of core) quiet)
      rw [sim.deadlines core] at waits
      exact Slips.shows right inhabited quiet.1 waits
    · exact absurd stuck (slips.not_stuck inhabited quiet.1)
  | settles exit s =>
    obtain ⟨x₁, y₁, left, right, core⟩ := related
    rcases left.cases_head with rfl | ⟨x₂, slips, -⟩
    · obtain ⟨exit', rfl, same⟩ := sim.settled core
      rw [← same]
      exact Slips.shows right inhabited quiet.1 (.settles exit' s)
    · exact absurd (fun _ _ => rfl) (slips.not_stuck inhabited quiet.1)
  | unwinds p s =>
    obtain ⟨x₁, y₁, left, right, core⟩ := related
    rcases left.cases_head with rfl | ⟨x₂, slips, -⟩
    · obtain rfl := sim.unwound core
      exact Slips.shows right inhabited quiet.1 (.unwinds p s)
    · exact absurd (fun _ _ => rfl) (slips.not_stuck inhabited quiet.1)

/-! Executions that show the same -/

/-- Under these policies the latest poll lets both go on or neither, and neither moves, or both move
and leave the same store. -/
structure InStep (calm : Store H → Prop) (R : Execution H → Execution H → Prop) (p q : Policy)
    (x y : Execution H) (s : Store H) : Prop where
  going : x.going { p with anew := false } 0 s = y.going { q with anew := false } 0 s
  moves : x.move p 0 s = none ∧ y.move q 0 s = none ∨
    ∃ x' y' t, x.move p 0 s = some (x', t) ∧ y.move q 0 s = some (y', t) ∧ UpTo calm R x' y'

theorem InStep.flip {p q : Policy} (h : InStep calm R p q x y s) :
    InStep calm (flip R) q p y x s where
  going := h.going.symm
  moves := by
    rcases h.moves with ⟨left, right⟩ | ⟨x', y', t, left, right, later⟩
    · exact .inl ⟨right, left⟩
    · exact .inr ⟨y', x', t, right, left, later.flip⟩

/-- To each policy for one of two related executions there is one for the other, so that they go on
in step. -/
structure Paced (P : Policy.Choice) (calm : Store H → Prop)
    (R : Execution H → Execution H → Prop) : Prop where
  left : ∀ {x y s}, R x y → calm s → ∀ p, x.Allows P s p →
    ∃ q, y.Allows P s q ∧ InStep calm R p q x y s
  right : ∀ {x y s}, R x y → calm s → ∀ q, y.Allows P s q →
    ∃ p, x.Allows P s p ∧ InStep calm R p q x y s

namespace Paced

theorem flip (h : Paced P calm R) : Paced P calm (flip R) where
  left related quiet q hq := (h.right related quiet q hq).imp fun _ found => ⟨found.1, found.2.flip⟩
  right related quiet p hp := (h.left related quiet p hp).imp fun _ found => ⟨found.1, found.2.flip⟩

theorem moves (h : Paced P calm R) (related : R x y) (quiet : calm s)
    (moved : x.MovesTo P s x' t) : ∃ y', y.MovesTo P s y' t ∧ UpTo calm R x' y' := by
  obtain ⟨p, hp, moved⟩ := moved
  obtain ⟨q, hq, together⟩ := h.left related quiet p hp
  rcases together.moves with ⟨held, -⟩ | ⟨x₁, y₁, t₁, left, right, later⟩
  · cases held.symm.trans moved
  · cases left.symm.trans moved
    exact ⟨y₁, ⟨q, hq, right⟩, later⟩

theorem stuck (h : Paced P calm R) (related : R x y) (quiet : calm s) (stuck : x.Stuck P s) :
    y.Stuck P s := by
  intro q hq
  obtain ⟨p, hp, together⟩ := h.right related quiet q hq
  rcases together.moves with ⟨-, held⟩ | ⟨x₁, y₁, t₁, left, -⟩
  · exact held
  · cases (stuck p hp).symm.trans left

end Paced

/-- Related executions go on in step, the first a level deeper than the second or at its level, and
nothing sets them apart. -/
structure Alike (calm : Store H → Prop) (a : Shape H.Plain)
    (R : Execution H → Execution H → Prop) : Prop where
  steps : ∀ {x y}, R x y →
    (∀ p q s, Policy.Agree p q 1 0 → calm s → InStep calm R p q x y s) ∨
      ∀ p s, calm s → InStep calm R p p x y s
  deadlines : ∀ {x y}, R x y → ∀ s, x.deadlines s = y.deadlines s
  exits : ∀ {x y}, R x y → x.exit?.map (Exit.outcome a) = y.exit?.map (Exit.outcome a)
  panics : ∀ {x y}, R x y → x.panic? = y.panic?

omit [Tracing H] in
theorem ended_eq (x : Execution H) : x.ended = (x.exit?.isSome || x.panic?.isSome) := by
  cases x <;> rfl

omit [Tracing H] in
theorem exists_settled {o : Except (Failure H) (a.El H)}
    (h : x.exit?.map (Exit.outcome a) = some o) :
    ∃ exit, x = .settled exit ∧ exit.outcome a = o := by
  obtain ⟨exit, here, same⟩ := Option.map_eq_some_iff.1 h
  cases x with
  | settled exit' =>
    cases here
    exact ⟨exit, rfl, same⟩
  | _ => cases here

omit [Tracing H] in
theorem eq_unwound {p : Panic} (h : x.panic? = some p) : x = .unwound p := by
  cases x with
  | unwound p' =>
    cases h
    rfl
  | _ => cases h

namespace Alike

theorem ended (h : Alike calm a R) (related : R x y) : x.ended = y.ended := by
  have exits := congrArg Option.isSome (h.exits related)
  rw [Option.isSome_map, Option.isSome_map] at exits
  rw [ended_eq, ended_eq, exits, h.panics related]

theorem paced (h : Alike calm a R) (family : Policy.Family P) : Paced P calm R where
  left {x y s} related quiet p hp := by
    rcases h.steps related with deeper | level
    · obtain ⟨q, hq, agree⟩ := family.outward _ p hp
      have together := deeper p q s agree quiet
      exact ⟨q, by rwa [Allows, ← together.going], together⟩
    · have together := level p s quiet
      exact ⟨p, by rwa [Allows, ← together.going], together⟩
  right {x y s} related quiet q hq := by
    rcases h.steps related with deeper | level
    · obtain ⟨p, hp, agree⟩ := family.inward _ q hq
      have together := deeper p q s agree.symm quiet
      exact ⟨p, by rwa [Allows, together.going], together⟩
    · have together := level q s quiet
      exact ⟨q, by rwa [Allows, together.going], together⟩

theorem simulates (h : Alike calm a R) (family : Policy.Family P) : Simulates P calm a R where
  moves := (h.paced family).moves
  stuck := (h.paced family).stuck
  ended related := (h.ended related).symm
  deadlines related s := (h.deadlines related s).symm
  settled related := exists_settled (h.exits related).symm
  unwound related := eq_unwound (h.panics related).symm

theorem simulates_flip (h : Alike calm a R) (family : Policy.Family P) :
    Simulates P calm a (flip R) where
  moves := (h.paced family).flip.moves
  stuck := (h.paced family).flip.stuck
  ended related := h.ended related
  deadlines related s := h.deadlines related s
  settled related := exists_settled (h.exits related)
  unwound related := eq_unwound (h.panics related)

/-- They show the same, as long as `calm` holds. -/
theorem shows_iff (h : Alike calm a R) (family : Policy.Family P) (related : UpTo calm R x y)
    (quiet : Throughout calm s L) : Shows P free x s L ↔ Shows P free y s L :=
  ⟨fun shown => (h.simulates family).shows family.inhabited related shown quiet,
    fun shown => (h.simulates_flip family).shows family.inhabited related.flip shown quiet⟩

end Alike

/-! While others wait -/

/-- What is not stuck shows what any other execution shows that has the same moves. -/
theorem Shows.of_same (held : ¬ free) (busy : ¬ x.Stuck P s)
    (same : ∀ p, x.going p 0 s = y.going p 0 s ∧ x.move p 0 s = y.move p 0 s)
    (shown : Shows P free x s L) : Shows P free y s L := by
  have moves : ∀ {z t}, x.MovesTo P s z t → y.MovesTo P s z t := by
    rintro z t ⟨p, hp, moved⟩
    rw [Allows, (same _).1] at hp
    exact ⟨p, hp, (same p).2 ▸ moved⟩
  cases shown with
  | nil => exact .nil _ _
  | silent moved rest => exact .silent (moves moved) rest
  | acts moved changed rest => exact .acts (moves moved) changed rest
  | elsewhere turn => exact absurd (turn.resolve_left held) busy
  | waits _ stuck => exact absurd stuck busy
  | settles | unwinds => exact absurd (fun _ _ => rfl) busy

theorem shows_iff_of_same (held : ¬ free) (busy : ¬ x.Stuck P s)
    (same : ∀ p, x.going p 0 s = y.going p 0 s ∧ x.move p 0 s = y.move p 0 s) :
    Shows P free x s L ↔ Shows P free y s L := by
  have busy' : ¬ y.Stuck P s := by
    intro stuck
    refine busy fun p hp => ?_
    rw [Allows, (same _).1] at hp
    exact (same p).2.trans (stuck p hp)
  exact ⟨.of_same held busy same,
    .of_same held busy' fun p => ⟨(same p).1.symm, (same p).2.symm⟩⟩

/-- An unseen move changes nothing about what is shown, when all policies make it. -/
theorem shows_iff_of_unseen (held : ¬ free) (inhabited : ∃ p, P true p)
    (unseen : ∀ p, x.going p 0 s = true ∧ x.move p 0 s = some (y, s)) :
    Shows P free x s L ↔ Shows P free y s L := by
  have moves : x.MovesTo P s y s := exists_movesTo inhabited unseen
  have busy : ¬ x.Stuck P s := moves.not_stuck
  constructor
  · intro shown
    cases shown with
    | nil => exact .nil _ _
    | silent moved rest =>
      obtain ⟨q, -, moved⟩ := moved
      cases (unseen q).2.symm.trans moved
      exact rest
    | acts moved changed =>
      obtain ⟨q, -, moved⟩ := moved
      cases (unseen q).2.symm.trans moved
      exact absurd rfl changed
    | elsewhere turn => exact absurd (turn.resolve_left held) busy
    | waits _ stuck => exact absurd stuck busy
    | settles | unwinds => exact absurd (fun _ _ => rfl) busy
  · exact .silent moves

end Execution

variable [Tracing H] {P : Policy.Choice} {free : Prop}

/-- What may be seen of an effect in an environment, from a store on. -/
def Effect.Shows (P : Policy.Choice) (free : Prop) (e : Effect H a) (env : Env) (s : Store H)
    (L : List (Sight H a)) : Prop := (Execution.enter e.node env).Shows P free s L

/-! Stories -/

/-- Between the machines at most one thing is seen: the store that the second one has. -/
def Machine.Seen (P : Policy.Choice) (free : Prop) (a : Shape H.Plain) (m m' : Machine H) : Prop :=
  ∀ L : List (Sight H a), m'.execution.Shows P free m'.store L →
    m'.store = m.store ∧ m.execution.Shows P free m.store L ∨
      ∃ sight : Sight H a, sight.store? = some m'.store ∧
        m.execution.Shows P free m.store (sight :: L)

namespace Machine

variable {m m' : Machine H} {x : Execution H} {s : Store H} {alarms : List Alarm}

theorem seen_of_moves (moved : m.execution.MovesTo P m.store x s) :
    m.Seen P free a ⟨s, x, alarms⟩ := by
  intro L shown
  by_cases same : s = m.store
  · subst same
    exact .inl ⟨rfl, .silent moved shown⟩
  · exact .inr ⟨.acted s, rfl, .acts moved same shown⟩

theorem seen_of_elsewhere (turn : free ∨ m.execution.Stuck P m.store) :
    m.Seen P free a { m with store := s, alarms := alarms } :=
  fun _ shown => .inr ⟨.elsewhere s, rfl, .elsewhere turn shown⟩

/-- Whatever happens at any moment is seen. -/
theorem Step.seen (h : m.Step m') : m.Seen (fun _ _ => True) True a m' := by
  cases h with
  | moves moved => exact seen_of_moves ⟨_, trivial, moved⟩
  | rings | passes => exact seen_of_elsewhere (.inl trivial)

/-- What a policy drives the machine to do is seen, and others act only when it is stuck. -/
theorem seen_of_move? {policy : Policy} (diligent : policy.Diligent) (sound : m.execution.Sound)
    (h : m.move? policy = some m') : m.Seen Policy.polled False a m' := by
  -- a diligent policy that makes no move leaves none to others
  have stuck (still : m.execution.move (m.polling policy) 0 m.store = none) :
      m.execution.Stuck Policy.polled m.store := by
    have blocked := Execution.blocked_of_move_none (diligent.anew _) sound still
    intro p _
    by_contra moves
    obtain ⟨next, moved⟩ := Option.ne_none_iff_exists'.1 moves
    exact Bool.false_ne_true (blocked.symm.trans (Execution.ready_of_move moved))
  cases drives_of_move? h with
  | moves moved => exact seen_of_moves ⟨m.polling policy, rfl, moved⟩
  | rings still | passes still => exact seen_of_elsewhere (.inr (stuck still))

end Machine

namespace Story

variable {w : Story H} {i : Nat}

/-- The stores of a story from an instant on. -/
def stores (w : Story H) (i : Nat) : List (Store H) :=
  (List.range' i (w.last + 1 - i)).map fun t => (w.state t).store

theorem stores_of_lt (hi : i < w.last) : w.stores i = (w.state i).store :: w.stores (i + 1) := by
  have left : w.last + 1 - i = w.last + 1 - (i + 1) + 1 := by omega
  rw [stores, stores, left, List.range'_succ, List.map_cons]

theorem stores_last (w : Story H) : w.stores w.last = [(w.state w.last).store] := by
  rw [stores, Nat.add_sub_cancel_left]
  rfl

/-- From an instant on, all stores of the story are seen in their order, and at the end how it has
settled. -/
def IsShown (P : Policy.Choice) (free : Prop) (a : Shape H.Plain) (w : Story H) (i : Nat) : Prop :=
  ∃ L M : List (Sight H a),
    (w.state i).execution.Shows P free (w.state i).store (L ++ M) ∧
    ((w.state i).store :: L.filterMap Sight.store?).Sublist (w.stores i) ∧
    w.stores i ⊆ (w.state i).store :: L.filterMap Sight.store? ∧
    ∀ exit, (w.state w.last).execution = .settled exit → M = [.settled (exit.outcome a)]

theorem isShown_last (w : Story H) : w.IsShown P free a w.last := by
  have ordered : [(w.state w.last).store].Sublist (w.stores w.last) := w.stores_last ▸ .refl _
  have complete : w.stores w.last ⊆ [(w.state w.last).store] := w.stores_last ▸ List.Subset.refl _
  by_cases settled : ∃ exit, (w.state w.last).execution = .settled exit
  · obtain ⟨exit, settled⟩ := settled
    refine ⟨[], [.settled (exit.outcome a)], settled ▸ .settles exit _, ordered, complete, ?_⟩
    intro exit' h
    cases settled.symm.trans h
    rfl
  · exact ⟨[], [], .nil _ _, ordered, complete, fun exit h => absurd ⟨exit, h⟩ settled⟩

theorem isShown_of_seen (seen : ∀ t, t < w.last → (w.state t).Seen P free a (w.state (t + 1)))
    (hi : i ≤ w.last) : w.IsShown P free a i := by
  -- from the last state back to the first
  induction hi using Nat.decreasingInduction with
  | self => exact w.isShown_last
  | of_succ i less ih =>
    obtain ⟨L, M, shown, ordered, complete, ending⟩ := ih
    rcases seen i less (L ++ M) shown with ⟨same, shown⟩ | ⟨sight, after, shown⟩
    · rw [same] at ordered complete
      refine ⟨L, M, shown, ?_, ?_, ending⟩ <;> rw [stores_of_lt less]
      · exact ordered.cons _
      · exact List.cons_subset.2 ⟨List.mem_cons_self, complete⟩
    · refine ⟨sight :: L, M, shown, ?_, ?_, ending⟩ <;>
        rw [stores_of_lt less, List.filterMap_cons_some after]
      · exact ordered.cons_cons _
      · exact List.cons_subset_cons _ complete

/-- Any story is shown, when others may act at any moment. -/
theorem isShown (w : Story H) (a : Shape H.Plain) (hi : i ≤ w.last) :
    w.IsShown (fun _ _ => True) True a i :=
  isShown_of_seen (fun t ht => (w.step t ht).seen) hi

/-- A driven story is shown, even if others act only while the execution is stuck. -/
theorem Launched.isShown {node : Node H} {env : Env} {schedule : Schedule}
    (h : w.Launched node env) (steady : w.Steady) (diligent : schedule.Diligent)
    (driven : w.Driven schedule) (a : Shape H.Plain) (hi : i ≤ w.last) :
    w.IsShown Policy.polled False a i :=
  isShown_of_seen
    (fun t ht => Machine.seen_of_move? (diligent t) (h.sound steady ht.le) (driven t ht)) hi

end Story

end ScopedEffects
