import ScopedEffects.Proofs.Execution.InTurn
import ScopedEffects.Proofs.Execution.Sights

/-! The laws of chaining. Two continuations, one after the other, show what one continuation shows
that chains the second to what the first makes; a value that is there shows with its continuation
what the continuation's effect shows when it is built late; and to go on with the value itself shows
nothing, unless a signal fires. -/

namespace ScopedEffects

variable {H : Host} {a b c : Shape H.Plain}

namespace Effect

/-- The code of a step that goes on with an effect. -/
def goesOn (f : a.El H → Code H (Effect H b)) (v : Value H) : Code H (Next H (Node H)) :=
  Code.onValue a v .fail fun x => (f x).map fun e => .effect e.node

end Effect

open Effect

namespace Execution

variable {env : Env} {s : Store H} {v : Value H}

theorem build_map {α β : Type} (s : Store H) (code : Code H α) (g : α → β)
    (next : β → Execution H) : build s (code.map g) next = build s code fun x => next (g x) := by
  have performed : s.perform (code.map g) = ((s.perform code).1.map g, (s.perform code).2) := rfl
  unfold build
  rw [performed]
  rcases s.perform code with ⟨_ | _, _⟩
  · rfl
  · rfl

/-- A step goes on with the effect that its code makes of the value. -/
theorem build_goesOn (f : a.El H → Code H (Effect H b)) (env : Env) (s : Store H) (v : Value H) :
    build s (goesOn f v) (Next.execution env) =
      match v.take a with
      | .ok x => build s (f x) fun e => enter e.node env
      | .error g => (settled (.error g), s) := by
  unfold goesOn Code.onValue
  cases v.take a with
  | ok x =>
    dsimp only
    rw [build_map]
    rfl
  | error g => rfl

variable [Tracing H]

/-- When what it waits for has succeeded, a continuation is built from the value. -/
theorem move_map_settled (code : Value H → Code H (Next H (Node H))) (env : Env) (p : Policy)
    (depth : Nat) (s : Store H) (v : Value H) :
    (frame env (.map code) (settled (.ok v))).move p depth s =
      some (build s (code v) (Next.execution env)) := rfl

/-! Unseen moves -/

theorem slips_enter_map (calm : Store H → Prop) (u : Node H)
    (code : Value H → Code H (Next H (Node H))) (env : Env) :
    Slips calm (enter (.map u code) env) (frame env (.map code) (enter u env)) :=
  fun _ _ _ _ => ⟨rfl, rfl⟩

theorem slips_failed (calm : Store H → Prop) (code : Value H → Code H (Next H (Node H))) (env : Env)
    (g : Failure H) :
    Slips calm (frame env (.map code) (settled (.error g))) (settled (.error g)) :=
  fun _ _ _ _ => ⟨rfl, rfl⟩

theorem slips_unwound (calm : Store H → Prop) (f : Frame H) (env : Env) (p : Panic) :
    Slips calm (frame env f (unwound p)) (unwound p) := fun _ _ _ _ => ⟨rfl, rfl⟩

theorem Slips.frame {calm : Store H → Prop} {x x' : Execution H} (h : Slips calm x x') (env : Env)
    (f : Frame H) : Slips calm (frame env f x) (frame env f x') := by
  intro p depth s quiet
  obtain ⟨going, moved⟩ := h p (depth + 1) s quiet
  have running : x.ended = false := by
    cases x with
    | settled | unwound => cases moved
    | _ => rfl
  rw [Execution.going, running, going, move_frame_running running, going, moved]
  exact ⟨rfl, by rw [Bool.not_true, Bool.and_false]; rfl⟩

/-- Until what it waits for has ended, a continuation moves as that does. -/
theorem move_map_running {x : Execution H} (running : x.ended = false)
    {code : Value H → Code H (Next H (Node H))} {p : Policy} {depth : Nat} :
    (frame env (.map code) x).move p depth s =
      (x.move p (depth + 1) s).map fun y => (frame env (.map code) y.1, y.2) := by
  have unlimited : (Frame.map code).expired s.now = false := rfl
  rw [move_frame_running running, unlimited]
  rfl

omit [Tracing H] in
/-- The poll lets a continuation go on as what it waits for. -/
theorem going_map (code : Value H → Code H (Next H (Node H))) (env : Env) (p : Policy)
    (depth : Nat) (x : Execution H) (s : Store H) :
    (frame env (.map code) x).going p depth s = (x.ended || x.going p (depth + 1) s) := by
  rw [going]
  exact Bool.or_false _

/-! One continuation after the other -/

/-- Two continuations that wait for the same effect, and one that chains the second to what the
first makes. -/
inductive Nested (f : a.El H → Code H (Effect H b)) (g : b.El H → Code H (Effect H c)) (env : Env) :
    Execution H → Execution H → Prop
  | under (x : Execution H) : Nested f g env
      (frame env (.map (goesOn g)) (frame env (.map (goesOn f)) x))
      (frame env (.map (goesOn fun v => (f v).map (·.andThen g))) x)
  | same (x : Execution H) : Nested f g env x x

variable {f : a.El H → Code H (Effect H b)} {g : b.El H → Code H (Effect H c)}
  {calm : Store H → Prop} {x : Execution H}

theorem upTo_after_failure (e : Failure H) : UpTo calm (Nested f g env)
    (frame env (.map (goesOn g)) (settled (.error e))) (settled (.error e)) :=
  .left (slips_failed calm _ env e) (.of (.same _))

/-- What the first continuation goes on with is in the scope of the second one. -/
theorem upTo_build (f : a.El H → Code H (Effect H b)) (g : b.El H → Code H (Effect H c))
    (calm : Store H → Prop) (env : Env) (s : Store H) (v : Value H) :
    ∃ y y' t, build s (goesOn f v) (Next.execution env) = (y, t) ∧
      build s (goesOn (fun v => (f v).map (·.andThen g)) v) (Next.execution env) = (y', t) ∧
      UpTo calm (Nested f g env) (frame env (.map (goesOn g)) y) y' := by
  rw [build_goesOn, build_goesOn]
  cases v.take a with
  | error e => exact ⟨_, _, _, rfl, rfl, upTo_after_failure e⟩
  | ok x =>
    dsimp only
    rw [build_map]
    unfold build
    rcases s.perform (f x) with ⟨p | e, t⟩
    · exact ⟨_, _, _, rfl, rfl, upTo_after_failure _⟩
    · exact ⟨_, _, _, rfl, rfl, .right (slips_enter_map calm _ _ env) (.of (.same _))⟩

theorem inStep_under (p q : Policy) (agree : Policy.Agree p q 1 0) (x : Execution H) (s : Store H) :
    InStep calm (Nested f g env) p q (frame env (.map (goesOn g)) (frame env (.map (goesOn f)) x))
      (frame env (.map (goesOn fun v => (f v).map (·.andThen g))) x) s where
  going := by
    simp only [going_map]
    exact congrArg (x.ended || ·) (going_agree ((agree.polling false).later 1) x s)
  moves := by
    rw [move_map_running (x := frame env (.map (goesOn f)) x) rfl]
    cases ended : x.ended with
    | true =>
      cases x with
      | settled exit =>
        cases exit with
        | error e => exact .inr ⟨_, _, _, rfl, rfl, upTo_after_failure e⟩
        | ok v =>
          obtain ⟨y, y', t, left, right, later⟩ := upTo_build f g calm env s v
          refine .inr ⟨frame env (.map (goesOn g)) y, y', t, ?_, congrArg some right, later⟩
          rw [move_map_settled, left]
          rfl
      | unwound e =>
        exact .inr ⟨_, _, _, rfl, rfl, .left (slips_unwound calm _ env e) (.of (.same _))⟩
      | _ => cases ended
    | false =>
      rw [move_map_running ended, move_map_running ended, move_agree (agree.later 1) x s]
      cases x.move q 1 s with
      | none => exact .inl ⟨rfl, rfl⟩
      | some next => exact .inr ⟨_, _, _, rfl, rfl, .of (.under _)⟩

/-- An execution is in step with itself. -/
theorem inStep_same {R : Execution H → Execution H → Prop} (same : ∀ y, R y y) (p : Policy)
    (x : Execution H) (s : Store H) : InStep calm R p p x x s where
  going := rfl
  moves := by
    cases x.move p 0 s with
    | none => exact .inl ⟨rfl, rfl⟩
    | some next => exact .inr ⟨_, _, _, rfl, rfl, .of (same _)⟩

theorem alike_nested : Alike calm c (Nested f g env) where
  steps related := by
    cases related with
    | under x => exact .inl fun p q s agree _ => inStep_under p q agree x s
    | same => exact .inr fun p s _ => inStep_same (R := Nested f g env) Nested.same p _ s
  deadlines related s := by
    cases related <;> rfl
  exits related := by
    cases related <;> rfl
  panics related := by
    cases related <;> rfl

theorem upTo_nested (e : Effect H a) (f : a.El H → Code H (Effect H b))
    (g : b.El H → Code H (Effect H c)) (calm : Store H → Prop) (env : Env) :
    UpTo calm (Nested f g env) (enter ((e.andThen f).andThen g).node env)
      (enter (e.andThen fun v => (f v).map (·.andThen g)).node env) :=
  .left (slips_enter_map calm _ _ env) <|
    .left ((slips_enter_map calm e.node (goesOn f) env).frame env (.map (goesOn g))) <|
      .right (slips_enter_map calm _ _ env) (.of (.under _))

/-! A continuation of a value that is there -/

/-- The signal has not fired. -/
def Unfired (env : Env) (s : Store H) : Prop := s.isFired env.signal = false

theorem slips_succeed (x : a.El H) (env : Env) :
    Slips (Unfired env) (enter (Effect.succeed x).node env) (settled (.ok ⟨a, x⟩)) := by
  intro p depth s live
  have live : s.isFired env.signal = false := live
  refine ⟨rfl, ?_⟩
  show some (source env s (settled (.ok ⟨a, x⟩), s)) = _
  rw [source, live]
  rfl

/-- The continuation of a value, and the effect that is built late. -/
inductive Immediate (f : a.El H → Code H (Effect H b)) (x : a.El H) (env : Env) :
    Execution H → Execution H → Prop
  | waits : Immediate f x env (frame env (.map (goesOn f)) (settled (.ok ⟨a, x⟩)))
      (enter (Effect.suspend (f x)).node env)
  | same (y : Execution H) : Immediate f x env y y

theorem move_immediate (f : a.El H → Code H (Effect H b)) (x : a.El H) (live : Unfired env s)
    (p : Policy) : (frame env (.map (goesOn f)) (settled (.ok ⟨a, x⟩))).move p 0 s =
      (enter (Effect.suspend (f x)).node env).move p 0 s := by
  have live : s.isFired env.signal = false := live
  have starts : (enter (Effect.suspend (f x)).node env).move p 0 s =
      some (source env s (build s ((f x).map Effect.node) (enter · env))) := rfl
  rw [move_map_settled, starts, build_goesOn, Value.take_mk, source, live, build_map]
  rfl

theorem alike_immediate {x : a.El H} : Alike (Unfired env) b (Immediate f x env) where
  steps related := by
    cases related with
    | same => exact .inr fun p s _ => inStep_same (R := Immediate f x env) Immediate.same p _ s
    | waits =>
      refine .inr fun p s live => ⟨rfl, ?_⟩
      rw [move_immediate f x live p]
      exact .inr ⟨_, _, _, rfl, rfl, .of (.same _)⟩
  deadlines related s := by
    cases related <;> rfl
  exits related := by
    cases related <;> rfl
  panics related := by
    cases related <;> rfl

theorem upTo_immediate (f : a.El H → Code H (Effect H b)) (x : a.El H) (env : Env) :
    UpTo (Unfired env) (Immediate f x env) (enter ((Effect.succeed x).andThen f).node env)
      (enter (Effect.suspend (f x)).node env) :=
  .left (slips_enter_map _ _ _ env) <|
    .left ((slips_succeed x env).frame env (.map (goesOn f))) (.of .waits)

/-- While others wait, it does not matter whether the signal has fired. -/
theorem shows_immediate {P : Policy.Choice} {free : Prop} {L : List (Sight H b)} (held : ¬ free)
    (inhabited : ∃ p, P true p) (f : a.El H → Code H (Effect H b)) (x : a.El H) (env : Env)
    (s : Store H) : ((Effect.succeed x).andThen f).Shows P free env s L ↔
      (Effect.suspend (f x)).Shows P free env s L := by
  have entered : ((Effect.succeed x).andThen f).Shows P free env s L ↔
      (frame env (.map (goesOn f)) (enter (Effect.succeed x).node env)).Shows P free s L :=
    shows_iff_of_unseen held inhabited fun _ => ⟨rfl, rfl⟩
  cases fired : s.isFired env.signal with
  | false =>
    have live : Unfired env s := fired
    have there :
        (frame env (.map (goesOn f)) (enter (Effect.succeed x).node env)).Shows P free s L ↔
        (frame env (.map (goesOn f)) (settled (.ok ⟨a, x⟩))).Shows P free s L :=
      shows_iff_of_unseen held inhabited fun p => (slips_succeed x env).frame env _ p 0 s live
    have busy : ¬ (frame env (.map (goesOn f)) (settled (.ok ⟨a, x⟩))).Stuck P s :=
      (exists_movesTo inhabited fun _ => ⟨rfl, rfl⟩).not_stuck
    exact entered.trans <| there.trans <|
      shows_iff_of_same held busy fun p => ⟨rfl, move_immediate f x live p⟩
  | true =>
    -- both abort, and neither calls the code
    have aborts : ∀ start : Execution H × Store H,
        source env s start = (settled (.error .aborted), s) := by
      intro start
      rw [source, fired]
      rfl
    have failed :
        (frame env (.map (goesOn f)) (enter (Effect.succeed x).node env)).Shows P free s L ↔
        (frame env (.map (goesOn f)) (settled (.error .aborted))).Shows P free s L := by
      refine shows_iff_of_unseen held inhabited fun p => ?_
      have moved : (enter (Effect.succeed x).node env).move p 1 s =
          some (settled (.error .aborted), s) := congrArg some (aborts _)
      rw [move_map_running rfl, moved]
      exact ⟨rfl, rfl⟩
    have settles : (frame env (.map (goesOn f)) (settled (.error .aborted))).Shows P free s L ↔
        (settled (.error .aborted)).Shows P free s L :=
      shows_iff_of_unseen held inhabited fun _ => ⟨rfl, rfl⟩
    have suspended : (Effect.suspend (f x)).Shows P free env s L ↔
        (settled (.error .aborted)).Shows P free s L :=
      shows_iff_of_unseen held inhabited fun _ => ⟨rfl, congrArg some (aborts _)⟩
    exact entered.trans <| failed.trans <| settles.trans suspended.symm

/-! The value itself as the continuation -/

/-- The continuation that goes on with the value. -/
def itself (x : a.El H) : Code H (Effect H a) := Code.pure (.succeed x)

/-- An effect under way, with the continuation and without it. -/
inductive Returning (a : Shape H.Plain) (env : Env) : Execution H → Execution H → Prop
  | under {x : Execution H} (running : x.ended = false) :
      Returning a env (frame env (.map (goesOn (itself (a := a)))) x) x
  | settled {exit exit' : Exit H} (same : exit.outcome a = exit'.outcome a) :
      Returning a env (.settled exit) (.settled exit')
  | unwound (p : Panic) : Returning a env (.unwound p) (.unwound p)

/-- Once the effect has ended, the continuation ends alike. -/
theorem upTo_returning (x : Execution H) (env : Env) : UpTo (Unfired env) (Returning a env)
    (frame env (.map (goesOn (itself (a := a)))) x) x := by
  cases ended : x.ended with
  | false => exact .of (.under ended)
  | true =>
    cases x with
    | unwound p => exact .left (slips_unwound _ _ env p) (.of (.unwound p))
    | settled exit =>
      cases exit with
      | error g => exact .left (slips_failed _ _ env g) (.of (.settled rfl))
      | ok v =>
        cases taken : v.take a with
        | error g =>
          have slips : Slips (Unfired env) (frame env (.map (goesOn (itself (a := a))))
              (settled (.ok v))) (settled (.error g)) := by
            intro p depth s _
            rw [move_map_settled, build_goesOn, taken]
            exact ⟨rfl, rfl⟩
          exact .left slips (.of (.settled taken.symm))
        | ok x =>
          have slips : Slips (Unfired env) (frame env (.map (goesOn (itself (a := a))))
              (settled (.ok v))) (enter (Effect.succeed x).node env) := by
            intro p depth s _
            rw [move_map_settled, build_goesOn, taken]
            exact ⟨rfl, rfl⟩
          have same : Exit.outcome a (.ok ⟨a, x⟩) = Exit.outcome a (.ok v) :=
            (Value.take_mk a x).trans taken.symm
          exact .left slips (.left (slips_succeed x env) (.of (.settled same)))
    | _ => cases ended

theorem alike_returning : Alike (Unfired env) a (Returning a env) where
  steps related := by
    cases related with
    | under running =>
      refine .inl fun p q s agree _ => ⟨?_, ?_⟩
      · rw [going_map, running, Bool.false_or]
        exact going_agree (agree.polling false) _ s
      · rw [move_map_running running, move_agree agree]
        generalize Execution.move q 0 s _ = moved
        cases moved with
        | none => exact .inl ⟨rfl, rfl⟩
        | some next => exact .inr ⟨_, _, _, rfl, rfl, upTo_returning _ env⟩
    | settled | unwound => exact .inr fun p s _ => ⟨rfl, .inl ⟨rfl, rfl⟩⟩
  deadlines related s := by
    cases related <;> rfl
  exits related := by
    cases related with
    | under running => rw [(not_ended_iff.1 running).1]; rfl
    | settled same => exact congrArg some same
    | unwound => rfl
  panics related := by
    cases related with
    | under running => rw [(not_ended_iff.1 running).2]; rfl
    | settled | unwound => rfl

end Execution

namespace Effect

variable [Tracing H] {P : Policy.Choice}

/-- To chain is associative, and `succeed` is its unit on both sides; in each law both effects also
require the same keys. The first law holds of all that may be seen, with signals that fire at any
moment. In the second one both effects look at the signal before they call `f`, the late one in the
move that calls it. The signal must not fire in between, and it cannot unless others may act at any
moment. In the third one the value is lost if the signal has fired when `succeed` looks at it. -/
theorem chaining_is_monadic (family : Policy.Family P) (free : Prop) (e : Effect H a)
    (f : a.El H → Code H (Effect H b)) (g : b.El H → Code H (Effect H c)) (x : a.El H) (env : Env)
    (s : Store H) :
    (((e.andThen f).andThen g).requires = (e.andThen fun v => (f v).map (·.andThen g)).requires ∧
      ∀ L : List (Sight H c), ((e.andThen f).andThen g).Shows P free env s L ↔
        (e.andThen fun v => (f v).map (·.andThen g)).Shows P free env s L) ∧
    (((succeed x).andThen f).requires = (suspend (f x)).requires ∧
      ∀ L : List (Sight H b), (free → Throughout (Execution.Unfired env) s L) →
        (((succeed x).andThen f).Shows P free env s L ↔
          (suspend (f x)).Shows P free env s L)) ∧
    ((e.andThen fun v => Code.pure (succeed v)).requires = e.requires ∧
      ∀ L : List (Sight H a), Throughout (Execution.Unfired env) s L →
        ((e.andThen fun v => Code.pure (succeed v)).Shows P free env s L ↔
          e.Shows P free env s L)) := by
  refine ⟨⟨rfl, fun L => ?_⟩, ⟨rfl, fun L live => ?_⟩, rfl, fun L live => ?_⟩
  · exact Execution.alike_nested.shows_iff family
      (Execution.upTo_nested e f g (fun _ => True) env) ⟨trivial, fun _ _ => trivial⟩
  · by_cases held : free
    · exact Execution.alike_immediate.shows_iff family (Execution.upTo_immediate f x env)
        (live held)
    · exact Execution.shows_immediate held family.inhabited f x env s
  · exact Execution.alike_returning.shows_iff family
      (.left (Execution.slips_enter_map _ _ _ env) (Execution.upTo_returning _ env)) live

/-! An effect that counts -/

def countedEnv : Env := ⟨⟨0, []⟩, .root 0, none⟩

def uncounted : Effect Host.counting (.plain ()) := .succeed (0 : Nat)

def countedSights : List (Sight Host.counting (.plain ())) :=
  [.acted { Runner.countingStore with user := (1 : Nat) }, .settled (.ok (0 : Nat))]

/-- With `succeed` after it or before it, the effect counts once and delivers its count. -/
theorem counts_once_when_chained :
    Policy.Family (Policy.level List.head?) ∧
    Throughout (Execution.Unfired countedEnv) Runner.countingStore countedSights ∧
    (Runner.counted.andThen fun n => Code.pure (succeed n)).Shows (Policy.level List.head?) True
      countedEnv Runner.countingStore countedSights ∧
    (uncounted.andThen fun _ => Code.pure Runner.counted).Shows
      (Policy.level List.head?) True countedEnv Runner.countingStore countedSights := by
  have family : Policy.Family (Policy.level List.head?) := Policy.family_level List.head?
  have live : Throughout (Execution.Unfired countedEnv) Runner.countingStore countedSights := by
    refine ⟨rfl, fun t ht => ?_⟩
    obtain rfl := List.mem_singleton.1 ht
    rfl
  have counts : Runner.counted.Shows (Policy.level List.head?) True countedEnv Runner.countingStore
      countedSights :=
    .acts (Execution.exists_movesTo family.inhabited fun _ => ⟨rfl, rfl⟩)
      (fun same => Nat.one_ne_zero (congrArg Store.user same)) (.settles _ _)
  have late : (suspend (Code.pure Runner.counted)).Shows (Policy.level List.head?) True countedEnv
      Runner.countingStore countedSights :=
    .silent (Execution.exists_movesTo family.inhabited fun _ => ⟨rfl, rfl⟩) counts
  obtain ⟨-, ⟨-, before⟩, -, after⟩ := chaining_is_monadic family True Runner.counted
    (fun _ => Code.pure Runner.counted) (fun _ => Code.pure Runner.counted) (0 : Nat) countedEnv
    Runner.countingStore
  exact ⟨family, live, (after countedSights live).2 counts,
    (before countedSights fun _ => live).2 late⟩

end Effect

end ScopedEffects
