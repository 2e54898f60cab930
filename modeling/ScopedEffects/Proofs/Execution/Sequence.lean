import ScopedEffects.Proofs.Execution.Gather
import ScopedEffects.Proofs.Execution.Timely

/-! Effects one after the other, in two forms. A chain goes on with the next effect from within
the continuation of the one before; a crew with room for one branch admits the next branch when it
has absorbed the one before. The effect that is under way is the same in both, at the same depth
and in the same store. One move of the chain is one move of the crew, but for the end after a
failure, where the crew takes the failure in before it settles. -/

namespace ScopedEffects

variable {H : Host} {a : Shape H.Plain}

/-- The effects one after the other, each in a continuation of the one before, and at the end all
values, after those that there are already. -/
def Effect.inSequence : List (Effect H a) → List (a.El H) → Effect H (.list a)
  | [], xs => .succeed xs
  | e :: rest, xs => e.andThen fun x => Code.pure (inSequence rest (xs ++ [x]))

namespace Execution

/-- The effect of a sequence that is under way, as an execution. -/
def current? : Execution H → Option (Execution H)
  | crew _ _ _ (.cons _ x .nil) => some x
  | frame _ (.map _) x => some x
  | frame _ (.timeout ..) x | frame _ (.draining ..) x => x.current?
  | _ => none

variable [Tracing H] {policy : Policy} {env : Env} {c : Crew H} {x : Execution H} {s : Store H}

/-- The only branch of a crew is the one that was asked last, or has not been asked yet. -/
def AskedLast (round : Round) (k : Nat) (x : Execution H) : Prop :=
  round.asked = [k] ∨ round.asked = [] ∧ ∃ n envn, x = .enter n envn

omit [Tracing H] in
/-- The poll lets a crew that has no room go on as its only branch goes on. -/
theorem going_only (full : c.next? env 1 = none) {round : Round} {k : Nat}
    (asked : AskedLast round k x) (policy : Policy) (depth : Nat) (s : Store H) :
    (crew env c round (.cons k x .nil)).going policy depth s =
      (x.ended || x.going policy (depth + 1) s) := by
  cases ended : x.ended with
  | true =>
    cases x with
    | settled | unwound => rw [going]; rfl
    | _ => cases ended
  | false =>
    obtain ⟨unsettled, calm⟩ := not_ended_iff.1 ended
    rw [going]
    simp only [Branches.isEmpty, Branches.panic?, Branches.exit?, Branches.length, unsettled, calm,
      full, Option.map_none, Option.none_or, Option.isSome_none, Bool.false_or]
    rcases asked with asked | ⟨asked, n, envn, rfl⟩
    · cases anew : policy.anew with
      | true =>
        rw [going_anew anew]
        by_cases able : x.ready s = true
        · simp [Poll.polled, asked, branchGoing, going_anew anew, readyBranches, able]
        · simp [Poll.polled, asked, branchGoing, going_anew anew, readyBranches, able]
      | false =>
        by_cases able : x.ready s = true
        · by_cases same : round.instant = s.now <;>
            simp [Poll.polled, asked, branchGoing, readyBranches, able, same]
        · simp [Poll.polled, asked, branchGoing, readyBranches, able]
    · simp [Poll.polled, asked, readyBranches, ready, going]

/-- The only branch of a crew that has no room moves as what it is, in the poll that has reached the
crew. -/
theorem exists_move_only (diligent : policy.Diligent) (full : c.next? env 1 = none)
    (running : x.ended = false) {round : Round} {k depth : Nat} (asked : AskedLast round k x)
    (goes : policy.anew = true ∨ x.going policy (depth + 1) s = true) :
    ∃ later : Execution H → Store H → Round, (∀ y t, (later y t).asked = [k]) ∧
      (crew env c round (.cons k x .nil)).move policy depth s =
        (x.move policy (depth + 1) s).map fun y =>
          (crew env c (later y.1 y.2) (.cons k y.1 .nil), y.2) := by
  obtain ⟨unsettled, calm⟩ := not_ended_iff.1 running
  have idle : moveCrew s env c round (.cons k x .nil) = none :=
    moveCrew_none_iff.2 ⟨by simp [Branches.panic?, calm], by simp [Branches.exit?, unsettled], full,
      rfl⟩
  cases able : x.ready s with
  | true =>
    have goes : x.going policy (depth + 1) s = true :=
      goes.elim (fun anew => (going_anew anew _ _ _).trans able) id
    have ready : readyBranches s (.cons k x .nil) = [k] := by simp [readyBranches, able]
    obtain ⟨i, hi, chosen⟩ := diligent.exists_choice depth round.queue (List.cons_ne_nil k [])
    obtain rfl := List.mem_singleton.1 hi
    have branch : branchGoing policy (depth + 1) s i (.cons i x .nil) = true := by
      rw [branchGoing, if_pos rfl, goes]
    have toward : x.move (round.toward policy true i) (depth + 1) s =
        x.move policy (depth + 1) s := by
      rcases asked with asked | ⟨-, n, envn, rfl⟩
      · simp [Poll.toward, asked]
      · rw [move, move]
    refine ⟨fun y t => { round.ask policy.anew s.now [] true i with
      queue := requeue (refill round.queue [i]) (readyBranches t (.cons i y .nil))
        (branchGoing { policy with anew := false } (depth + 1) t i (.cons i y .nil)) i },
      fun y t => ?_, ?_⟩
    · rcases asked with asked | ⟨asked, -⟩
      · by_cases again : policy.anew || round.instant != s.now <;>
          simp [Poll.ask, Poll.polled, asked, again]
      · simp [Poll.ask, Poll.polled, asked]
    · rw [move, idle, ready]
      simp only [chosen, branch, moveBranch, if_true, toward, Option.map_map]
      rfl
  | false =>
    have ready : readyBranches s (.cons k x .nil) = [] := by simp [readyBranches, able]
    have nobody : policy.choose depth (refill round.queue []) = none := by
      rw [Option.eq_none_iff_forall_ne_some]
      intro i chosen
      have inside := mem_refill.1 (Policy.mem_of_choose chosen)
      cases inside
    have still : x.move policy (depth + 1) s = none := by
      by_contra moves
      obtain ⟨moved, hm⟩ := Option.ne_none_iff_exists'.1 moves
      rw [ready_of_move hm] at able
      cases able
    refine ⟨fun _ _ => { asked := [k] }, fun _ _ => rfl, ?_⟩
    rw [move, idle, ready, still]
    simp only [nobody, Option.map_none]

end Execution

namespace Sequence

/-- How a chain goes on after the value of one of its effects. -/
def goesOn (xs : List (a.El H)) (rest : List (Effect H a)) (v : Value H) :
    Code H (Next H (Node H)) :=
  Code.onValue a v .fail fun x =>
    (Code.pure (Effect.inSequence rest (xs ++ [x]))).map fun e => .effect e.node

/-- The crew that has the values `xs`, and has still to admit the effects `rest`; so many are under
way. -/
def turns (xs : List (a.El H)) (rest : List (Effect H a)) (running : Nat) : Crew H :=
  .all (some 1) (Value.takeAll a)
    (((rest.map Effect.node).zipIdx (xs.length + running)).map Prod.swap)
    (xs.map (fun x => some ⟨a, x⟩) ++ List.replicate (rest.length + running) none) none

variable {xs : List (a.El H)} {rest : List (Effect H a)} {env : Env} {s : Store H} {x : a.El H}

theorem start_gather (live : s.isFired env.signal = false) (es : List (Effect H a)) :
    Execution.start env s (Effect.gather (some 1) es).node =
      (.crew env (turns [] es 0) {} .nil, s) := by
  simp [Effect.gather, Execution.start, Execution.source, live, turns, Function.comp_def,
    List.map_const']

theorem start_succeed (env : Env) (s : Store H) (xs : List (a.El H)) :
    Execution.start env s (Effect.inSequence [] xs).node =
      (.settled (if s.isFired env.signal then .error .aborted else .ok ⟨.list a, xs⟩), s) := by
  show Execution.source env s (.settled (.ok ⟨.list a, xs⟩), s) = _
  unfold Execution.source
  split <;> rfl

theorem resume_goesOn [Tracing H] (x : a.El H) (env : Env) (s : Store H) :
    (Frame.map (goesOn xs rest)).resume env (.ok ⟨a, x⟩) s =
      (.enter (Effect.inSequence rest (xs ++ [x])).node env, s) := by
  have value : goesOn xs rest ⟨a, x⟩ =
      Code.pure (.effect (Effect.inSequence rest (xs ++ [x])).node) := by
    unfold goesOn Code.onValue
    rw [Value.take_mk]
    rfl
  simp only [Frame.resume, value]
  rfl

theorem next?_turns (e : Effect H a) :
    (turns xs (e :: rest) 0).next? env 0 = some (xs.length, e.node, turns xs rest 1) := by
  simp [turns, Crew.next?, Crew.hasRoom_zero]

theorem next?_turns_full (xs : List (a.El H)) (rest : List (Effect H a)) (env : Env) :
    (turns xs rest 1).next? env 1 = none := by
  unfold Crew.next?
  split
  · rename_i crew
    injection crew with cap
    subst cap
    simp [Crew.hasRoom, Crew.limit]
  · rfl

theorem next?_turns_nil (running : Nat) :
    (turns xs ([] : List (Effect H a)) 0).next? env running = none := rfl

theorem absorb_turns (x : a.El H) (s : Store H) :
    (turns xs rest 1).absorb xs.length (.ok ⟨a, x⟩) s = (turns (xs ++ [x]) rest 0, s) := by
  simp [turns, Crew.absorb, List.replicate_succ]

/-- Nothing is admitted after a failure. -/
theorem next?_of_failure (i : Nat) (f : Failure H) (s : Store H) (running : Nat) :
    ((turns xs rest 1).absorb i (.error f) s).1.next? env running = none := by
  show (Crew.all _ _ _ _ (some _)).next? env running = none
  unfold Crew.next?
  split
  · rename_i failed
    injection failed
    contradiction
  · rfl

theorem conclude_turns (env : Env) (s : Store H) :
    (turns xs ([] : List (Effect H a)) 0).conclude env s = .ok ⟨.list a, xs⟩ := by
  show Value.takeAll a ((xs.map (fun x => some (⟨a, x⟩ : Value H)) ++ []).filterMap id) = _
  rw [List.append_nil]
  exact Gathering.takeAll_values xs

section Moves

variable [Tracing H] (policy : Policy) (depth : Nat) (env : Env) (xs : List (a.El H))
  (rest : List (Effect H a)) (round : Round) (s : Store H)

theorem move_admits (e : Effect H a) :
    (Execution.crew env (turns xs (e :: rest) 0) round .nil).move policy depth s =
      some (.crew env (turns xs rest 1) (round.enqueue [] xs.length)
        (.cons xs.length (.enter e.node env) .nil), s) := by
  rw [Execution.move]
  simp [Execution.moveCrew, Branches.panic?, Branches.exit?, Branches.length, next?_turns,
    Execution.readyBranches, Branches.push]

theorem move_absorbs (exit : Exit H) :
    (Execution.crew env (turns xs rest 1) round
        (.cons xs.length (.settled exit) .nil)).move policy depth s =
      some (.crew env ((turns xs rest 1).absorb xs.length exit s).1 round.restart .nil,
        ((turns xs rest 1).absorb xs.length exit s).2) := by
  rw [Execution.move]
  simp [Execution.moveCrew, Branches.panic?, Branches.exit?, Execution.panic?, Execution.exit?,
    Branches.erase]

theorem move_concludes :
    (Execution.crew env (turns xs ([] : List (Effect H a)) 0) round .nil).move policy depth s =
      some (.settled (.ok ⟨.list a, xs⟩), s) := by
  rw [Execution.move]
  simp [Execution.moveCrew, Branches.panic?, Branches.exit?, Branches.isEmpty, conclude_turns,
    next?_turns_nil]

end Moves

/-! Side by side -/

/-- The crew and the chain, each with its store. If `lax`, they may settle in different ways. -/
inductive Abreast (a : Shape H.Plain) (lax : Prop) (env : Env) :
    Execution H → Store H → Execution H → Store H → Prop
  | between (xs : List (a.El H)) (rest : List (Effect H a)) {round : Round}
      (fresh : round.asked = []) (s : Store H) :
      Abreast a lax env (.crew env (turns xs rest 0) round .nil) s
        (.enter (Effect.inSequence rest xs).node env) s
  | under (xs : List (a.El H)) (rest : List (Effect H a)) {round : Round} {x : Execution H}
      (asked : Execution.AskedLast round xs.length x) (s : Store H) :
      Abreast a lax env (.crew env (turns xs rest 1) round (.cons xs.length x .nil)) s
        (.frame env (.map (goesOn xs rest)) x) s
  | failed {c : Crew H} {f : Failure H} (round : Round) (e : Event) (s : Store H)
      (full : ∀ k, c.next? env k = none) (concludes : ∀ s, c.conclude env s = .error f) :
      Abreast a lax env (.crew env c round .nil) (s.record e) (.settled (.error f)) s
  | settled {exit exit' : Exit H} {s s' : Store H} (same : exit = exit' ∨ lax)
      (stores : s = { s' with trace := s.trace }) :
      Abreast a lax env (.settled exit) s (.settled exit') s'

namespace Abreast

variable {lax : Prop} {x' y y' : Execution H} {x : Execution H} {s' : Store H}

theorem mono {lax' : Prop} (h : Abreast a lax env x s y s') (up : lax → lax') :
    Abreast a lax' env x s y s' := by
  cases h with
  | between _ _ fresh => exact .between _ _ fresh _
  | under _ _ asked => exact .under _ _ asked _
  | failed _ _ _ full concludes => exact .failed _ _ _ full concludes
  | settled same stores => exact .settled (same.imp_right up) stores

theorem stores (h : Abreast a lax env x s y s') : s = { s' with trace := s.trace } := by
  cases h with
  | settled _ stores => exact stores
  | _ => rfl

/-- As long as the chain runs, there is one store, and it does not matter which. -/
theorem anywhere (h : Abreast a lax env x s y s') (running : y.ended = false) :
    s = s' ∧ ∀ t, Abreast a lax env x t y t := by
  cases h with
  | between _ _ fresh => exact ⟨rfl, .between _ _ fresh⟩
  | under _ _ asked => exact ⟨rfl, .under _ _ asked⟩
  | failed | settled => cases running

variable [Tracing H] {policy : Policy}

omit [Tracing H] in
theorem blocks (h : Abreast a lax env x s y s') (running : y.ended = false) :
    x.ended = false ∧ (∀ policy depth, x.going policy depth s = y.going policy depth s) ∧
      x.deadlines s = y.deadlines s := by
  cases h with
  | between => exact ⟨rfl, fun _ _ => by simp [Execution.going, Branches.isEmpty], rfl⟩
  | under xs rest asked s =>
    refine ⟨rfl, fun policy depth => ?_, List.append_nil _⟩
    rw [Execution.going_only (next?_turns_full xs rest env) asked, Execution.going]
    exact (Bool.or_false _).symm
  | failed | settled => cases running

/-- When the chain has ended, the crew has ended too or has one move left. -/
theorem ends (h : Abreast a lax env x s y s') (ended : y.ended = true) :
    (∃ exit exit', x = .settled exit ∧ y = .settled exit' ∧ (exit = exit' ∨ lax)) ∨
      ∃ f, y = .settled (.error f) ∧ x.ended = false ∧
        (∀ policy depth, x.going policy depth s = true) ∧
        ∀ policy depth, x.move policy depth s = some (.settled (.error f), s) := by
  cases h with
  | between | under => cases ended
  | settled same => exact .inl ⟨_, _, rfl, rfl, same⟩
  | failed round e s full concludes =>
    refine .inr ⟨_, rfl, rfl, fun policy depth => ?_, fun policy depth => ?_⟩
    · rw [Execution.going]
      rfl
    · rw [Execution.move]
      simp [Execution.moveCrew, Branches.panic?, Branches.exit?, Branches.isEmpty, full, concludes]

/-- As long as the chain runs, both move in the poll that has reached them, or neither does. -/
theorem step (h : Abreast a lax env x s y s') (diligent : policy.Diligent) (depth : Nat)
    (running : y.ended = false) (goes : policy.anew = true ∨ y.going policy depth s' = true)
    (typed : ∀ v, y.current? = some (.settled (.ok v)) → v.1 = a)
    (calm : ∀ p, y.current? ≠ some (.unwound p)) (live : s'.isFired env.signal = false ∨ lax) :
    x.move policy depth s = none ∧ y.move policy depth s' = none ∨
      ∃ x₁ s₁ y₁ s₁', x.move policy depth s = some (x₁, s₁) ∧
        y.move policy depth s' = some (y₁, s₁') ∧ Abreast a lax env x₁ s₁ y₁ s₁' := by
  cases h with
  | @between xs rest round fresh s =>
    cases rest with
    | nil =>
      have chain : (Execution.enter (Effect.inSequence ([] : List (Effect H a)) xs).node env).move
          policy depth s = _ := congrArg some (start_succeed env s xs)
      refine .inr ⟨_, _, _, _, move_concludes .., chain, .settled ?_ rfl⟩
      rcases live with live | lax
      · exact .inl (by simp [live])
      · exact .inr lax
    | cons e rest =>
      have asked : Execution.AskedLast (round.enqueue [] xs.length) xs.length (.enter e.node env) :=
        .inr ⟨fresh, _, _, rfl⟩
      exact .inr ⟨_, _, _, _, move_admits .., rfl, .under _ _ asked _⟩
  | @under xs rest round z asked s =>
    cases hz : z.ended with
    | true =>
      cases z with
      | settled exit =>
        have resumes : (Execution.frame env (.map (goesOn xs rest)) (.settled exit)).move policy
            depth s = some ((Frame.map (goesOn xs rest)).resume env exit s) := by
          rw [Execution.move]
          rfl
        have absorbs := move_absorbs policy depth env xs rest round s exit
        cases exit with
        | ok v =>
          obtain ⟨shape, x⟩ := v
          obtain rfl : shape = a := typed _ rfl
          rw [absorb_turns] at absorbs
          rw [resume_goesOn] at resumes
          exact .inr ⟨_, _, _, _, absorbs, resumes, .between _ _ rfl _⟩
        | error f =>
          exact .inr ⟨_, _, _, _, absorbs, resumes,
            .failed round.restart _ s (next?_of_failure xs.length f s) fun _ => rfl⟩
      | unwound p => exact absurd rfl (calm p)
      | _ => cases hz
    | false =>
      have goes : policy.anew = true ∨ z.going policy (depth + 1) s = true := by
        simpa [Execution.going, hz, Frame.expired] using goes
      obtain ⟨later, last, moved⟩ :=
        Execution.exists_move_only diligent (next?_turns_full xs rest env) hz asked goes
      have above := Execution.move_frame_running hz policy depth env (.map (goesOn xs rest)) s
      have unlimited : (Frame.map (goesOn xs rest)).expired s.now = false := rfl
      rw [unlimited, Bool.false_and, if_neg Bool.false_ne_true] at above
      cases hm : z.move policy (depth + 1) s with
      | none => exact .inl ⟨by rw [moved, hm]; rfl, by rw [above, hm]; rfl⟩
      | some next =>
        rw [hm] at moved above
        exact .inr ⟨_, _, _, _, moved, above, .under _ _ (.inl (last _ _)) _⟩
  | failed | settled => cases running

end Abreast

end Sequence

end ScopedEffects
