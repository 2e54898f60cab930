import ScopedEffects.Proofs.Execution.Containment
import ScopedEffects.Proofs.Execution.Operations

/-! Effects that begin under a signal that has fired. No source starts, so whatever goes on outside
finalizers is a chain of steps above one another, and each of them fails with the abort in its turn:
handlers are not asked, retries do not try again, and steps that run another effect run one that is
aborted too. A timeout without a fallback is the exception. When its time is over while a finalizer
above it is under way, it settles with its timeout all the same. -/

namespace ScopedEffects

variable {H : Host}

/-! What is outside finalizers -/

namespace Execution

/-- The part one step down, unless it is the effect of a finalizer. -/
def outerPart? : Execution H → Hop → Option (Execution H)
  | frame _ (.ensured _) _, _ => none
  | e, hop => e.part? hop

/-- The part at an address that leads through no finalizer's effect. -/
def outer? : Execution H → List Hop → Option (Execution H)
  | e, [] => some e
  | e, hop :: α => (e.outerPart? hop).bind (outer? · α)

variable {e x : Execution H} {hop : Hop} {α : List Hop}

theorem part?_of_outerPart? (h : e.outerPart? hop = some x) : e.part? hop = some x := by
  unfold outerPart? at h
  split at h
  · cases h
  · exact h

theorem at?_of_outer? (h : e.outer? α = some x) : e.at? α = some x := by
  induction α generalizing e with
  | nil => exact h
  | cons hop α ih =>
    obtain ⟨g, part, hg⟩ := Option.bind_eq_some_iff.1 h
    exact Option.bind_eq_some_iff.2 ⟨g, part?_of_outerPart? part, ih hg⟩

theorem outer?_snoc (e : Execution H) (α : List Hop) (hop : Hop) :
    e.outer? (α ++ [hop]) = (e.outer? α).bind (outerPart? · hop) := by
  induction α generalizing e with
  | nil => exact Option.bind_fun_some (e.outerPart? hop)
  | cons first α ih =>
    show (e.outerPart? first).bind (outer? · (α ++ [hop])) =
      ((e.outerPart? first).bind (outer? · α)).bind _
    rw [Option.bind_assoc]
    exact congrArg _ (funext ih)

end Execution

/-! Nodes that give in to a fired signal -/

/-- A source looks at the signal before it starts. -/
def Node.IsSource : Node H → Prop
  | .sync _ | .program _ | .cancellable _ | .suspend _ | .service _ | .all .. | .any _ | .race _ => True
  | _ => False

/-- No step of the node is a span, and what it runs after an abort is again of this kind. Sources are
not looked into, nor is what runs after a success, after a failure that can be handled, or in a
finalizer. -/
inductive Node.Abortable : Node H → Prop
  | source {n} (h : n.IsSource) : Abortable n
  | map {u code} (h : Abortable u) : Abortable (.map u code)
  | withService {u t pair} (h : Abortable u) : Abortable (.withService u t pair)
  | recover {u code} (h : Abortable u) : Abortable (.recover u code)
  | tap {u code} (h : Abortable u) : Abortable (.tap u code)
  | tapError {u code} (h : Abortable u) (next : Clock → H.State → Node H)
      (answers : ∀ now v, (code .aborted now v).answer = .ok (next now v))
      (hn : ∀ now v, Abortable (next now v)) : Abortable (.tapError u code)
  | ensuring {u code} (h : Abortable u) : Abortable (.ensuring u code)
  | timeout {u after fallback} (h : Abortable u) (hf : ∀ n, fallback = some n → Abortable n) :
      Abortable (.timeout u after fallback)
  | retry {u policy} (h : Abortable u) : Abortable (.retry u policy)
  | provide {u p} (h : Abortable u) : Abortable (.provide u p)

/-- A frame that passes an abort on, or runs an effect first that is aborted too. -/
inductive Frame.Passes : Frame H → Prop
  | map {code} : Passes (.map code)
  | withService {t pair} : Passes (.withService t pair)
  | recover {code} : Passes (.recover code)
  | tap {code} : Passes (.tap code)
  | tapError {code} (next : Clock → H.State → Node H)
      (answers : ∀ now v, (code .aborted now v).answer = .ok (next now v))
      (hn : ∀ now v, (next now v).Abortable) : Passes (.tapError code)
  | tapErrored : Passes (.tapErrored .aborted)
  | ensuring {code} : Passes (.ensuring code)
  | timeout {deadline after child fallback} (hf : ∀ n, fallback = some n → n.Abortable) :
      Passes (.timeout deadline after child fallback)
  | draining {after n} (h : n.Abortable) : Passes (.draining after (some n))
  | retry {u policy} : Passes (.retry u policy 0)

namespace Execution

/-- The execution is a chain of steps that pass the abort on. A finalizer's effect may be anything. -/
inductive Aborting (s : Store H) : Execution H → Prop
  | enter {n env} (h : n.Abortable) (fired : s.isFired env.signal = true) : Aborting s (.enter n env)
  | frame {env f above} (hf : f.Passes) (fired : s.isFired env.signal = true)
      (h : Aborting s above) : Aborting s (.frame env f above)
  | ensured {env above} : Aborting s (.frame env (.ensured (.error .aborted)) above)
  | settled : Aborting s (.settled (.error .aborted))

variable {s s' : Store H} {env : Env} {e e' x : Execution H} {n : Node H} {hop : Hop} {α : List Hop}

theorem Aborting.mono (h : e.Aborting s) (hs : s.fired ⊆ s'.fired) : e.Aborting s' := by
  induction h with
  | enter h fired => exact .enter h (Store.isFired_of_subset hs fired)
  | frame hf fired _ ih => exact .frame hf (Store.isFired_of_subset hs fired) ih
  | ensured => exact .ensured
  | settled => exact .settled

theorem Aborting.outerPart? (h : e.Aborting s) (hx : e.outerPart? hop = some x) :
    x.Aborting s ∧ hop = .above ∧ ∃ env f, e = .frame env f x ∧ f.Passes := by
  have part := part?_of_outerPart? hx
  cases h with
  | enter => cases part
  | @frame envf f above hf fired h =>
    cases hop with
    | branch => cases part
    | above =>
      cases part
      exact ⟨h, rfl, envf, f, rfl, hf⟩
  | ensured => cases hx
  | settled => cases part

theorem Aborting.outer? (h : e.Aborting s) (hx : e.outer? α = some x) : x.Aborting s := by
  induction α generalizing e with
  | nil => exact Option.some.inj hx ▸ h
  | cons hop α ih =>
    obtain ⟨g, part, hg⟩ := Option.bind_eq_some_iff.1 hx
    exact ih (h.outerPart? part).1 hg

theorem Aborting.exit_eq {exit : Exit H} (h : (Execution.settled exit).Aborting s) :
    exit = .error .aborted := by
  cases h
  rfl

/-- A timeout without a fallback that is outside finalizers ends its time with this move. -/
def Lapses (s : Store H) (e e' : Execution H) : Prop :=
  ∃ α env deadline after child above,
    e.outer? α = some (.frame env (.timeout deadline after child none) above) ∧
      e'.outer? α = some (.frame env (.draining after none) above) ∧ deadline ≤ s.now

theorem Lapses.below {f : Frame H} (h : Lapses s e e') (hf : f.Passes) :
    Lapses s (.frame env f e) (.frame env f e') := by
  obtain ⟨α, envt, deadline, after, child, above, before, later, due⟩ := h
  refine ⟨.above :: α, envt, deadline, after, child, above, ?_, ?_, due⟩
  · cases hf <;> exact before
  · cases hf <;> exact later

/-! Moves -/

theorem start_of_isSource (h : n.IsSource) (fired : s.isFired env.signal = true) :
    start env s n = (settled (.error .aborted), s) := by
  have stops : ∀ x : Execution H × Store H, source env s x = (settled (.error .aborted), s) :=
    fun x => if_pos fired
  cases n with
  | sync | program | cancellable | suspend | service | all | any | race => exact stops _
  | _ => cases h

theorem aborting_start (h : n.Abortable) (fired : s.isFired env.signal = true) :
    (start env s n).1.Aborting (start env s n).2 := by
  have kept := Store.isFired_of_subset (works_start env s n).fired fired
  cases h with
  | source h =>
    rw [start_of_isSource h fired]
    exact .settled
  | map h => exact .frame .map kept (.enter h kept)
  | withService h => exact .frame .withService kept (.enter h kept)
  | recover h => exact .frame .recover kept (.enter h kept)
  | tap h => exact .frame .tap kept (.enter h kept)
  | tapError h next answers hn => exact .frame (.tapError next answers hn) kept (.enter h kept)
  | ensuring h => exact .frame .ensuring kept (.enter h kept)
  | timeout h hf =>
    have child := Signal.descendsFrom_child env.signal s.signals.next
    exact .frame (.timeout hf) kept (.enter h (Store.isFired_of_descends child kept))
  | retry h => exact .frame .retry kept (.enter h kept)
  | provide h => exact .enter h kept

theorem resume_recover_aborted [Tracing H] (env : Env) (s : Store H)
    (code : Failure H → Code H (Option (Node H))) :
    (Frame.recover code).resume env (.error .aborted) s = (.settled (.error .aborted), s) :=
  resume_recover_defect rfl env s code

theorem resume_retry_aborted [Tracing H] (env : Env) (s : Store H) (u : Node H)
    (policy : RetryPolicy H) (attempt : Nat) :
    (Frame.retry u policy attempt).resume env (.error .aborted) s =
      (.settled (.error .aborted), s) :=
  resume_retry_defect rfl env s u policy attempt

variable [Tracing H]

theorem aborting_resume {f : Frame H} (hf : f.Passes) (fired : s.isFired env.signal = true) :
    (f.resume env (.error .aborted) s).1.Aborting (f.resume env (.error .aborted) s).2 := by
  have kept := Store.isFired_of_subset (works_resume env (.error .aborted) s f).fired fired
  cases hf with
  | map | withService | recover | tap | tapErrored | timeout => exact .settled
  | @tapError code next answers hn =>
    have performed : s.perform (code .aborted) =
        (.ok (next s.now s.user), (s.perform (code .aborted)).2) :=
      Prod.ext (answers s.now s.user) rfl
    have built : (Frame.tapError code).resume env (.error .aborted) s =
        (frame env (.tapErrored .aborted) (enter (next s.now s.user) env),
          (s.perform (code .aborted)).2) := by
      show build s (code .aborted) _ = _
      unfold build
      rw [performed]
    rw [built] at kept ⊢
    exact .frame .tapErrored kept (.enter (hn _ _) kept)
  | @ensuring code =>
    unfold Frame.resume
    dsimp only
    split
    · exact .ensured
    · rw [concludeFinalizer_eq]
      exact .settled
  | draining h => exact .enter h kept
  | @retry u policy =>
    rw [resume_retry_aborted]
    exact .settled

variable {policy : Policy} {depth : Nat}

theorem Aborting.move (h : e.Aborting s) (sound : e.Sound)
    (hm : e.move policy depth s = some (e', s')) : e'.Aborting s' ∨ Lapses s e e' := by
  induction h generalizing policy depth e' s' with
  | @enter n env h fired =>
    rw [Execution.move] at hm
    have begun := aborting_start h fired
    rw [Option.some.inj hm] at begun
    exact .inl begun
  | @frame env f above hf fired h ih =>
    have kept := (works_move hm).fired
    cases move_frame hm with
    | resumes settled =>
      subst settled
      cases h
      exact .inl (aborting_resume hf fired)
    | passes unwound =>
      subst unwound
      cases h
    | moves _ moved =>
      refine (ih sound.2.2 moved).imp (fun later => ?_) fun lapses => lapses.below hf
      exact .frame hf (Store.isFired_of_subset kept fired) later
    | @expires deadline after child fallback _ _ _ timeout due =>
      subst timeout
      cases hf with
      | timeout hf =>
        cases fallback with
        | some n =>
          exact .inl (.frame (.draining (hf n rfl)) (Store.isFired_of_subset kept fired)
            (h.mono kept))
        | none => exact .inr ⟨[], env, deadline, after, child, above, rfl, rfl, due⟩
  | ensured =>
    cases move_frame hm with
    | @resumes exit settled =>
      have concluded := concludeFinalizer_eq (.error .aborted) exit s
      exact .inl (concluded ▸ .settled)
    | passes unwound =>
      subst unwound
      exact sound.2.2.elim
    | moves => exact .inl .ensured
    | expires _ timeout => cases timeout
  | settled =>
    rw [Execution.move] at hm
    cases hm

/-- What is outside finalizers and has not ended is there after a move, or has moved itself. -/
theorem Aborting.move_outer? (h : e.Aborting s) (hm : e.move policy depth s = some (e', s'))
    (hx : e.outer? α = some x) (hn : x.ended = false) :
    e'.outer? α = some x ∨
      ∃ policy depth x', x.move policy depth s = some (x', s') ∧ e'.outer? α = some x' := by
  induction α generalizing e policy depth e' s' with
  | nil =>
    cases hx
    exact .inr ⟨policy, depth, e', hm, rfl⟩
  | cons hop α ih =>
    obtain ⟨above, part, hg⟩ := Option.bind_eq_some_iff.1 hx
    obtain ⟨aborting, rfl, env, f, rfl, hf⟩ := h.outerPart? part
    have lift : ∀ {above' : Execution H} {f' : Frame H} {y}, f'.Passes ∨ f' = f →
        above'.outer? α = some y →
          (Execution.frame env f' above').outer? (.above :: α) = some y := by
      intro above' f' y hf' hy
      have hf' : f'.Passes := hf'.elim id fun same => same ▸ hf
      cases hf' <;> exact hy
    cases move_frame hm with
    | resumes settled =>
      subst settled
      rw [at?_ended rfl (at?_of_outer? hg)] at hn
      cases hn
    | passes unwound =>
      subst unwound
      cases aborting
    | moves _ moved =>
      rcases ih aborting moved hg with same | ⟨p, d, x', hx', there⟩
      · exact .inl (lift (.inr rfl) same)
      · exact .inr ⟨p, d, x', hx', lift (.inr rfl) there⟩
    | expires _ timeout => exact .inl hg

end Execution

end ScopedEffects
