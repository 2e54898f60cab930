import ScopedEffects.Proofs.Execution.Branches

/-! The moves of tasks, frames and crews, one by one. A task of user code goes on, ends, or is
abandoned. A frame goes on when what is above it has ended, and
moves it or expires otherwise; a retry may go on with another attempt. A crew gives way to a panic,
absorbs a branch that has settled, admits the next branch, concludes, or moves one of its
branches. -/

namespace ScopedEffects

namespace Execution

variable {H : Host} [Tracing H] {policy : Policy} {depth : Nat} {s s' : Store H} {env : Env}
  {c : Crew H} {round : Round} {b : Branches H} {e e' : Execution H}

inductive TaskMoves (policy : Policy) (depth : Nat) (s : Store H) (guard : Guard) (t : Task H) :
    Execution H → Store H → Prop
  | settles {exit} (h : t.outcome? = some (.ok exit)) :
      TaskMoves policy depth s guard t (.settled exit) s
  | unwinds {p} (h : t.outcome? = some (.error p)) (bare : guard = .bare) :
      TaskMoves policy depth s guard t (.unwound p) s
  | catches {p} (h : t.outcome? = some (.error p)) (kept : guard ≠ .bare) :
      TaskMoves policy depth s guard t (ofPanic p) s
  | aborts {g} (running : t.outcome? = none) (h : guard = .signal g) (fired : s.isFired g = true)
      (rests : t.goesOn policy.anew s = false) :
      TaskMoves policy depth s guard t (.settled (.error .aborted)) (t.drop s)
  | steps {t' s₁} (running : t.outcome? = none) (h : t.step policy depth s = some (t', s₁))
      (able : t.canMove s = true) :
      TaskMoves policy depth s guard t (.task guard t') s₁

omit [Tracing H] in
theorem moveTask_moves {guard : Guard} {t : Task H}
    (h : moveTask policy depth s guard t = some (e', s')) :
    TaskMoves policy depth s guard t e' s' := by
  unfold moveTask at h
  split at h
  · rename_i settled
    cases h
    exact .settles settled
  · rename_i panicked
    split at h
    · cases h
      exact .unwinds panicked rfl
    · rename_i kept
      cases h
      exact .catches panicked kept
  · rename_i running
    split at h
    · rename_i given_up
      cases h
      cases guard with
      | signal g =>
        obtain ⟨fired, rests⟩ := Bool.and_eq_true_iff.1 given_up
        exact .aborts running rfl fired (by simpa using rests)
      | caught | bare => cases given_up
    · split at h
      · rename_i able
        obtain ⟨⟨t', s₁⟩, moved, he⟩ := Option.map_eq_some_iff.1 h
        cases he
        exact .steps running moved able
      · cases h

omit [Tracing H] in
theorem not_ended_iff {x : Execution H} :
    x.ended = false ↔ x.exit? = none ∧ x.panic? = none := by
  cases x <;> simp [ended, exit?, panic?]

/-! The moves of a frame, by what is above it -/

theorem move_frame_settled (f : Frame H) (exit : Exit H) :
    (frame env f (.settled exit)).move policy depth s = some (f.resume env exit s) := by
  rw [move]
  rfl

theorem move_frame_unwound (f : Frame H) (p : Panic) :
    (frame env f (.unwound p)).move policy depth s = some (.unwound p, s) := by
  rw [move]
  rfl

theorem move_frame_running {x : Execution H} (running : x.ended = false) (policy : Policy)
    (depth : Nat) (env : Env) (f : Frame H) (s : Store H) :
    (frame env f x).move policy depth s =
      if f.expired s.now && !x.going policy (depth + 1) s then f.expire env x s
      else (x.move policy (depth + 1) s).map fun y => (frame env f y.1, y.2) := by
  obtain ⟨unsettled, calm⟩ := not_ended_iff.1 running
  rw [move]
  simp only [unsettled, calm]

inductive FrameMoves (s : Store H) (env : Env) (f : Frame H) (above : Execution H) :
    Execution H → Store H → Prop
  | resumes {exit} (h : above = .settled exit) :
      FrameMoves s env f above (f.resume env exit s).1 (f.resume env exit s).2
  | passes {p} (h : above = .unwound p) : FrameMoves s env f above (.unwound p) s
  | moves {policy depth above' s₁} (running : above.ended = false)
      (h : above.move policy depth s = some (above', s₁))
      (goes : f.expired s.now = true → above.going policy depth s = true) :
      FrameMoves s env f above (.frame env f above') s₁
  | expires {deadline after child fallback policy depth} (running : above.ended = false)
      (h : f = .timeout deadline after child fallback) (due : deadline ≤ s.now)
      (rests : above.going policy depth s = false) :
      FrameMoves s env f above (.frame env (.draining after fallback) above)
        ((s.record (.timeoutExpired after)).fire child)

theorem move_frame {f : Frame H} {above : Execution H}
    (h : (frame env f above).move policy depth s = some (e', s')) :
    FrameMoves s env f above e' s' := by
  cases ended : above.ended with
  | true =>
    cases above with
    | settled exit =>
      rw [move_frame_settled] at h
      have resumed : FrameMoves s env f (.settled exit) _ _ := .resumes rfl
      rw [Option.some.inj h] at resumed
      exact resumed
    | unwound p =>
      rw [move_frame_unwound] at h
      cases h
      exact .passes rfl
    | _ => cases ended
  | false =>
    rw [move_frame_running ended] at h
    split at h
    · rename_i lapses
      have rests : above.going policy (depth + 1) s = false := by
        simpa using (Bool.and_eq_true_iff.1 lapses).2
      unfold Frame.expire at h
      split at h
      · split at h
        · rename_i due
          cases h
          exact .expires ended rfl due rests
        · cases h
      · cases h
    · rename_i open_still
      obtain ⟨⟨above', s₁⟩, moved, he⟩ := Option.map_eq_some_iff.1 h
      cases he
      exact .moves ended moved fun expired => by simpa [expired] using open_still

/-- What a retry does after a failure. -/
inductive Retries (env : Env) (inner : Node H) (policy : RetryPolicy H) (attempt : Nat)
    (f : Failure H) (s : Store H) : Execution H × Store H → Prop
  | exhausted (h : policy.times ≤ attempt) :
      Retries env inner policy attempt f s (.settled (.error f), s)
  | asking {p s₁} (more : attempt < policy.times)
      (asked : s.perform (policy.accepts f) = (.error p, s₁)) :
      Retries env inner policy attempt f s (.unwound p, s₁)
  | declines {s₁} (more : attempt < policy.times)
      (asked : s.perform (policy.accepts f) = (.ok false, s₁)) :
      Retries env inner policy attempt f s (.settled (.error f), s₁)
  | drawing {p s₁} (more : attempt < policy.times)
      (asked : s.perform (policy.accepts f) = (.ok true, s₁))
      (spread : policy.nextDelay (attempt + 1) (s₁.draw policy).1 = .error p) :
      Retries env inner policy attempt f s (.unwound p, (s₁.draw policy).2)
  | again {s₁ delay} (more : attempt < policy.times)
      (asked : s.perform (policy.accepts f) = (.ok true, s₁))
      (spread : policy.nextDelay (attempt + 1) (s₁.draw policy).1 = .ok delay)
      (at_once : delay.isZero = true) :
      Retries env inner policy attempt f s
        (.frame env (.retry inner policy (attempt + 1)) (.enter inner env),
          (s₁.draw policy).2.record (.retrying (attempt + 1) policy.times delay f.display))
  | pauses {s₁ delay} (more : attempt < policy.times)
      (asked : s.perform (policy.accepts f) = (.ok true, s₁))
      (spread : policy.nextDelay (attempt + 1) (s₁.draw policy).1 = .ok delay)
      (later : delay.isZero = false) :
      Retries env inner policy attempt f s
        (.pause ((s₁.draw policy).2.now + delay.ticks) env inner policy (attempt + 1),
          (s₁.draw policy).2.record (.retrying (attempt + 1) policy.times delay f.display))

omit [Tracing H] in
theorem retries (env : Env) (inner : Node H) (policy : RetryPolicy H) (attempt : Nat)
    (f : Failure H) (s : Store H) :
    Retries env inner policy attempt f s (retryAfter env inner policy attempt f s) := by
  unfold retryAfter
  split
  · rename_i spent
    exact .exhausted spent
  · rename_i more
    have more := Nat.lt_of_not_le more
    split
    · rename_i asked
      exact .asking more asked
    · rename_i asked
      exact .declines more asked
    · rename_i asked
      dsimp only
      split
      · rename_i spread
        exact .drawing more asked spread
      · rename_i spread
        split
        · rename_i at_once
          exact .again more asked spread at_once
        · rename_i later
          exact .pauses more asked spread (Bool.eq_false_iff.2 later)

/-- No handler is asked about a defect. -/
theorem resume_recover_defect {f : Failure H} (hf : f.isDefect = true) (env : Env) (s : Store H)
    (code : Failure H → Code H (Option (Node H))) :
    (Frame.recover code).resume env (.error f) s = (.settled (.error f), s) := if_pos hf

/-- A defect is not tried again, and no predicate is asked about it. -/
theorem resume_retry_defect {f : Failure H} (hf : f.isDefect = true) (env : Env) (s : Store H)
    (u : Node H) (policy : RetryPolicy H) (attempt : Nat) :
    (Frame.retry u policy attempt).resume env (.error f) s = (.settled (.error f), s) := by
  have refused : s.perform (policy.accepts f) = (.ok false, s) := by
    unfold RetryPolicy.accepts
    rw [if_pos hf]
    rfl
  show retryAfter env u policy attempt f s = _
  unfold retryAfter
  rw [refused]
  split <;> rfl

/-- What a crew does by itself. -/
inductive Housekeeping (s : Store H) (env : Env) (c : Crew H) (b : Branches H) :
    Execution H → Store H → Prop
  | panics {i p} (h : b.find? i = some (.unwound p)) : Housekeeping s env c b (ofPanic p) (b.drop s)
  | absorbs {i exit line} (h : b.find? i = some (.settled exit)) :
      Housekeeping s env c b (.crew env (c.absorb i exit s).1 line (b.erase i))
        (c.absorb i exit s).2
  | admits {i n rest line} (h : c.next? env b.length = some (i, n, rest)) :
      Housekeeping s env c b (.crew env rest line (b.push i (.enter n env))) s
  | concludes (h : c.next? env 0 = none) (hb : b.indices = []) :
      Housekeeping s env c b (.settled (c.conclude env s)) s

/-- The crew has nothing to do by itself: branches are under way, and none of them has ended. -/
structure Idle (env : Env) (c : Crew H) (b : Branches H) : Prop where
  calm : b.panic? = none
  unsettled : b.exit? = none
  full : c.next? env b.length = none
  running : b.isEmpty = false

inductive CrewMoves (s : Store H) (env : Env) (c : Crew H) (b : Branches H) :
    Execution H → Store H → Prop
  | keeps {e₁ s₁} (h : Housekeeping s env c b e₁ s₁) : CrewMoves s env c b e₁ s₁
  | moves {i f f' b' line policy depth s₁} (idle : Idle env c b) (same : b'.indices = b.indices)
      (others : ∀ j, j ≠ i → b'.find? j = b.find? j) (found : b.find? i = some f)
      (found' : b'.find? i = some f') (h : f.move policy depth s = some (f', s₁)) :
      CrewMoves s env c b (.crew env c line b') s₁

/-- What a crew does by itself, in the order in which it looks: for panics, for exits, for room. -/
inductive Housekept (s : Store H) (env : Env) (c : Crew H) (round : Round) (b : Branches H) :
    Execution H → Store H → Prop
  | panics {p} (h : b.panic? = some p) : Housekept s env c round b (ofPanic p) (b.drop s)
  | absorbs {i exit} (calm : b.panic? = none) (h : b.exit? = some (i, exit)) :
      Housekept s env c round b (.crew env (c.absorb i exit s).1 round.restart (b.erase i))
        (c.absorb i exit s).2
  | admits {i n rest line} (calm : b.panic? = none) (unsettled : b.exit? = none)
      (h : c.next? env b.length = some (i, n, rest)) :
      Housekept s env c round b (.crew env rest line (b.push i (.enter n env))) s
  | concludes (calm : b.panic? = none) (unsettled : b.exit? = none)
      (full : c.next? env b.length = none) (empty : b.isEmpty = true) :
      Housekept s env c round b (.settled (c.conclude env s)) s

omit [Tracing H] in
theorem moveCrew_housekept (h : moveCrew s env c round b = some (e', s')) :
    Housekept s env c round b e' s' := by
  unfold moveCrew at h
  cases hp : b.panic? with
  | some p =>
    simp only [hp] at h
    cases h
    exact .panics hp
  | none =>
    cases hx : b.exit? with
    | some x =>
      simp only [hp, hx] at h
      cases h
      exact .absorbs hp hx
    | none =>
      cases hn : c.next? env b.length with
      | some n =>
        simp only [hp, hx, hn] at h
        cases h
        exact .admits hp hx hn
      | none =>
        simp only [hp, hx, hn] at h
        split at h
        · rename_i empty
          cases h
          exact .concludes hp hx hn empty
        · cases h

omit [Tracing H] in
theorem moveCrew_some (hb : b.indices.Nodup) (h : moveCrew s env c round b = some (e', s')) :
    Housekeeping s env c b e' s' := by
  cases moveCrew_housekept h with
  | panics hp =>
    obtain ⟨i, found⟩ := Branches.panic?_some hb hp
    exact .panics found
  | absorbs _ hx => exact .absorbs (Branches.exit?_some hb hx)
  | admits _ _ hn => exact .admits hn
  | concludes _ _ full empty =>
    have none_left := Branches.isEmpty_iff.1 empty
    rw [Branches.length_eq, none_left] at full
    exact .concludes full none_left

omit [Tracing H] in
theorem moveCrew_none_iff : moveCrew s env c round b = none ↔ Idle env c b := by
  constructor
  · intro h
    unfold moveCrew at h
    cases hp : b.panic? with
    | some p => simp [hp] at h
    | none =>
      cases hx : b.exit? with
      | some x => simp [hp, hx] at h
      | none =>
        cases hn : c.next? env b.length with
        | some n => simp [hp, hx, hn] at h
        | none => exact ⟨hp, hx, hn, by simpa [hp, hx, hn] using h⟩
  · intro h
    simp [moveCrew, h.calm, h.unsettled, h.full, h.running]

theorem move_crew (hb : b.indices.Nodup)
    (h : (crew env c round b).move policy depth s = some (e', s')) :
    CrewMoves s env c b e' s' := by
  rcases move_crew_cases h with kept | ⟨idle, i, f, f', line, going, found, hf, rfl⟩
  · exact .keeps (moveCrew_some hb kept)
  · exact .moves (moveCrew_none_iff.1 idle) (b.indices_set i f')
      (fun j hj => Branches.find?_set_ne hj b f') found (Branches.find?_set_self found f') hf

theorem exists_move_of_not_idle (h : ¬ Idle env c b) (policy : Policy) (depth : Nat) (s : Store H) :
    ∃ moved, (crew env c round b).move policy depth s = some moved := by
  cases hm : moveCrew s env c round b with
  | some moved => exact ⟨moved, by rw [move, hm]⟩
  | none => exact absurd (moveCrew_none_iff.1 hm) h

end Execution

namespace Crew

variable {H : Host} {env : Env} {c rest : Crew H} {running i : Nat} {n : Node H}

theorem next?_some (h : c.next? env running = some (i, n, rest)) :
    ∃ cap collect pending values, c = .all cap collect ((i, n) :: pending) values none ∧
      rest = .all cap collect pending values none := by
  unfold next? at h
  split at h
  · split at h
    · cases h
      exact ⟨_, _, _, _, rfl, rfl⟩
    · cases h
  · cases h

/-! The failure with the lowest index -/

theorem lowest_le_new (i : Nat) (f : Failure H) (failure : Option (Nat × Failure H)) :
    (lowest i f failure).1 ≤ i := by
  unfold lowest
  split
  · exact le_rfl
  · split
    · exact le_rfl
    · rename_i less
      exact Nat.le_of_not_lt less

theorem lowest_le_old (i j : Nat) (f g : Failure H) : (lowest i f (some (j, g))).1 ≤ j := by
  unfold lowest
  dsimp only
  split
  · rename_i less
    exact less.le
  · exact le_rfl

theorem lowest_cases (i : Nat) (f : Failure H) (failure : Option (Nat × Failure H)) :
    lowest i f failure = (i, f) ∨ failure = some (lowest i f failure) := by
  unfold lowest
  split
  · exact .inl rfl
  · split
    · exact .inl rfl
    · exact .inr rfl

theorem hasRoom_zero (env : Env) (cap : Option Nat) : hasRoom env cap 0 = true := by
  unfold hasRoom limit
  cases cap.or env.concurrency with
  | none => rfl
  | some n => simp

/-- Where no branch is under way there is room for one, so that none is left to be admitted. -/
theorem pending_of_next? {cap : Option Nat} {collect : List (Value H) → Exit H}
    {pending : List (Nat × Node H)} {values : List (Option (Value H))}
    (h : (all cap collect pending values none).next? env 0 = none) : pending = [] := by
  cases pending with
  | nil => rfl
  | cons p rest =>
    rw [next?, if_pos (hasRoom_zero env cap)] at h
    cases h

end Crew

end ScopedEffects
