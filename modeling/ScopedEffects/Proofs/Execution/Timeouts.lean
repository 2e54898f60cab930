import ScopedEffects.Proofs.Execution.Limits

/-! The law of timeouts. What has settled in time settles the step, and what has not is cancelled at the
deadline and awaited. At the deadline the upstream is left the one poll that reaches the step. -/

namespace ScopedEffects

variable {H : Host}

/-- From `t` to `u` the course moves as a schedule says, and does so because the poll lets it go on. -/
def Course.GoesOnIn [Tracing H] (r : Course H) (schedule : Schedule) (depth t u : Nat) : Prop :=
  ∀ v, t ≤ v → v < u → (r.state v).going (schedule v) depth (r.store v) = true ∧
    (r.state v).move (schedule v) depth (r.store v) = some (r.state (v + 1), r.store (v + 1))

/-- From `t` on the course makes the moves of one poll, which is over at `u`. -/
structure Course.Polls [Tracing H] (r : Course H) (schedule : Schedule) (depth t u : Nat) : Prop where
  before : t < u
  single : ∀ v, t < v → v ≤ u → (schedule v).anew = false
  moves : ∀ v, t ≤ v → v < u → (r.state v).move (schedule v) depth (r.store v) =
    some (r.state (v + 1), r.store (v + 1))
  ends : (r.state u).going (schedule u) depth (r.store u) = false

namespace Limit.Upstream

variable [Tracing H] {l : Limit H} {q c : Course H} {t u m : Nat} {exit : Exit H}

/-! A poll at the deadline -/

/-- As long as the step waits, its upstream goes on in the poll. -/
theorem goesOnIn (h : l.Upstream q c) {schedule : Schedule} {depth : Nat}
    (polls : q.Polls schedule depth t u) (due : l.deadline ≤ (q.store t).now) (hmu : m < u)
    (waits : ∀ v, v ≤ m → q.state v = l.waits (c.state v)) :
    c.GoesOnIn schedule (depth + 1) t m := by
  intro v htv hvm
  have moved := polls.moves v htv (hvm.trans hmu)
  have running := running_of_moved (waits v hvm.le) (waits (v + 1) hvm) moved
  rw [waits v hvm.le, waits (v + 1) hvm] at moved
  rcases waits_due running (due.trans (h.timely.now_mono htv)) moved with
    ⟨goes, y, same, step⟩ | ⟨-, drains, -⟩
  · cases same
    rw [h.shared]
    exact ⟨goes, step⟩
  · exact absurd drains waits_ne_drains

/-- A poll that reaches the step at the deadline lets its upstream go on, first of all if it is ready
when the poll begins, and is not over before the upstream has settled or the time is over. -/
theorem polled (h : l.Upstream q c) (calm : ∀ t p, c.state t ≠ .unwound p) {schedule : Schedule}
    {depth : Nat} (waits : ∀ v, v ≤ t → q.state v = l.waits (c.state v))
    (due : (q.store t).now = l.deadline) (polls : q.Polls schedule depth t u) :
    ∃ m, t ≤ m ∧ m < u ∧ c.GoesOnIn schedule (depth + 1) t m ∧
      ((schedule t).anew = true → (c.state t).ready (q.store t) = true → t < m) ∧
      ((∃ exit, l.InTime q c m exit) ∨
        l.Expires q c m ∧
          (c.state m).going (schedule m) (depth + 1) (q.store m) = false) := by
  have due_at : ∀ {v}, t ≤ v → l.deadline ≤ (q.store v).now := fun htv =>
    due.symm.le.trans (h.timely.now_mono htv)
  have expires : ∀ {m}, m < u → l.Expires q c m → ∃ m, t ≤ m ∧ m < u ∧
      c.GoesOnIn schedule (depth + 1) t m ∧
      ((schedule t).anew = true → (c.state t).ready (q.store t) = true → t < m) ∧
      ((∃ exit, l.InTime q c m exit) ∨ l.Expires q c m ∧
        (c.state m).going (schedule m) (depth + 1) (q.store m) = false) := by
    intro m hmu expired
    have htm : t ≤ m := by
      by_contra before
      exact waits_ne_drains ((waits (m + 1) (Nat.lt_of_not_le before)).symm.trans expired.drains)
    have moved := polls.moves m htm hmu
    rw [expired.waits m le_rfl, expired.drains] at moved
    have rests : (c.state m).going (schedule m) (depth + 1) (q.store m) = false := by
      rcases waits_due expired.running (due_at htm) moved with ⟨-, y, same, -⟩ | ⟨rests, -⟩
      · exact absurd same.symm waits_ne_drains
      · exact rests
    refine ⟨m, htm, hmu, h.goesOnIn polls due.symm.le hmu expired.waits, fun begins ready => ?_,
      .inr ⟨expired, rests⟩⟩
    refine Nat.lt_of_le_of_ne htm ?_
    rintro rfl
    rw [Execution.going_anew begins, ready] at rests
    cases rests
  cases h.stage calm u with
  | waits waits' =>
    have goes := waits_going (x := c.state u) (due_at polls.before.le) (schedule u) depth
    rw [← waits' u le_rfl, polls.ends] at goes
    cases goes
  | @in_time m exit hmu inTime =>
    have htm : t ≤ m := by
      by_contra before
      cases (inTime.settles t (Nat.lt_of_not_le before)).symm.trans (waits t le_rfl)
    refine ⟨m, htm, hmu, h.goesOnIn polls due.symm.le hmu inTime.waits, fun _ ready => ?_,
      .inl ⟨exit, inTime⟩⟩
    refine Nat.lt_of_le_of_ne htm ?_
    rintro rfl
    rw [inTime.upstream] at ready
    cases ready
  | drains hmu expired => exact expires hmu expired
  | drained expired hku drained => exact expires (drained.after.trans hku) expired

/-! What comes about when moves are not put off -/

/-- An upstream that has settled before the deadline, or while the step still waits for it, has
settled in time. -/
theorem exists_inTime (h : l.Upstream q c) (calm : ∀ t p, c.state t ≠ .unwound p)
    (goes_on : q.GoesOn) (settled : c.state t = .settled exit)
    (soon : (q.store t).now < l.deadline ∨ ∀ v, v ≤ t → q.state v = l.waits (c.state v)) :
    ∃ m, l.InTime q c m exit := by
  have not_expired : ∀ {m}, m < t → ¬ l.Expires q c m := by
    intro m before expired
    rcases soon with ahead | waits
    · have past := h.timely.now_mono before.le
      rw [expired.moment.1] at past
      exact absurd ahead (Nat.not_lt_of_le past)
    · exact waits_ne_drains ((waits (m + 1) before).symm.trans expired.drains)
  cases h.stage calm t with
  | waits waits =>
    have here := waits t (Nat.le_refl t)
    rw [settled] at here
    have able : ∃ moved, (q.state t).move .standard 0 (q.store t) = some moved := by
      rw [here]
      exact ⟨_, rfl⟩
    obtain ⟨moved, hm⟩ := able
    obtain ⟨u, htu, moves, stays⟩ := goes_on.exists_next hm
    obtain ⟨settles, unchanged⟩ := (waits_settled ((stays u htu le_rfl).trans here)).1 moves
    refine ⟨u, h.inTime calm (fun v hv => ?_) (Course.settled_stays settled htu) settles unchanged⟩
    rcases Nat.le_total v t with hvt | htv
    · exact waits v hvt
    · rw [stays v htv hv, here, Course.settled_stays settled htv]
  | @in_time m exit' before inTime =>
    have same := Course.settled_stays inTime.upstream before.le
    rw [settled] at same
    cases same
    exact ⟨m, inTime⟩
  | drains before expired => exact absurd expired (not_expired before)
  | drained expired before drained =>
    exact absurd expired (not_expired (drained.after.trans before))

/-- When the deadline has come and the upstream has come to rest, the time is over. -/
theorem exists_expires (h : l.Upstream q c) (calm : ∀ t p, c.state t ≠ .unwound p)
    (goes_on : q.GoesOn) (waits : ∀ v, v ≤ t → q.state v = l.waits (c.state v))
    (due : (q.store t).now = l.deadline) (running : (c.state t).ended = false)
    (blocked : (c.state t).ready (q.store t) = false) (rests : ∀ v, t ≤ v → ¬ c.Moves v) :
    ∃ m, t ≤ m ∧ l.Expires q c m := by
  have here := waits t (Nat.le_refl t)
  have able : ∃ moved, (q.state t).move .standard 0 (q.store t) = some moved := by
    have rests : (c.state t).going .standard 1 (q.store t) = false :=
      Bool.eq_false_iff.2 fun goes =>
        Bool.eq_false_iff.1 blocked (Execution.ready_of_going goes)
    rw [here, Limit.waits, Execution.move_frame_running running, rests]
    simp [Frame.expired, Frame.expire, due]
  obtain ⟨moved, hm⟩ := able
  obtain ⟨u, htu, moves, stays⟩ := goes_on.exists_next hm
  have unsettled : ∀ m exit, c.state m ≠ .settled exit := by
    intro m exit settled
    rcases Nat.le_total m t with hmt | htm
    · rw [Course.settled_stays settled hmt] at running
      cases running
    · rw [Course.stays_until_move (fun v hv _ => rests v hv) htm] at settled
      rw [settled] at running
      cases running
  have not_before : ∀ {m}, l.Expires q c m → t ≤ m := by
    intro m expired
    by_contra before
    exact waits_ne_drains
      ((waits (m + 1) (Nat.lt_of_not_le before)).symm.trans expired.drains)
  cases h.stage calm (u + 1) with
  | waits waits' =>
    exact absurd (h.quiet (waits' u (Nat.le_succ u)) (waits' (u + 1) le_rfl) moves) (rests u htu)
  | in_time _ inTime => exact absurd inTime.upstream (unsettled _ _)
  | drains _ expired => exact ⟨_, not_before expired, expired⟩
  | drained expired => exact ⟨_, not_before expired, expired⟩

theorem expires_unique {m' : Nat} (h : l.Expires q c m) (h' : l.Expires q c m') : m = m' := by
  rcases Nat.lt_trichotomy m m' with less | same | more
  · exact absurd ((h'.waits (m + 1) less).symm.trans h.drains) waits_ne_drains
  · exact same
  · exact absurd ((h.waits (m' + 1) more).symm.trans h'.drains) waits_ne_drains

/-- When the time is over and the upstream settles, the step goes on. -/
theorem exists_drained (h : l.Upstream q c) (calm : ∀ t p, c.state t ≠ .unwound p)
    (goes_on : q.GoesOn) (expired : l.Expires q c m) (hmt : m < t)
    (settled : c.state t = .settled exit) : ∃ k, l.Drained q c m k exit := by
  cases h.stage calm t with
  | waits waits => exact absurd ((waits (m + 1) hmt).symm.trans expired.drains) waits_ne_drains
  | @in_time m' exit' before inTime =>
    rcases Nat.lt_or_ge m m' with less | more
    · exact absurd ((inTime.waits (m + 1) less).symm.trans expired.drains) waits_ne_drains
    · cases (inTime.settles (m + 1) (Nat.lt_succ_of_le more)).symm.trans expired.drains
  | @drains m' before expired' drains =>
    obtain rfl := expires_unique expired expired'
    have here := drains t hmt (Nat.le_refl t)
    rw [settled] at here
    have able : ∃ moved, (q.state t).move .standard 0 (q.store t) = some moved := by
      rw [here]
      exact ⟨_, rfl⟩
    obtain ⟨moved, hm⟩ := able
    obtain ⟨u, htu, moves, stays⟩ := goes_on.exists_next hm
    obtain ⟨next, unchanged⟩ := (drains_settled ((stays u htu le_rfl).trans here)).1 moves
    have drains_on : ∀ v, m < v → v ≤ u → q.state v = l.drains (c.state v) := by
      intro v hmv hvu
      rcases Nat.le_total v t with hvt | htv
      · exact drains v hmv hvt
      · rw [stays v htv hvu, here, Course.settled_stays settled htv]
    exact ⟨u, h.drained calm (hmt.trans_le htu) drains_on (Course.settled_stays settled htu) next
      unchanged⟩
  | @drained m' k exit' expired' before drained =>
    obtain rfl := expires_unique expired expired'
    have same := Course.settled_stays drained.upstream before.le
    rw [settled] at same
    cases same
    exact ⟨k, drained⟩

end Limit.Upstream

/-- Outside combinators a timeout step keeps up the poll when its time is over. -/
theorem Execution.going_of_due {e x : Execution H} {l : Limit H} {s : Store H} {k : Nat}
    (hx : e.at? (List.replicate k .above) = some (l.waits x)) (due : l.deadline ≤ s.now)
    (policy : Policy) (depth : Nat) : e.going policy depth s = true := by
  induction k generalizing e depth with
  | zero =>
    cases hx
    exact Limit.waits_going due policy depth
  | succ k ih =>
    obtain ⟨y, hy, hx⟩ := Option.bind_eq_some_iff.1 hx
    cases e with
    | frame env f above =>
      cases hy
      simp [going, ih hx]
    | _ => cases hy

theorem Machine.polling_of_due {m : Machine H} {l : Limit H} {x : Execution H} {k : Nat}
    (policy : Policy) (hx : m.execution.at? (List.replicate k .above) = some (l.waits x))
    (due : l.deadline ≤ m.store.now) : (m.polling policy).anew = false := by
  simp [Machine.polling, Execution.going_of_due hx due]

namespace Course

variable [Tracing H]

/-- What a timeout step does with its upstream. The upstream runs on its own, under the signal that the
step has armed. If it has settled before the deadline, or while the step still waits for it, the step
settles at that moment and with that exit, and no move of the step has fired the signal. Otherwise the
signal fires at the deadline, as soon as the poll lets the upstream go on no more; then the step waits
until the upstream has settled, and drops its exit. At that moment it settles with the timeout, or
goes on as its fallback does, under its own signal, which none of its moves has fired. The clock does
not run past the deadline before. The deadline comes as many ticks after the beginning as cover the
duration.

A poll that reaches the step at the deadline is the last one of the upstream before its signal fires:
it goes first to an upstream that is ready, and when it is over that has settled or the signal has
fired. No poll of a machine begins as long as a timeout step outside combinators is due.

All parts of runs, at whatever depth, are courses in virtual time; and a run goes on past any instant,
as long as a timeout step waits in it. -/
theorem timeout_law (r : Course H) (timely : r.Timely) (n : Node H) (d : Duration)
    (fallback : Option (Node H)) (env : Env) (a : Nat)
    (entering : r.state a = .enter (.timeout n d fallback) env) (starts : r.Moves a) :
    (∃ (l : Limit H) (q c : Course H), l = .start env (r.store a) d fallback ∧
      q = r.later (a + 1) ∧ (q.store 0).now = (r.store a).now ∧
      (q.store 0).fired = (r.store a).fired ∧
      c.Timely ∧ c.store = q.store ∧ c.state 0 = .enter n l.inner ∧
      ((∀ t p, c.state t ≠ .unwound p) →
        (∀ t, l.Stage q c t) ∧
        (∀ m k exit other, l.Drained q c m k exit → fallback = some other →
          (q.later (k + 1)).state 0 = .enter other env ∧
            ((q.store k).isFired env.signal = false →
              ((q.later (k + 1)).store 0).isFired env.signal = false)) ∧
        (∀ (schedule : Schedule) depth t u, (∀ v, v ≤ t → q.state v = l.waits (c.state v)) →
          (q.store t).now = l.deadline → q.Polls schedule depth t u →
          ∃ m, t ≤ m ∧ m < u ∧ c.GoesOnIn schedule (depth + 1) t m ∧
            ((schedule t).anew = true → (c.state t).ready (q.store t) = true → t < m) ∧
            ((∃ exit, l.InTime q c m exit) ∨
              l.Expires q c m ∧ (c.state m).going (schedule m) (depth + 1) (q.store m) = false)) ∧
        (r.GoesOn →
          (∀ t exit, c.state t = .settled exit →
            ((q.store t).now < l.deadline ∨ ∀ v, v ≤ t → q.state v = l.waits (c.state v)) →
            ∃ m, l.InTime q c m exit) ∧
          (∀ t, (∀ v, v ≤ t → q.state v = l.waits (c.state v)) → (q.store t).now = l.deadline →
            (c.state t).ended = false → (c.state t).ready (q.store t) = false →
            (∀ v, t ≤ v → ¬ c.Moves v) → ∃ m, t ≤ m ∧ l.Expires q c m) ∧
          ∀ m t exit, l.Expires q c m → m < t → c.state t = .settled exit →
            ∃ k, l.Drained q c m k exit))) ∧
    (∀ (m : Machine H) (policy : Policy) k (l : Limit H) x,
      m.execution.at? (List.replicate k .above) = some (l.waits x) →
        l.deadline ≤ m.store.now → (m.polling policy).anew = false) ∧
    (∀ (w : Story H) (node : Node H) (at_start : Env) (schedule : Schedule),
      w.Launched node at_start → w.Steady → schedule.Diligent → w.Driven schedule →
      ∀ i α x, i ≤ w.last → w.part? α i = some x →
        ∃ c : Course H, c.Timely ∧ c.state 0 = x ∧ ∀ v, i + v ≤ w.last →
          c.store v = (w.state (i + v)).store ∧
            (w.part? α (i + v) = some (c.state v) ∨ (c.state v).ended = true)) ∧
    ∀ (m : Machine H) (schedule : Schedule) (bound : Clock), schedule.Diligent →
      ∃ w : Story H, w.state 0 = m ∧ w.Driven schedule ∧
        ((w.state w.last).execution.Sound → ∀ α (l : Limit H) x,
          w.part? α w.last = some (l.waits x) → bound < (w.state w.last).store.now) := by
  refine ⟨?_, ?_, ?_, ?_⟩
  · obtain ⟨policy, depth, moved⟩ := starts
    rw [entering, Execution.move] at moved
    have started := Option.some.inj moved
    have begun : (r.later (a + 1)).state 0 = (Limit.start env (r.store a) d fallback).waits
        (.enter n (Limit.start env (r.store a) d fallback).inner) :=
      (congrArg Prod.fst started).symm
    have stored : (r.later (a + 1)).store 0 = ((r.store a).childSignal env.signal).2 :=
      (congrArg Prod.snd started).symm
    have early : ((r.later (a + 1)).store 0).now ≤
        (Limit.start env (r.store a) d fallback).deadline := by
      rw [stored]
      exact Nat.le_add_right ..
    obtain ⟨c, first, upstream⟩ :=
      Limit.exists_upstream (timely.later (a + 1)) ⟨_, rfl⟩ begun early
    refine ⟨_, _, c, rfl, rfl, ?_, ?_, upstream.timely_above, upstream.shared, first,
      fun calm => ⟨upstream.stage calm, ?_, ?_, fun goes_on => ⟨?_, ?_, ?_⟩⟩⟩
    · rw [stored]
      rfl
    · rw [stored]
      rfl
    · rintro m k exit other drained rfl
      refine ⟨drained.goes_on, fun live => ?_⟩
      show ((r.later (a + 1)).store (k + 1)).isFired env.signal = false
      rw [drained.unchanged]
      exact live
    · exact fun schedule depth t u => upstream.polled calm
    · exact fun t exit => upstream.exists_inTime calm (goes_on.later (a + 1))
    · exact fun t => upstream.exists_expires calm (goes_on.later (a + 1))
    · exact fun m t exit => upstream.exists_drained calm (goes_on.later (a + 1))
  · exact fun m policy k l x => Machine.polling_of_due policy
  · intro w node at_start schedule launched steady diligent driven i α x hi hx
    exact launched.exists_timely steady diligent driven hi hx
  · intro m schedule bound diligent
    obtain ⟨w, first, driven, past | stuck⟩ := Machine.exists_past schedule bound m
    · exact ⟨w, first, driven, fun _ _ _ _ _ => past⟩
    · refine ⟨w, first, driven, fun sound α l x hx => ?_⟩
      obtain ⟨m', next⟩ := Machine.exists_move? (diligent w.last) sound hx
      rw [stuck] at next
      cases next

/-! A nap that is cut off -/

def nap : Node Host.counting :=
  .program (Code.pure (.sleep (.ofMillis 5) (.done (.ok ⟨.unit, ()⟩))))

def napStore : Store Host.counting := { user := (0 : Nat), signals := ⟨1⟩ }

def napEnv : Env := ⟨⟨0, []⟩, .root 0, none⟩

def napLimit : Limit Host.counting := .start napEnv napStore (.ofMillis 2) none

def asleep : Execution Host.counting :=
  .task (.signal napLimit.child) (.sleeping 5 (.done (.ok ⟨.unit, ()⟩)))

/-- Two of the five ticks pass, and the sleeper is cancelled. -/
def napCourse : Course Host.counting where
  state
    | 0 => .enter (.timeout nap (.ofMillis 2) none) napEnv
    | 1 => napLimit.waits (.enter nap napLimit.inner)
    | 2 => napLimit.waits (.task (.signal napLimit.child)
        (.run (.sleep (.ofMillis 5) (.done (.ok ⟨.unit, ()⟩)))))
    | 3 | 4 => napLimit.waits asleep
    | 5 => napLimit.drains asleep
    | 6 => napLimit.drains (.settled (.error .aborted))
    | _ => .settled (.error (.timeout (.ofMillis 2)))
  store
    | 0 => napStore
    | 1 | 2 | 3 => { napStore with signals := ⟨2⟩ }
    | 4 => { napStore with signals := ⟨2⟩, now := 2 }
    | _ => (({ napStore with signals := ⟨2⟩, now := 2 } : Store Host.counting).record
        (.timeoutExpired (.ofMillis 2))).fire napLimit.child
  step
    | 0 | 1 | 2 | 4 | 5 | 6 => .inl ⟨.standard, 0, rfl⟩
    | 3 => .inr rfl
    | _ + 7 => .inr rfl

theorem timely_nap : napCourse.Timely where
  fired t := by
    rcases t with _ | _ | _ | _ | _ | t
    iterate 5 exact List.nil_subset _
    exact List.Subset.refl _
  forward t := by
    rcases t with _ | _ | _ | _ | _ | t
    · exact Nat.le_refl 0
    · exact Nat.le_refl 0
    · exact Nat.le_refl 0
    · exact Nat.zero_le 2
    · exact Nat.le_refl 2
    · exact Nat.le_refl _
  held t passes := by
    rcases t with _ | _ | _ | _ | _ | t
    · exact absurd passes (Nat.lt_irrefl 0)
    · exact absurd passes (Nat.lt_irrefl 0)
    · exact absurd passes (Nat.lt_irrefl 0)
    · refine ⟨rfl, fun d hd _ => ?_⟩
      have instants : d = 2 ∨ d = 5 := by simpa using (show d ∈ [2, 5] from hd)
      rcases instants with rfl | rfl
      · decide
      · decide
    · exact absurd passes (Nat.lt_irrefl 2)
    · exact absurd passes (Nat.lt_irrefl _)

/-- No panic gets out of a program that is abandoned when its signal fires. -/
theorem calm_of_program {c : Course H} {code : Code H (Program H)} {env : Env}
    (begins : c.state 0 = .enter (.program code) env) (t : Nat) (p : Panic) :
    c.state t ≠ .unwound p := by
  have stays : c.state t = .enter (.program code) env ∨
      (∃ k, c.state t = .task (.signal env.signal) k) ∨ ∃ exit, c.state t = .settled exit := by
    induction t with
    | zero => exact .inl begins
    | succ t ih =>
      rcases c.step t with ⟨policy, depth, moved⟩ | same
      · rcases ih with entering | ⟨k, task⟩ | ⟨exit, settled⟩
        · rw [entering, Execution.move] at moved
          have started := congrArg Prod.fst (Option.some.inj moved)
          rw [← show _ = c.state (t + 1) from started]
          unfold Execution.start
          rcases Execution.source_cases env (c.store t)
            (Execution.build (c.store t) code (Execution.ofProgram env)) with aborts | starts
          · exact .inr (.inr ⟨_, aborts⟩)
          · rw [starts]
            rcases Execution.build_cases (c.store t) code (Execution.ofProgram env) with
              ⟨_, built⟩ | ⟨_, built⟩
            · exact .inr (.inr ⟨_, built⟩)
            · exact .inr (.inl ⟨_, built⟩)
        · rw [task, Execution.move] at moved
          generalize c.state (t + 1) = e, c.store (t + 1) = s at moved ⊢
          cases Execution.moveTask_moves moved with
          | settles | aborts | catches => exact .inr (.inr ⟨_, rfl⟩)
          | unwinds _ bare => cases bare
          | steps => exact .inr (.inl ⟨_, rfl⟩)
        · rw [settled, Execution.move] at moved
          cases moved
      · rw [same]
        exact ih
  rintro unwound
  rw [unwound] at stays
  rcases stays with entering | ⟨_, task⟩ | ⟨_, settled⟩
  · cases entering
  · cases task
  · cases settled

/-- Waits for a signal, and fires it after a while. -/
def relay (d : Duration) : Node Host.counting :=
  .program (Code.pure (.both (.awaitSignal (.root 1) (.done (.ok ⟨.unit, ()⟩)))
    (.sleep d (.fire (.root 1) (.done (.ok ⟨.unit, ()⟩)))) fun exit _ => .done exit))

/-- The poll at the deadline has passed the side that waits when the other one fires. -/
example : (Machine.run .standard 10 30 ⟨napStore,
    .enter (.timeout (relay (.ofMillis 10)) (.ofMillis 10) none) napEnv, []⟩).2.execution =
      .settled (.error (.timeout (.ofMillis 10))) := rfl

example : (Machine.run .standard 10 30 ⟨napStore,
    .enter (.timeout (relay (.ofMillis 9)) (.ofMillis 10) none) napEnv, []⟩).2.execution =
      .settled (.ok ⟨.unit, ()⟩) := rfl

/-- The time of the nap is over at the deadline, and the step settles when the nap has been given
up. -/
theorem nap_is_cut_off : ∃ (c : Course Host.counting) (m k : Nat) (exit : Exit Host.counting),
    napLimit.deadline = 2 ∧ napLimit.Expires (napCourse.later 1) c m ∧
      napLimit.Drained (napCourse.later 1) c m k exit := by
  obtain ⟨⟨l, q, c, rfl, rfl, -, -, -, -, begins, law⟩, -⟩ :=
    timeout_law napCourse timely_nap nap (.ofMillis 2) none napEnv 0 rfl ⟨.standard, 0, rfl⟩
  obtain ⟨stages, -⟩ := law (calm_of_program begins)
  -- at its sixth instant the step has settled with the timeout
  cases stages 6 with
  | waits waits => cases waits 6 le_rfl
  | @in_time m exit before inTime =>
    have waits := inTime.waits m le_rfl
    rw [inTime.upstream] at waits
    rcases m with _ | _ | _ | _ | _ | _ | m
    · cases waits
    · cases waits
    · cases waits
    · cases waits
    · cases waits
    · cases waits
    · omega
  | drains before _ drains => cases drains 6 before le_rfl
  | drained expired _ drained => exact ⟨c, _, _, _, rfl, expired, drained⟩

end Course

end ScopedEffects
