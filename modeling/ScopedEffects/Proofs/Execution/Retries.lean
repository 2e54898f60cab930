import ScopedEffects.Proofs.Effect.Backoff
import ScopedEffects.Proofs.Execution.Repeats

/-! The law of retries. -/

namespace ScopedEffects

variable {H : Host}

namespace Repeat

variable [Tracing H] {l : Repeat H} {q c : Course H} {k u v t m : Nat} {exit : Exit H}

/-! What comes about when moves are not put off -/

/-- The exit of an execution that settles is taken in. -/
theorem exists_takes (timely : q.Timely) (calm : ∀ t k p, q.state t ≠ l.attempt k (.unwound p))
    (goes_on : q.GoesOn) (waits : l.Waits q c k u 0) (settled : c.state v = .settled exit) :
    ∃ v, l.Takes q c k u v exit := by
  by_contra none
  have still : ∀ w, v ≤ w → l.Waits q c k u w → ¬ q.Moves (u + w) := fun w hw waits moves =>
    none ⟨w, waits.takes timely calm (Course.settled_stays settled hw) moves⟩
  have forever : ∀ w, l.Waits q c k u w := by
    intro w
    induction w with
    | zero => exact waits
    | succ w ih =>
      cases running : (c.state w).ended with
      | false => exact ih.step_running running
      | true =>
        obtain ⟨exit', settled'⟩ := ih.exists_exit calm le_rfl running
        by_cases moves : q.Moves (u + w)
        · have takes := ih.takes timely calm settled' moves
          have same : exit' = exit := by
            rcases Nat.le_total w v with hwv | hvw
            · have later := Course.settled_stays settled' hwv
              rw [settled] at later
              injection later with later
              exact later.symm
            · have later := Course.settled_stays settled hvw
              rw [settled'] at later
              injection later
          exact absurd ⟨w, same ▸ takes⟩ none
        · exact ih.step_settled settled' moves
  have here := (forever v).stands v le_rfl
  have able : ∃ moved, (q.state (u + v)).move .standard 0 (q.store (u + v)) = some moved := by
    rw [here, settled]
    exact ⟨_, rfl⟩
  obtain ⟨moved, hm⟩ := able
  obtain ⟨i, hi, moves, -⟩ := goes_on.exists_next hm
  obtain ⟨w, rfl⟩ := Nat.exists_eq_add_of_le ((Nat.le_add_right u v).trans hi)
  exact still w (Nat.le_of_add_le_add_left hi) (forever w) moves

/-- A delay ends when its time comes. -/
theorem exists_end {till : Clock} (goes_on : q.GoesOn)
    (passes : ∀ t, q.state t = l.rests till k →
      ∃ w, t ≤ w ∧ (q.state w ≠ l.rests till k ∨ till ≤ (q.store w).now))
    (pauses : l.Pauses q till k m m) :
    ∃ t, l.Pauses q till k m t ∧ ¬ l.Pauses q till k m (t + 1) := by
  by_contra none
  have forever : ∀ t, l.Pauses q till k m (m + t) := by
    intro t
    induction t with
    | zero => exact pauses
    | succ t ih => exact not_not.1 fun ended => none ⟨m + t, ih, ended⟩
  have stands : ∀ w, m ≤ w → q.state w = l.rests till k := by
    intro w hw
    obtain ⟨t, rfl⟩ := Nat.exists_eq_add_of_le hw
    exact (forever t).stands _ hw le_rfl
  obtain ⟨w, hw, leaves | due⟩ := passes m (stands m le_rfl)
  · exact leaves (stands w hw)
  · have able : ∃ moved, (q.state w).move .standard 0 (q.store w) = some moved := by
      rw [stands w hw, rests, Execution.move, if_pos due]
      split
      · exact ⟨_, rfl⟩
      · exact ⟨_, rfl⟩
    obtain ⟨moved, hm⟩ := able
    obtain ⟨i, hi, moves, -⟩ := goes_on.exists_next hm
    obtain ⟨t, rfl⟩ := Nat.exists_eq_add_of_le (hw.trans hi)
    exact (forever (t + 1)).quiet _ (Nat.le_add_right m t) (Nat.lt_succ_self _) moves

/-- What is needed for the step to end: moves are not put off, its executions settle, and the time
of its delays comes. -/
structure Lives (l : Repeat H) (q : Course H) : Prop where
  goes_on : q.GoesOn
  settles : ∀ c k u, l.Runs q c k u → ∃ v exit, c.state v = .settled exit
  passes : ∀ till k t, q.state t = l.rests till k →
    ∃ w, t ≤ w ∧ (q.state w ≠ l.rests till k ∨ till ≤ (q.store w).now)

theorem exists_next (timely : q.Timely)
    (asked : ∀ f (s : Store H) p, (s.perform (l.policy.accepts f)).1 ≠ .error p)
    (calm : ∀ t k p, q.state t ≠ l.attempt k (.unwound p)) (lives : l.Lives q)
    (begun : l.Begins q k u) :
    (∃ c v exit e n, l.Takes q c k u v exit ∧ l.Ends q k (u + v) exit e n ∧ q.state n = e) ∨
      ∃ u', l.Begins q (k + 1) u' := by
  obtain ⟨c, waits⟩ := exists_waits timely begun.next
  obtain ⟨v, exit, settled⟩ := lives.settles c k u waits.runs
  obtain ⟨v, takes⟩ := exists_takes timely calm lives.goes_on waits settled
  rcases takes.next asked begun.bound with
    ⟨e, ends, next⟩ | ⟨f, delay, rfl, again, stored, ⟨none_left, next⟩ | ⟨some_left, next⟩⟩
  · exact .inl ⟨c, v, exit, e, _, takes, ends, next⟩
  · exact .inr ⟨_, .at_once begun takes again none_left stored next⟩
  · obtain ⟨t, pauses, ended⟩ :=
      exists_end lives.goes_on (lives.passes _ _) (pauses_first stored next)
    rcases (pauses.step timely).resolve_left ended with
      ⟨unchanged, ⟨fired, next⟩ | ⟨live, due, next⟩⟩
    · exact .inl ⟨c, v, _, _, _, takes,
        .aborted f again some_left stored rfl pauses fired unchanged next, next⟩
    · exact .inr ⟨_, .later begun takes again some_left stored rfl pauses due live unchanged next⟩

/-- Then the step ends. -/
theorem exists_ends (timely : q.Timely)
    (asked : ∀ f (s : Store H) p, (s.perform (l.policy.accepts f)).1 ≠ .error p)
    (calm : ∀ t k p, q.state t ≠ l.attempt k (.unwound p)) (lives : l.Lives q)
    (begun : l.Begins q k u) :
    ∃ c k u v exit e n, l.Begins q k u ∧ l.Takes q c k u v exit ∧
      l.Ends q k (u + v) exit e n ∧ q.state n = e := by
  -- every further execution leaves fewer of those that the policy allows
  induction left : l.policy.times - k generalizing k u with
  | zero =>
    rcases exists_next timely asked calm lives begun with
      ⟨c, v, exit, e, n, takes, ends, here⟩ | ⟨u', next⟩
    · exact ⟨c, k, u, v, exit, e, n, begun, takes, ends, here⟩
    · have bound := next.bound
      omega
  | succ left ih =>
    rcases exists_next timely asked calm lives begun with
      ⟨c, v, exit, e, n, takes, ends, here⟩ | ⟨u', next⟩
    · exact ⟨c, k, u, v, exit, e, n, begun, takes, ends, here⟩
    · exact ih next (by omega)

end Repeat

namespace Course

variable [Tracing H]

/-- What a retry step does with its upstream. Its executions are numbered from zero, without a gap
and up to the number that the policy allows; each begins once, runs on its own, and is taken in at
the moment at which it settles. An execution whose failure is no defect, is not that of the last
one allowed, and is accepted by the policy, is followed by another one after exactly the delay of
the policy, unless the signal has fired by the end of a delay that is not zero. With any other
execution the step ends, as that has settled, or with an abort where it is the signal; and no
execution begins after that. The policy is asked once about each failure that is no defect and not
that of the last execution, and about no other. Only where the policy cannot draw a delay at
random the step unwinds, and that never happens without jitter.  The step ends, provided that its
executions do. All parts of runs, at whatever depth, are courses in virtual time; and a run goes
on past any instant, as long as a retry step waits in it. -/
theorem retry_law (r : Course H) (timely : r.Timely) (n : Node H) (policy : RetryPolicy H)
    (env : Env) (a : Nat) (entering : r.state a = .enter (.retry n policy) env) (starts : r.Moves a)
    (asked : ∀ f (s : Store H) p, (s.perform (policy.accepts f)).1 ≠ .error p) :
    (∃ (l : Repeat H) (q : Course H), l = ⟨env, n, policy⟩ ∧ q = r.later (a + 1) ∧
      q.store 0 = r.store a ∧
      ((∀ t k p, q.state t ≠ l.attempt k (.unwound p)) →
        (∀ t, l.Stage q t) ∧
        (∀ k u, l.Begins q k u → k ≤ policy.times ∧ ∀ u', l.Begins q k u' → u = u') ∧
        (∀ k u', l.Begins q (k + 1) u' → ∃ c u v f delay, l.Begins q k u ∧
          l.Takes q c k u v (.error f) ∧ l.Again k f (q.store (u + v)) delay ∧ u + v < u' ∧
          (q.store u').now = (q.store (u + v)).now + delay.ticks ∧
          (delay.isZero = false → (q.store u').isFired env.signal = false)) ∧
        (∀ c k u v exit e m, l.Begins q k u → l.Takes q c k u v exit →
          l.Ends q k (u + v) exit e m → ∀ k' u', l.Begins q k' u' → k' ≤ k) ∧
        (policy.jitter.isPositive = false → ∀ t p, q.state t ≠ .unwound p) ∧
        (l.Lives q → ∃ c k u v exit e m, l.Begins q k u ∧ l.Takes q c k u v exit ∧
          l.Ends q k (u + v) exit e m ∧ ∀ t, m ≤ t → q.state t = e))) ∧
    (∀ (w : Story H) (node : Node H) (at_start : Env) (schedule : Schedule),
      w.Launched node at_start → w.Steady → schedule.Diligent → w.Driven schedule →
      ∀ i α x, i ≤ w.last → w.part? α i = some x →
        ∃ c : Course H, c.Timely ∧ c.state 0 = x ∧ ∀ v, i + v ≤ w.last →
          c.store v = (w.state (i + v)).store ∧
            (w.part? α (i + v) = some (c.state v) ∨ (c.state v).ended = true)) ∧
    ∀ (m : Machine H) (schedule : Schedule) (bound : Clock), schedule.Diligent →
      ∃ w : Story H, w.state 0 = m ∧ w.Driven schedule ∧
        ((w.state w.last).execution.Sound → ∀ α (l : Repeat H) till k,
          w.part? α w.last = some (l.rests till k) → bound < (w.state w.last).store.now) := by
  refine ⟨?law, fun w node at_start schedule launched steady diligent driven i α x hi hx =>
    launched.exists_timely steady diligent driven hi hx, fun m schedule bound diligent => ?passes⟩
  case passes =>
    obtain ⟨w, first, driven, past | stuck⟩ := Machine.exists_past schedule bound m
    · exact ⟨w, first, driven, fun _ _ _ _ _ _ => past⟩
    · refine ⟨w, first, driven, fun sound α l till k hx => ?_⟩
      obtain ⟨m', next⟩ := Machine.exists_move?_of_waiting (diligent w.last) sound hx
        List.mem_cons_self Repeat.ahead_of_blocked
      rw [stuck] at next
      cases next
  obtain ⟨p, depth, moved⟩ := starts
  rw [entering, Execution.move] at moved
  have started := Option.some.inj moved
  let l : Repeat H := ⟨env, n, policy⟩
  have first : (r.later (a + 1)).state 0 = l.attempt 0 (.enter n env) :=
    (congrArg Prod.fst started).symm
  have timely := timely.later (a + 1)
  refine ⟨l, r.later (a + 1), rfl, rfl, (congrArg Prod.snd started).symm, fun calm => ?_⟩
  have stages := Repeat.stage (l := l) timely first asked calm
  refine ⟨stages, fun k u begun => ⟨begun.bound, fun u' begun' => begun.unique asked begun'⟩,
    fun k u' begun => begun.delayed, ?_, fun plain t p unwound => ?_, fun lives => ?_⟩
  · exact fun c k u v exit e m begun takes ends k' u' begun' => ends.last asked begun takes begun'
  · cases stages t with
    | runs _ here waits =>
      rw [here, waits.stands _ le_rfl] at unwound
      cases unwound
    | pauses _ _ _ _ _ _ pauses =>
      rw [pauses.stands t pauses.from_to le_rfl] at unwound
      cases unwound
    | ended _ _ ends _ here =>
      rw [here] at unwound
      cases ends with
      | undrawn f _ _ _ undrawn =>
        cases (RetryPolicy.nextDelay_of_plain plain _ _).symm.trans undrawn
      | _ => cases unwound
  · obtain ⟨c, k, u, v, exit, e, m, begun, takes, ends, here⟩ :=
      Repeat.exists_ends timely asked calm lives (.first first)
    refine ⟨c, k, u, v, exit, e, m, begun, takes, ends, fun t ht => ?_⟩
    induction ht with
    | refl => exact here
    | step _ ih => rw [ended_stays (ih ▸ ends.ended), ih]

/-! A source that fails twice -/

def flaky : Node Host.counting := .sync (Code.pure (.error (.ofKey "flaky")))

def flakyEnv : Env := ⟨⟨0, []⟩, .root 0, none⟩

/-- Once more, after two ticks. -/
def onceMore : RetryPolicy Host.counting := { times := 1, delay := .ofMillis 2 }

def flakyLoop : Repeat Host.counting := ⟨flakyEnv, flaky, onceMore⟩

def flakyExit : Exit Host.counting := .error (.ofKey "flaky")

def flakyStore : Store Host.counting := { user := (0 : Nat) }

/-- The store from the first failure on. -/
def flakyAgain (now : Clock) : Store Host.counting :=
  { flakyLoop.again 0 (.ofKey "flaky") flakyStore (.ofMillis 2) with now := now }

theorem nextDelay_onceMore (draw : Binary64) :
    onceMore.nextDelay 1 draw = .ok (.ofMillis 2) := by
  have plain : onceMore.plainDelay 1 = .ofMillis 2 := by decide +kernel
  rw [RetryPolicy.nextDelay_of_plain rfl, plain]

theorem retryAfter_flaky : retryAfter flakyEnv flaky onceMore 0 (.ofKey "flaky") flakyStore =
    (flakyLoop.rests 2 1, flakyAgain 0) := by
  have delay : onceMore.nextDelay (0 + 1) (flakyStore.draw onceMore).1 = .ok (.ofMillis 2) :=
    nextDelay_onceMore _
  have asked : flakyStore.perform (onceMore.accepts (.ofKey "flaky")) =
    (.ok true, flakyStore) := rfl
  simp only [retryAfter, asked, delay]
  rfl

/-- The second execution begins two ticks after the first one has failed. -/
def flakyCourse : Course Host.counting where
  state
    | 0 => .enter (.retry flaky onceMore) flakyEnv
    | 1 => flakyLoop.attempt 0 (.enter flaky flakyEnv)
    | 2 => flakyLoop.attempt 0 (.settled flakyExit)
    | 3 | 4 => flakyLoop.rests 2 1
    | 5 => flakyLoop.attempt 1 (.enter flaky flakyEnv)
    | 6 => flakyLoop.attempt 1 (.settled flakyExit)
    | _ => .settled flakyExit
  store
    | 0 | 1 | 2 => flakyStore
    | 3 => flakyAgain 0
    | _ => flakyAgain 2
  step
    | 0 | 1 | 4 | 5 | 6 => .inl ⟨.standard, 0, rfl⟩
    | 2 => .inl ⟨.standard, 0, congrArg some retryAfter_flaky⟩
    | 3 => .inr rfl
    | _ + 7 => .inr rfl

theorem timely_flaky : flakyCourse.Timely where
  fired t := by
    rcases t with _ | _ | _ | _ | t
    iterate 4 exact List.nil_subset _
    exact List.Subset.refl _
  forward t := by
    rcases t with _ | _ | _ | _ | t
    · exact Nat.le_refl 0
    · exact Nat.le_refl 0
    · exact Nat.le_refl 0
    · exact Nat.zero_le 2
    · exact Nat.le_refl 2
  held t passes := by
    rcases t with _ | _ | _ | _ | t
    · exact absurd passes (Nat.lt_irrefl 0)
    · exact absurd passes (Nat.lt_irrefl 0)
    · exact absurd passes (Nat.lt_irrefl 0)
    · refine ⟨rfl, fun d hd _ => ?_⟩
      have instant : d = 2 := by simpa using (show d ∈ [2] from hd)
      rw [instant]
      exact Nat.le_refl 2
    · exact absurd passes (Nat.lt_irrefl 2)

theorem settled_flaky {t : Nat} (h : 6 ≤ t) :
    (flakyCourse.later 1).state t = .settled flakyExit := settled_stays (t := 6) rfl h

theorem calm_flaky (t k : Nat) (p : Panic) :
    (flakyCourse.later 1).state t ≠ flakyLoop.attempt k (.unwound p) := by
  intro unwound
  rcases t with _ | _ | _ | _ | _ | _ | t
  iterate 6 cases unwound
  rw [settled_flaky (Nat.le_add_left 6 t)] at unwound
  cases unwound

theorem lives_flaky : flakyLoop.Lives (flakyCourse.later 1) where
  goes_on := (fair_of_settled (u := 6) rfl).moves
  settles c k u runs := by
    have begun : (flakyCourse.later 1).state u = flakyLoop.attempt k (c.state 0) := runs.above.begun
    rw [runs.begins] at begun
    have next : (flakyCourse.later 1).state (u + 1) =
        flakyLoop.attempt k (.settled flakyExit) := by
      rcases u with _ | _ | _ | _ | _ | _ | u
      case succ.succ.succ.succ.succ.succ =>
        rw [settled_flaky (Nat.le_add_left 6 u)] at begun
        cases begun
      all_goals cases begun
      · rfl
      · rfl
    have running : (c.state 0).ended = false := by
      rw [runs.begins]
      rfl
    exact ⟨1, flakyExit, runs.above.above running next⟩
  passes till k t rests := by
    rcases t with _ | _ | _ | _ | _ | _ | t
    case succ.succ.succ.succ.succ.succ =>
      rw [settled_flaky (Nat.le_add_left 6 t)] at rests
      cases rests
    all_goals cases rests
    · exact ⟨3, Nat.le_succ 2, .inr (Nat.le_refl 2)⟩
    · exact ⟨3, Nat.le_refl 3, .inr (Nat.le_refl 2)⟩

theorem taken_flaky {c : Course Host.counting} {k u v : Nat} {exit : Exit Host.counting}
    (takes : flakyLoop.Takes (flakyCourse.later 1) c k u v exit) : exit = flakyExit := by
  have here := takes.waits.stands v le_rfl
  rw [takes.settled] at here
  generalize u + v = t at here
  rcases t with _ | _ | _ | _ | _ | _ | t
  case succ.succ.succ.succ.succ.succ =>
    rw [settled_flaky (Nat.le_add_left 6 t)] at here
    cases here
  all_goals cases here
  · rfl
  · rfl

/-- The source is executed twice, with two ticks between its first failure and its second execution,
and the step settles with its second failure. -/
theorem flaky_runs_twice : ∃ q c c' u v u' v', q = flakyCourse.later 1 ∧
    flakyLoop.Begins q 0 u ∧ flakyLoop.Takes q c 0 u v flakyExit ∧
    flakyLoop.Begins q 1 u' ∧ (q.store u').now = (q.store (u + v)).now + 2 ∧
    flakyLoop.Takes q c' 1 u' v' flakyExit ∧
    flakyLoop.Ends q 1 (u' + v') flakyExit (.settled flakyExit) (u' + v' + 1) := by
  have asked : ∀ f (s : Store Host.counting) p, (s.perform (onceMore.accepts f)).1 ≠ .error p := by
    intro f s p
    unfold RetryPolicy.accepts
    split <;> exact nofun
  obtain ⟨⟨l, q, rfl, rfl, -, law⟩, -⟩ := retry_law flakyCourse timely_flaky flaky onceMore flakyEnv
    0 rfl ⟨.standard, 0, rfl⟩ asked
  obtain ⟨-, -, delayed, -, -, ends⟩ := law calm_flaky
  obtain ⟨c', k, u', v', exit, e, m, begun, takes, ended, here⟩ := ends lives_flaky
  have settled : e = .settled flakyExit := (here (max m 6) (Nat.le_max_left m 6)).symm.trans
    (settled_flaky (Nat.le_max_right m 6))
  obtain rfl := taken_flaky takes
  -- the failure is no defect, and the policy accepts it: it is taken in after the last execution
  have last : k = 1 ∧ m = u' + v' + 1 := by
    cases ended with
    | exhausted f last => exact ⟨last, rfl⟩
    | defect f _ isDefect => cases isDefect
    | declined f _ _ asked => cases congrArg Prod.fst asked
    | aborted => cases settled
    | undrawn => cases settled
  obtain ⟨rfl, rfl⟩ := last
  obtain ⟨c, u, v, f, delay, before, takes', again, -, passed, -⟩ := delayed 0 u' begun
  obtain rfl : delay = .ofMillis 2 := Except.ok.inj (again.drawn.symm.trans (nextDelay_onceMore _))
  exact ⟨_, c, c', u, v, u', v', rfl, before, taken_flaky takes' ▸ takes', begun, passed, takes,
    settled ▸ ended⟩

end Course

end ScopedEffects
