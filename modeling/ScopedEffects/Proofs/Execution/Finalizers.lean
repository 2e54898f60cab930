import ScopedEffects.Proofs.Execution.Story

/-! The life of a step with a finalizer. It waits for its inner effect, which nothing drops; it
invokes its finalizer once; and it waits for the finalizer's effect, which runs under a signal of
its own that no cancellation of runs and no timeout or combinator fires. A panic on its way out is
the one thing that takes such a step away before its finalizer was invoked. -/

namespace ScopedEffects

variable {H : Host}

/-- How a step with a finalizer settles: as the inner effect did, unless only the finalizer failed.
-/
def finallyExit : Exit H → Exit H → Exit H
  | .error f, _ => .error f
  | .ok _, .error g => .error g
  | .ok v, .ok _ => .ok v

theorem concludeFinalizer_eq (exit cleanup : Exit H) (s : Store H) :
    (concludeFinalizer exit cleanup s).1 = .settled (finallyExit exit cleanup) := by
  cases exit <;> cases cleanup <;> rfl

/-- The environment in which a finalizer runs that is invoked at a store. -/
def Env.detached (env : Env) (s : Store H) : Env := { env with signal := s.newSignal.1 }

namespace Story

variable [Tracing H] {r : Story H} {node : Node H} {env : Env} {α : List Hop} {t i : Nat}

/-- The step at an address goes on to its finalizer. -/
def Invokes (r : Story H) (α : List Hop) (t : Nat) : Prop :=
  ∃ env code above, r.part? α t = some (.frame env (.ensuring code) above) ∧
    ∀ above', r.part? α (t + 1) ≠ some (.frame env (.ensuring code) above')

/-- From the instant `j` at which the finalizer is invoked, after the inner effect has settled with
`upstream`, to the instant `z` at which the step has settled: the finalizer panics, or its effect
runs until it settles with `cleanup`. -/
structure Finalized (r : Story H) (α : List Hop) (env : Env) (code : Code H (Node H))
    (upstream cleanup : Exit H) (j z : Nat) : Prop where
  after : j < z
  before : z ≤ r.last
  settled : r.part? α z = some (.settled (finallyExit upstream cleanup))
  runs : (∃ p s, (r.state j).store.newSignal.2.perform code = (.error p, s) ∧
      cleanup = .error (.ofPanic p) ∧ z = j + 1) ∨
    ∃ fin s, (r.state j).store.newSignal.2.perform code = (.ok fin, s) ∧
      (r.state (j + 1)).store = s ∧
      r.part? α (j + 1) = some (.frame (env.detached (r.state j).store) (.ensured upstream)
        (.enter fin (env.detached (r.state j).store))) ∧
      (∀ t, j < t → t < z → ∃ above, r.part? α t =
        some (.frame (env.detached (r.state j).store) (.ensured upstream) above)) ∧
      r.part? α (z - 1) = some (.frame (env.detached (r.state j).store) (.ensured upstream)
        (.settled cleanup))

theorem Launched.finalized (h : r.Launched node env) (steady : r.Steady)
    (settles : (r.state r.last).execution.ended = true) {envf : Env} {code : Code H (Node H)}
    {upstream : Exit H} {j : Nat} (hj : j < r.last)
    (later : r.part? α (j + 1) =
      some (Frame.resume envf upstream (r.state j).store (.ensuring code)).1)
    (store : (r.state (j + 1)).store =
      (Frame.resume envf upstream (r.state j).store (.ensuring code)).2) :
    ∃ cleanup z, r.Finalized α envf code upstream cleanup j z := by
  unfold Frame.resume at later store
  dsimp only at later store
  rcases hp : (r.state j).store.newSignal.2.perform code with ⟨p | fin, s⟩
  · simp only [hp] at later
    rw [concludeFinalizer_eq] at later
    exact ⟨.error (.ofPanic p), j + 1, Nat.lt_succ_self j, hj, later, .inl ⟨p, s, hp, rfl, rfl⟩⟩
  · simp only [hp] at later store
    have no_timer : ∀ (above : Execution H) (s : Store H),
        (Frame.ensured upstream).expire (envf.detached (r.state j).store) above s = none :=
      fun _ _ => rfl
    obtain ⟨k, cleanup, hjk, hk, frames, ended, resumed, -⟩ :=
      h.frame_resumes steady settles no_timer hj later
    refine ⟨cleanup, k + 1, Nat.lt_succ_of_lt hjk, hk, ?_, .inr ?_⟩
    · rw [resumed]
      exact congrArg some (concludeFinalizer_eq upstream cleanup _)
    · refine ⟨fin, s, hp, store, later, fun t hjt htk => ?_, ended⟩
      exact frames t hjt (Nat.le_of_lt_succ htk)

/-- Between its beginning and its end, the step goes on to its finalizer at one instant. -/
theorem Finalized.invokes_iff {envf : Env} {code : Code H (Node H)} {u : Node H}
    {upstream cleanup : Exit H} {a j z : Nat} (h : r.Finalized α envf code upstream cleanup j z)
    (entering : ∀ t, i ≤ t → t ≤ a → r.part? α t = some (.enter (.ensuring u code) envf))
    (frames : ∀ t, a < t → t ≤ j → ∃ above, r.part? α t = some (.frame envf (.ensuring code) above))
    (haj : a < j) (hit : i ≤ t) (htz : t < z) : r.Invokes α t ↔ t = j := by
  constructor
  · rintro ⟨env', code', above, here, next⟩
    rcases Nat.lt_trichotomy t j with less | rfl | more
    · rcases Nat.lt_or_ge a t with hat | hta
      · obtain ⟨above₁, now⟩ := frames t hat less.le
        obtain ⟨above₂, later⟩ := frames (t + 1) (hat.trans (Nat.lt_succ_self t)) less
        rw [now] at here
        cases here
        exact absurd later (next above₂)
      · rw [entering t hit hta] at here
        cases here
    · rfl
    · rcases h.runs with ⟨p, s, -, -, rfl⟩ | ⟨fin, s, -, -, -, ensured, -⟩
      · omega
      · obtain ⟨above', now⟩ := ensured t more htz
        rw [now] at here
        injection here with here
        injection here with _ other
        cases other
  · rintro rfl
    obtain ⟨above, now⟩ := frames t haj (Nat.le_refl t)
    refine ⟨envf, code, above, now, fun above' later => ?_⟩
    rcases h.runs with ⟨p, s, -, -, rfl⟩ | ⟨fin, s, -, -, ensured, -, -⟩
    · rw [h.settled] at later
      cases later
    · rw [ensured] at later
      injection later with later
      injection later with _ other
      cases other

/-- A panic of a retry on its way out takes a step with a finalizer away. -/
theorem finalizer_lost (envf : Env) (code : Code H (Node H)) {inner : Node H}
    {policy : RetryPolicy H} {attempt : Nat} {f : Failure H} {s s₁ : Store H} {p : Panic}
    (sched : Policy) (depth : Nat) (more : attempt < policy.times)
    (asked : s.perform (policy.accepts f) = (.ok true, s₁))
    (spread : policy.nextDelay (attempt + 1) (s₁.draw policy).1 = .error p) :
    ∃ s₂, s₂.user = s₁.user ∧
      (Execution.frame envf (.ensuring code)
        (.frame envf (.retry inner policy attempt) (.settled (.error f)))).move sched depth s =
          some (.frame envf (.ensuring code) (.unwound p), s₂) ∧
      (Execution.frame envf (.ensuring code) (.unwound p)).move sched depth s₂ =
        some (.unwound p, s₂) := by
  refine ⟨(s₁.draw policy).2, ?_, ?_, ?_⟩
  · unfold Store.draw
    split <;> rfl
  · have resumed : retryAfter envf inner policy attempt f s = (.unwound p, (s₁.draw policy).2) := by
      simp [retryAfter, Nat.not_le_of_lt more, asked, spread]
    rw [Execution.move_frame_running rfl, Execution.move_frame_settled, Frame.resume, resumed]
    rfl
  · exact Execution.move_frame_unwound ..

/-- Every execution of a step with a finalizer, wherever it is entered in a run that settles without
a panic of a tracer or a retry, waits for its inner effect, goes on to its finalizer once after
that, and settles after the finalizer's effect has settled, which no cancellation from outside
reaches. A retry whose delay cannot be drawn is what else can happen: then the finalizer is lost. -/
theorem finalizer_runs_once_to_its_end (r : Story H) (node : Node H) (env : Env)
    (launched : r.Launched node env) (steady : r.Steady) (exit : Exit H)
    (settles : (r.state r.last).execution = .settled exit) :
    (∀ i α u code envf, i ≤ r.last → r.part? α i = some (.enter (.ensuring u code) envf) →
      ∃ a j z upstream cleanup, i ≤ a ∧ a < j ∧
        (∀ t, i ≤ t → t ≤ a → r.part? α t = some (.enter (.ensuring u code) envf)) ∧
        r.part? α (a + 1) = some (.frame envf (.ensuring code) (.enter u envf)) ∧
        (∀ t, a < t → t ≤ j → ∃ above, r.part? α t = some (.frame envf (.ensuring code) above)) ∧
        r.part? α j = some (.frame envf (.ensuring code) (.settled upstream)) ∧
        r.Finalized α envf code upstream cleanup j z ∧
        (∀ t, i ≤ t → t < z → (r.Invokes α t ↔ t = j)) ∧
        r.OnlyCodeFires (envf.detached (r.state j).store).signal) ∧
    ∀ (envf : Env) (code : Code H (Node H)) inner policy attempt f s s₁ p sched depth,
      attempt < policy.times → s.perform (policy.accepts f) = (.ok true, s₁) →
      policy.nextDelay (attempt + 1) (s₁.draw policy).1 = .error p → ∃ s₂, s₂.user = s₁.user ∧
        (Execution.frame envf (.ensuring code)
          (.frame envf (.retry inner policy attempt) (.settled (.error f)))).move sched depth s =
            some (.frame envf (.ensuring code) (.unwound p), s₂) ∧
        (Execution.frame envf (.ensuring code) (.unwound p)).move sched depth s₂ =
          some (.unwound p, s₂) := by
  have ended : (r.state r.last).execution.ended = true := by rw [settles]; rfl
  constructor
  · intro i α u code envf hi entered
    obtain ⟨a, hia, ha, entering, policy, depth, x', moved, later⟩ :=
      launched.moves_later steady ended hi entered rfl
    rw [Execution.move] at moved
    -- the node is entered: from here on the inner effect is above the step
    have begun : x' = .frame envf (.ensuring code) (.enter u envf) :=
      (congrArg Prod.fst (Option.some.inj moved)).symm
    rw [begun] at later
    have no_timer : ∀ (above : Execution H) (s : Store H),
        (Frame.ensuring code).expire envf above s = none := fun _ _ => rfl
    -- it settles, the finalizer is invoked, and the finalizer's effect settles in its turn
    obtain ⟨j, upstream, haj, hj, frames, waited, resumed, store⟩ :=
      launched.frame_resumes steady ended no_timer ha later
    obtain ⟨cleanup, z, finalized⟩ := launched.finalized steady ended hj resumed store
    refine ⟨a, j, z, upstream, cleanup, hia, haj, entering, later, frames, waited, finalized, ?_⟩
    refine ⟨fun t hit htz => finalized.invokes_iff entering frames haj hit htz, ?_⟩
    exact launched.only_code_fires steady (launched.supply steady (Nat.zero_le j) hj.le)
  · intro envf code inner policy attempt f s s₁ p sched depth more asked spread
    exact finalizer_lost envf code sched depth more asked spread

/-! A step whose inner effect fails -/

def failing : Node Host.counting := .sync (Code.pure (.error (.ofKey "late")))

def cleaning : Node Host.counting := .sync (Code.pure (.ok ⟨.unit, ()⟩))

def guarded : Node Host.counting := .ensuring failing (Code.pure cleaning)

def guardedEnv : Env := ⟨⟨0, []⟩, .root 0, none⟩

/-- Signals that are made in this run are numbered from one. -/
def guardedStore (n : Nat) : Store Host.counting := { user := (0 : Nat), signals := ⟨n⟩ }

def cleaningEnv : Env := guardedEnv.detached (guardedStore 1)

theorem launched_guarded {r : Story Host.counting} {n : Node Host.counting}
    (h : r.state 0 = ⟨guardedStore 1, .enter n guardedEnv, []⟩) : r.Launched n guardedEnv := by
  refine ⟨?_, ?_, ?_, ?_⟩ <;> rw [h]
  · exact Signal.issued_root Nat.zero_lt_one
  · exact fun _ hg => absurd hg List.not_mem_nil
  · exact fun _ ha => absurd ha List.not_mem_nil

def guardedStory : Story Host.counting where
  state
    | 0 => ⟨guardedStore 1, .enter guarded guardedEnv, []⟩
    | 1 => ⟨guardedStore 1,
        .frame guardedEnv (.ensuring (Code.pure cleaning)) (.enter failing guardedEnv), []⟩
    | 2 => ⟨guardedStore 1,
        .frame guardedEnv (.ensuring (Code.pure cleaning)) (.settled (.error (.ofKey "late"))), []⟩
    | 3 => ⟨guardedStore 2, .frame cleaningEnv (.ensured (.error (.ofKey "late")))
        (.enter cleaning cleaningEnv), []⟩
    | 4 => ⟨guardedStore 2, .frame cleaningEnv (.ensured (.error (.ofKey "late")))
        (.settled (.ok ⟨.unit, ()⟩)), []⟩
    | _ => ⟨guardedStore 2, .settled (.error (.ofKey "late")), []⟩
  last := 5
  step
    | 0, _ | 1, _ | 2, _ | 3, _ | 4, _ => @Machine.Step.moves _ _ _ .standard _ _ rfl
    | t + 5, h => absurd h (by omega)

/-- The second delay would be endless, and so would the bounds it is drawn from. -/
def endless : RetryPolicy Host.counting :=
  { times := 3, delay := .ofMillis 10000, multiplier := .ofDecimal false 1 308, jitter := .one }

def unbounded : Panic := .text SpreadFault.endlessBound.message

/-- The finalizer runs though the inner effect fails, and the step fails as the inner effect did. It
does not run where an endless delay is drawn above it. -/
theorem guarded_fails_after_finalizer :
    (∃ j z cleanup, guardedStory.Finalized [] guardedEnv (Code.pure cleaning)
      (.error (.ofKey "late")) cleanup j z) ∧
    ∃ s, s.user = (0 : Nat) ∧
      (Execution.frame guardedEnv (.ensuring (Code.pure cleaning)) (.frame guardedEnv
        (.retry failing endless 1) (.settled (.error (.ofKey "late"))))).move .standard 0
          (guardedStore 1) =
        some (.frame guardedEnv (.ensuring (Code.pure cleaning)) (.unwound unbounded), s) ∧
      (Execution.frame guardedEnv (.ensuring (Code.pure cleaning)) (.unwound unbounded)).move
        .standard 0 s = some (.unwound unbounded, s) := by
  have issued : guardedEnv.signal.Issued (guardedStore 1) := by
    refine ⟨Nat.le_refl 1, fun n hn => ?_⟩
    rw [List.mem_singleton.1 hn]
    exact Nat.zero_lt_one
  have launched : guardedStory.Launched guarded guardedEnv :=
    ⟨rfl, issued, fun _ hg => absurd hg List.not_mem_nil, fun _ ha => absurd ha List.not_mem_nil⟩
  have steady : guardedStory.Steady := by
    intro t ht
    rcases t with _ | _ | _ | _ | _ | t
    · trivial
    · exact ⟨fun _ _ => trivial, trivial⟩
    · exact ⟨fun _ _ => trivial, trivial⟩
    · exact ⟨fun _ _ => trivial, trivial⟩
    · exact ⟨fun _ _ => trivial, trivial⟩
    · exact absurd ht (by show ¬ t + 5 < 5; omega)
  obtain ⟨runs, lost⟩ := finalizer_runs_once_to_its_end guardedStory guarded guardedEnv launched
    steady (.error (.ofKey "late")) rfl
  have spread : endless.nextDelay 2 (.zero false) = .error unbounded := by decide +kernel
  obtain ⟨a, j, z, upstream, cleanup, -, -, -, -, -, waited, finalized, -⟩ :=
    runs 0 [] failing (Code.pure cleaning) guardedEnv (Nat.zero_le 5) rfl
  have same : upstream = .error (.ofKey "late") := by
    rcases j with _ | _ | _ | _ | _ | j
    · cases waited
    · cases waited
    · cases waited
      rfl
    · cases waited
    · cases waited
    · cases waited
  refine ⟨⟨j, z, cleanup, same ▸ finalized⟩, ?_⟩
  exact lost guardedEnv (Code.pure cleaning) failing endless 1 (.ofKey "late") (guardedStore 1)
    (guardedStore 1) _ .standard 0 (by decide) rfl spread

end Story

end ScopedEffects
