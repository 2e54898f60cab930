import ScopedEffects.Proofs.Execution.Aborting
import ScopedEffects.Proofs.Execution.Course

/-! Handlers that look at failures. Such a step hands every failure of its inner effect to its
handler, once, and then runs the effect that the handler answers with before it settles. That effect
runs in the environment of the step itself. As long as the signal there has not fired, it is run like
any other, and the step keeps its failure when it succeeds; under a signal that has fired its
sources give up at once, and their abort takes the place of the failure. -/

namespace ScopedEffects

variable {H : Host}

/-- How the step settles after the failure `f`, by how the handler's effect has settled. -/
def tappedFailure (f : Failure H) : Exit H → Failure H
  | .ok _ => f
  | .error g => g

namespace Execution

theorem resume_tapErrored [Tracing H] (f : Failure H) (env : Env) (exit : Exit H) (s : Store H) :
    (Frame.tapErrored f).resume env exit s = (.settled (.error (tappedFailure f exit)), s) := by
  cases exit <;> rfl

end Execution

/-- The effect succeeds in all its executions in the environment, if the signal there does not
fire. -/
def Node.SucceedsIn [Tracing H] (n : Node H) (env : Env) : Prop :=
  ∀ c : Course H, c.state 0 = .enter n env → (∀ t, (c.store t).isFired env.signal = false) →
    ∀ t exit, c.state t = .settled exit → ∃ v, exit = .ok v

namespace Story

variable [Tracing H] {r : Story H} {node : Node H} {env envf : Env} {α : List Hop}
  {j t u z : Nat} {f : Frame H} {x : Execution H} {answer : Exit H}

/-- From `j` on the step waits, in one frame, for what is above it, which settles with `answer` right
before `z`. -/
structure Awaits (r : Story H) (α : List Hop) (env : Env) (f : Frame H) (x : Execution H)
    (answer : Exit H) (j z : Nat) : Prop where
  after : j < z
  begun : r.part? α j = some (.frame env f x)
  frames : ∀ t, j ≤ t → t < z → ∃ above, r.part? α t = some (.frame env f above)
  answered : r.part? α (z - 1) = some (.frame env f (.settled answer))

theorem frame_above_eq {e e' : Execution H} (h : r.part? α t = some (.frame envf f e))
    (h' : r.part? α t = some (.frame envf f e')) : e = e' := by
  rw [h] at h'
  injection h' with same
  injection same

/-- What goes on above a step that waits is a course of its own. -/
theorem Launched.exists_course (h : r.Launched node env) (steady : r.Steady) (hz : z ≤ r.last)
    (waits : r.Awaits α envf f x answer j z)
    (leaves : ∀ exit s above, (f.resume envf exit s).1 ≠ .frame envf f above) :
    ∃ c : Course H, c.state 0 = x ∧ (∃ t, c.state t = .settled answer) ∧
      ∀ t, ∃ u, j ≤ u ∧ u < z ∧ c.store t = (r.state u).store := by
  have after := waits.after
  have there : ∀ t, ∃ above, r.part? α (min (j + t) (z - 1)) = some (.frame envf f above) :=
    fun t => waits.frames _ (by omega) (by omega)
  choose above here using there
  refine ⟨⟨above, fun t => (r.state (min (j + t) (z - 1))).store, fun t => ?_⟩, ?_, ?_, ?_⟩
  · have now := here t
    have later := here (t + 1)
    rcases Nat.lt_or_ge (j + t + 1) z with next | past
    · -- the frame is still there at the next instant, so what is above it has moved or stayed
      rw [show min (j + t) (z - 1) = j + t by omega] at now ⊢
      rw [show min (j + (t + 1)) (z - 1) = j + t + 1 by omega] at later ⊢
      rcases h.follow steady (by omega) now rfl with same | ⟨policy, depth, x', moved, there⟩
      · exact .inr (frame_above_eq later same)
      · rw [later] at there
        have same : Execution.frame envf f (above (t + 1)) = x' := Option.some.inj there
        generalize (r.state (j + t + 1)).store = s at moved ⊢
        cases Execution.move_frame moved with
        | resumes => exact absurd same.symm (leaves _ _ _)
        | passes => cases same
        | moves _ moved =>
          injection same with _ _ same
          rw [same]
          exact .inl ⟨_, _, moved⟩
        | expires _ timeout =>
          injection same with _ other _
          rw [timeout] at other
          cases other
    · rw [show min (j + (t + 1)) (z - 1) = min (j + t) (z - 1) by omega] at later
      exact .inr (frame_above_eq later now)
  · have begun := here 0
    rw [show min (j + 0) (z - 1) = j by omega] at begun
    exact frame_above_eq begun waits.begun
  · have last := here z
    rw [show min (j + z) (z - 1) = z - 1 by omega] at last
    exact ⟨z, frame_above_eq last waits.answered⟩
  · intro t
    exact ⟨min (j + t) (z - 1), by omega, by omega, rfl⟩

/-- From the instant `j` at which the handler is asked about the failure `g`, to the instant `z` at
which the step has settled: the handler panics, or the effect that it answers with runs in the
environment of the step until it settles with `answer`. -/
structure Tapped (r : Story H) (α : List Hop) (env : Env) (code : Failure H → Code H (Node H))
    (g : Failure H) (answer : Exit H) (j z : Nat) : Prop where
  after : j < z
  before : z ≤ r.last
  settled : r.part? α z = some (.settled (.error (tappedFailure g answer)))
  runs : (∃ p, (r.state j).store.perform (code g) = (.error p, (r.state (j + 1)).store) ∧
      answer = .error (.ofPanic p) ∧ z = j + 1) ∨
    ∃ n, (r.state j).store.perform (code g) = (.ok n, (r.state (j + 1)).store) ∧
      r.Awaits α env (.tapErrored g) (.enter n env) answer (j + 1) z

variable {code : Failure H → Code H (Node H)} {g : Failure H} {n : Node H}

theorem Launched.tapped (h : r.Launched node env) (steady : r.Steady)
    (ended : (r.state r.last).execution.ended = true) (hj : j < r.last)
    (later : r.part? α (j + 1) =
      some (Frame.resume envf (.error g) (r.state j).store (.tapError code)).1)
    (store : (r.state (j + 1)).store =
      (Frame.resume envf (.error g) (r.state j).store (.tapError code)).2) :
    ∃ answer z, r.Tapped α envf code g answer j z := by
  unfold Frame.resume Execution.build at later store
  dsimp only at later store
  rcases hp : (r.state j).store.perform (code g) with ⟨p | n, s⟩
  · simp only [hp] at later store
    refine ⟨.error (.ofPanic p), j + 1, Nat.lt_succ_self j, hj, later, .inl ⟨p, ?_, rfl, rfl⟩⟩
    rw [hp, store]
  · simp only [hp] at later store
    have no_timer : ∀ (above : Execution H) (s : Store H),
        (Frame.tapErrored g).expire envf above s = none := fun _ _ => rfl
    obtain ⟨k, answer, hjk, hk, frames, waited, resumed, -⟩ :=
      h.frame_resumes steady ended no_timer hj later
    rw [Execution.resume_tapErrored] at resumed
    refine ⟨answer, k + 1, by omega, hk, resumed, .inr ⟨n, by rw [hp, store], ?_⟩⟩
    refine ⟨by omega, later, fun t hjt htk => frames t hjt (by omega), ?_⟩
    exact waited

/-- The effect of the handler is one course from its beginning to its exit. -/
theorem Tapped.exists_course (tapped : r.Tapped α envf code g answer j z)
    (h : r.Launched node env) (steady : r.Steady) {s : Store H}
    (answers : (r.state j).store.perform (code g) = (.ok n, s)) :
    ∃ c : Course H, c.state 0 = .enter n envf ∧ (∃ t, c.state t = .settled answer) ∧
      ∀ t, ∃ u, j < u ∧ u < z ∧ c.store t = (r.state u).store := by
  rcases tapped.runs with ⟨p, panics, -⟩ | ⟨n', answers', waits⟩
  · rw [answers] at panics
    cases panics
  · rw [answers] at answers'
    cases answers'
    refine h.exists_course steady tapped.before waits fun exit s above => ?_
    rw [Execution.resume_tapErrored]
    rintro ⟨⟩

/-- A source that is entered under a signal that has fired comes to nothing but the abort. -/
theorem aborts_of_source (source : n.IsSource) (c : Course H) (begins : c.state 0 = .enter n envf)
    (fired : ∀ t, (c.store t).isFired envf.signal = true) (t : Nat) :
    c.state t = .enter n envf ∨ c.state t = .settled (.error .aborted) := by
  induction t with
  | zero => exact .inl begins
  | succ t ih =>
    rcases c.step t with ⟨policy, depth, moved⟩ | same
    · rcases ih with entering | settled
      · rw [entering, Execution.move, Execution.start_of_isSource source (fired t)] at moved
        injection moved with moved
        injection moved with moved
        exact .inr moved.symm
      · rw [settled, Execution.move] at moved
        cases moved
    · rwa [same]

/-- A synchronous source runs its code when it is entered, unless the signal has fired by then. -/
theorem Launched.sync_performed (h : r.Launched node env) (steady : r.Steady)
    (ended : (r.state r.last).execution.ended = true) {code : Code H (Exit H)} (ht : t ≤ r.last)
    (hx : r.part? α t = some (.enter (.sync code) envf)) :
    ∃ u, t ≤ u ∧ u < r.last ∧
      (∀ v, t ≤ v → v ≤ u → r.part? α v = some (.enter (.sync code) envf)) ∧
      ((r.state u).store.isFired envf.signal = true ∧
          r.part? α (u + 1) = some (.settled (.error .aborted)) ∧
          (r.state (u + 1)).store = (r.state u).store ∨
        (r.state u).store.isFired envf.signal = false ∧
          (r.state (u + 1)).store = ((r.state u).store.perform code).2) := by
  obtain ⟨u, htu, hu, stays, policy, depth, x', moved, later⟩ :=
    h.moves_later steady ended ht hx rfl
  rw [Execution.move] at moved
  have started := Option.some.inj moved
  have source : (Node.sync code).IsSource := trivial
  refine ⟨u, htu, hu, stays, ?_⟩
  cases fired : (r.state u).store.isFired envf.signal with
  | true =>
    rw [Execution.start_of_isSource source fired] at started
    injection started with aborted same
    exact .inl ⟨rfl, aborted ▸ later, same.symm⟩
  | false =>
    rw [Execution.start, Execution.source_of_live fired] at started
    refine .inr ⟨rfl, ?_⟩
    have left : (r.state (u + 1)).store =
      (Execution.build (r.state u).store code Execution.settled).2 := by rw [started]
    rw [left]
    unfold Execution.build
    split <;> (rename_i performed; rw [performed])

/-- Every failure of the inner effect reaches the handler, whatever it is and whether or not the
signal has fired, and the handler is asked once. The effect that it answers with then runs where the
step stands. If the signal there does not fire meanwhile, and the effect succeeds wherever its signal
does not fire, the step keeps its failure; but a source gives up at once under a signal that has
fired, without running any code, and the step settles with the abort instead. -/
theorem failure_is_tapped_in_place (r : Story H) (node : Node H) (env : Env)
    (launched : r.Launched node env) (steady : r.Steady)
    (ended : (r.state r.last).execution.ended = true) :
    (∀ i α u code envf, i ≤ r.last → r.part? α i = some (.enter (.tapError u code) envf) →
      ∃ a j upstream, i ≤ a ∧ a < j ∧ j < r.last ∧
        (∀ t, i ≤ t → t ≤ a → r.part? α t = some (.enter (.tapError u code) envf)) ∧
        r.part? α (a + 1) = some (.frame envf (.tapError code) (.enter u envf)) ∧
        (∀ t, a < t → t ≤ j → ∃ above, r.part? α t = some (.frame envf (.tapError code) above)) ∧
        r.part? α j = some (.frame envf (.tapError code) (.settled upstream)) ∧
        (∀ v, upstream = .ok v → r.part? α (j + 1) = some (.settled (.ok v)) ∧
          (r.state (j + 1)).store = (r.state j).store) ∧
        ∀ g, upstream = .error g → ∃ answer z, r.Tapped α envf code g answer j z) ∧
    (∀ α envf code g answer j z n s, r.Tapped α envf code g answer j z →
      (r.state j).store.perform (code g) = (.ok n, s) →
      ((∀ t, j < t → t < z → (r.state t).store.isFired envf.signal = false) →
        n.SucceedsIn envf → r.part? α z = some (.settled (.error g))) ∧
      (n.IsSource → (r.state (j + 1)).store.isFired envf.signal = true →
        r.part? α z = some (.settled (.error .aborted)))) ∧
    ∀ α t code envf, t ≤ r.last → r.part? α t = some (.enter (.sync code) envf) →
      ∃ u, t ≤ u ∧ u < r.last ∧
        (∀ v, t ≤ v → v ≤ u → r.part? α v = some (.enter (.sync code) envf)) ∧
        ((r.state u).store.isFired envf.signal = true ∧
            r.part? α (u + 1) = some (.settled (.error .aborted)) ∧
            (r.state (u + 1)).store = (r.state u).store ∨
          (r.state u).store.isFired envf.signal = false ∧
            (r.state (u + 1)).store = ((r.state u).store.perform code).2) := by
  refine ⟨?_, ?_, ?_⟩
  · intro i α u code envf hi entered
    obtain ⟨a, hia, ha, entering, policy, depth, x', moved, later⟩ :=
      launched.moves_later steady ended hi entered rfl
    rw [Execution.move] at moved
    have begun : x' = .frame envf (.tapError code) (.enter u envf) :=
      (congrArg Prod.fst (Option.some.inj moved)).symm
    rw [begun] at later
    have no_timer : ∀ (above : Execution H) (s : Store H),
        (Frame.tapError code).expire envf above s = none := fun _ _ => rfl
    obtain ⟨j, upstream, haj, hj, frames, waited, resumed, store⟩ :=
      launched.frame_resumes steady ended no_timer ha later
    refine ⟨a, j, upstream, hia, haj, hj, entering, later, frames, waited, ?_, ?_⟩
    · rintro v rfl
      exact ⟨resumed, store⟩
    · rintro g rfl
      exact launched.tapped steady ended hj resumed store
  · intro α envf code g answer j z n s tapped answers
    obtain ⟨c, begins, ⟨t, settles⟩, during⟩ := tapped.exists_course launched steady answers
    constructor
    · intro live succeeds
      have unfired : ∀ t, (c.store t).isFired envf.signal = false := by
        intro t
        obtain ⟨u, hju, huz, same⟩ := during t
        rw [same]
        exact live u hju huz
      obtain ⟨v, rfl⟩ := succeeds c begins unfired t answer settles
      exact tapped.settled
    · intro source fired
      have fired : ∀ t, (c.store t).isFired envf.signal = true := by
        intro t
        obtain ⟨u, hju, huz, same⟩ := during t
        rw [same]
        exact isFired_of_before hju (huz.le.trans tapped.before) fired
      have settled := tapped.settled
      rcases aborts_of_source source c begins fired t with entering | aborted
      · rw [settles] at entering
        cases entering
      · rw [settles] at aborted
        cases aborted
        exact settled
  · intro α t code envf ht entered
    exact launched.sync_performed steady ended ht entered

/-! A failure that is tapped, in an environment that is cancelled or not -/

def late : Failure Host.counting := .ofKey "late"

/-- Fails, and cancels its own environment before if it is told so. -/
def leaving (cancels : Bool) : Node Host.counting :=
  .sync fun _ s => ⟨s, if cancels then [guardedEnv.signal] else [], .ok (.error late)⟩

def tapping (cancels : Bool) : Node Host.counting :=
  .tapError (leaving cancels) fun _ => Code.pure cleaning

def leftStore (cancels : Bool) : Store Host.counting :=
  (guardedStore 1).fireAll (if cancels then [guardedEnv.signal] else [])

def tapExit (cancels : Bool) : Exit Host.counting :=
  if cancels then .error .aborted else .ok ⟨.unit, ()⟩

def tapFrame : Frame Host.counting := .tapError fun _ => Code.pure cleaning

def tappingStory (cancels : Bool) : Story Host.counting where
  state
    | 0 => ⟨guardedStore 1, .enter (tapping cancels) guardedEnv, []⟩
    | 1 => ⟨guardedStore 1, .frame guardedEnv tapFrame (.enter (leaving cancels) guardedEnv), []⟩
    | 2 => ⟨leftStore cancels, .frame guardedEnv tapFrame (.settled (.error late)), []⟩
    | 3 => ⟨leftStore cancels,
        .frame guardedEnv (.tapErrored late) (.enter cleaning guardedEnv), []⟩
    | 4 => ⟨leftStore cancels,
        .frame guardedEnv (.tapErrored late) (.settled (tapExit cancels)), []⟩
    | _ => ⟨leftStore cancels, .settled (.error (tappedFailure late (tapExit cancels))), []⟩
  last := 5
  step
    | 0, _ | 1, _ | 2, _ | 3, _ | 4, _ => by
      cases cancels <;> exact @Machine.Step.moves _ _ _ .standard _ _ rfl
    | t + 5, h => absurd h (by omega)

theorem succeeds_cleaning (env : Env) : cleaning.SucceedsIn env := by
  intro c begins unfired t
  have only : c.state t = .enter cleaning env ∨ c.state t = .settled (.ok ⟨.unit, ()⟩) := by
    induction t with
    | zero => exact .inl begins
    | succ t ih =>
      rcases c.step t with ⟨policy, depth, moved⟩ | same
      · rcases ih with entering | settled
        · rw [entering, Execution.move, cleaning, Execution.start,
            Execution.source_of_live (unfired t)] at moved
          injection moved with moved
          injection moved with moved
          exact .inr moved.symm
        · rw [settled, Execution.move] at moved
          cases moved
      · rwa [same]
  rintro exit settled
  rcases only with entering | done
  · rw [settled] at entering
    cases entering
  · rw [settled] at done
    cases done
    exact ⟨_, rfl⟩

/-- The step keeps its failure where nothing is cancelled. Where the inner effect cancels its
environment before it fails, the handler's effect does nothing, and the step settles with the
abort. -/
theorem tap_is_cancelled :
    (tappingStory false).part? [] 5 = some (.settled (.error late)) ∧
    (tappingStory true).part? [] 5 = some (.settled (.error .aborted)) := by
  have launched : ∀ cancels, (tappingStory cancels).Launched (tapping cancels) guardedEnv :=
    fun _ => launched_guarded rfl
  have steady : ∀ cancels, (tappingStory cancels).Steady := by
    intro cancels t ht
    rcases t with _ | _ | _ | _ | _ | t
    · trivial
    · exact ⟨fun _ _ => trivial, trivial⟩
    · exact ⟨fun _ _ => trivial, trivial⟩
    · exact ⟨fun _ _ => trivial, trivial⟩
    · exact ⟨fun _ _ => trivial, trivial⟩
    · exact absurd ht (by show ¬ t + 5 < 5; omega)
  have tapped : ∀ cancels, ∃ answer z, (tappingStory cancels).Tapped [] guardedEnv
      (fun _ => Code.pure cleaning) late answer 2 z := by
    intro cancels
    obtain ⟨whole, -⟩ := failure_is_tapped_in_place _ _ _ (launched cancels) (steady cancels) rfl
    obtain ⟨a, j, upstream, -, -, hj, -, -, -, waited, -, fails⟩ :=
      whole 0 [] (leaving cancels) (fun _ => Code.pure cleaning) guardedEnv (Nat.zero_le 5) rfl
    rcases j with _ | _ | _ | _ | _ | j
    · cases waited
    · cases waited
    · cases waited
      exact fails late rfl
    · cases waited
    · cases waited
    · exact absurd hj (by show ¬ j + 5 < 5; omega)
  -- the step settles at the last instant, and not before
  have at_last : ∀ {cancels z exit}, z ≤ 5 →
      (tappingStory cancels).part? [] z = some (.settled exit) →
      (tappingStory cancels).part? [] 5 = some (.settled exit) := by
    intro cancels z exit hz settled
    rcases z with _ | _ | _ | _ | _ | z
    iterate 5 cases settled
    exact settled
  constructor
  · obtain ⟨answer, z, tapped⟩ := tapped false
    obtain ⟨-, taps, -⟩ := failure_is_tapped_in_place _ _ _ (launched false) (steady false) rfl
    obtain ⟨keeps, -⟩ := taps _ _ _ _ _ _ _ cleaning (leftStore false) tapped rfl
    refine at_last tapped.before (keeps (fun t hjt htz => ?_) (succeeds_cleaning _))
    have hz : z ≤ 5 := tapped.before
    rcases t with _ | _ | _ | _ | _ | t
    · rfl
    · rfl
    · rfl
    · rfl
    · rfl
    · omega
  · obtain ⟨answer, z, tapped⟩ := tapped true
    obtain ⟨-, taps, -⟩ := failure_is_tapped_in_place _ _ _ (launched true) (steady true) rfl
    obtain ⟨-, aborts⟩ := taps _ _ _ _ _ _ _ cleaning (leftStore true) tapped rfl
    exact at_last tapped.before (aborts trivial rfl)

end Story

end ScopedEffects
