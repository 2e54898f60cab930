import ScopedEffects.Proofs.Execution.Aborting
import ScopedEffects.Proofs.Execution.Chronicle
import ScopedEffects.Proofs.Execution.Provision

/-! Runs under a signal that has fired before they begin. As long as no timeout without a fallback
lapses outside finalizers, all that settles there settles with the abort, no handler is asked, and a
retry runs its inner effect once; and if finalizers settle, so does the run. -/

namespace ScopedEffects

variable {H : Host} [Tracing H]

/-! Safety -/

namespace Story

variable {r : Story H} {node : Node H} {env : Env} {α : List Hop} {t u z : Nat} {x : Execution H}

def outer? (r : Story H) (α : List Hop) (t : Nat) : Option (Execution H) :=
  (r.state t).execution.outer? α

/-- A timeout without a fallback ends its time at this step, outside finalizers. -/
def Lapses (r : Story H) (t : Nat) : Prop :=
  Execution.Lapses (r.state t).store (r.state t).execution (r.state (t + 1)).execution

/-- So far no timeout without a fallback has ended its time, finalizers apart. -/
def InTime (r : Story H) (t : Nat) : Prop := ∀ u, u < t → ¬ r.Lapses u

theorem InTime.before (h : r.InTime u) (htu : t ≤ u) : r.InTime t :=
  fun v hv => h v (Nat.lt_of_lt_of_le hv htu)

def Aborting (r : Story H) (t : Nat) : Prop :=
  (r.state t).execution.Aborting (r.state t).store

theorem Launched.aborting (h : r.Launched node env) (steady : r.Steady) (abortable : node.Abortable)
    (fired : (r.state 0).store.isFired env.signal = true) (ht : t ≤ r.last) (inTime : r.InTime t) :
    r.Aborting t := by
  induction t with
  | zero =>
    unfold Aborting
    rw [h.execution]
    exact .enter abortable fired
  | succ t ih =>
    have before := ih (Nat.le_of_succ_le ht) (inTime.before (Nat.le_succ t))
    have sound := h.sound steady (Nat.le_of_succ_le ht)
    have kept := (r.step t ht).fired
    have lapses := inTime t (Nat.lt_succ_self t)
    have step := r.step t ht
    unfold Lapses at lapses
    unfold Aborting
    generalize r.state (t + 1) = m at step lapses kept
    cases step with
    | moves hm => exact (before.move sound hm).resolve_right lapses
    | rings | passes => exact before.mono kept

theorem part?_of_outer? (h : r.outer? α t = some x) : r.part? α t = some x :=
  Execution.at?_of_outer? h

/-- What is outside finalizers is outside of them until it has ended. -/
theorem outer?_step (aborting : r.Aborting t) (ht : t < r.last) (hx : r.outer? α t = some x)
    (hn : x.ended = false) : r.outer? α (t + 1) = some x ∨ ∃ policy depth x',
      x.move policy depth (r.state t).store = some (x', (r.state (t + 1)).store) ∧
        r.outer? α (t + 1) = some x' := by
  have step := r.step t ht
  unfold outer? at hx ⊢
  generalize r.state (t + 1) = m at step
  cases step with
  | moves hm => exact aborting.move_outer? hm hx hn
  | rings | passes => exact .inl hx

theorem outer?_later (aborting : ∀ v, t ≤ v → v < z → r.Aborting v) (htz : t ≤ z) (hz : z ≤ r.last)
    (hx : r.outer? α t = some x)
    (running : ∀ v, t ≤ v → v < z → ∃ y, r.part? α v = some y ∧ y.ended = false) :
    ∃ y, r.outer? α z = some y := by
  induction htz with
  | refl => exact ⟨x, hx⟩
  | @step z htz ih =>
    obtain ⟨y, hy⟩ := ih (fun v htv hv => aborting v htv (Nat.lt_succ_of_lt hv))
      (Nat.le_of_succ_le hz) (fun v htv hv => running v htv (Nat.lt_succ_of_lt hv))
    obtain ⟨y', hy', hn⟩ := running z htz (Nat.lt_succ_self z)
    have same : y' = y := Option.some.inj (hy'.symm.trans (part?_of_outer? hy))
    subst same
    rcases outer?_step (aborting z htz (Nat.lt_succ_self z)) hz hy hn with same | ⟨-, -, y', -, later⟩
    · exact ⟨y', same⟩
    · exact ⟨y', later⟩

/-- A retry that is reached outside finalizers runs its inner effect once, and settles with the
abort. -/
theorem Launched.retries_once (h : r.Launched node env) (steady : r.Steady)
    (ended : (r.state r.last).execution.ended = true) (aborting : ∀ t, t ≤ r.last → r.Aborting t)
    {n : Node H} {policy : RetryPolicy H} {envr : Env} (ht : t ≤ r.last)
    (hx : r.outer? α t = some (.enter (.retry n policy) envr)) :
    ∃ a j, t ≤ a ∧ a < j ∧ j < r.last ∧
      (∀ v, t ≤ v → v ≤ a → r.part? α v = some (.enter (.retry n policy) envr)) ∧
      r.part? α (a + 1) = some (.frame envr (.retry n policy 0) (.enter n envr)) ∧
      (∀ v, a < v → v ≤ j → ∃ above, r.part? α v = some (.frame envr (.retry n policy 0) above)) ∧
      r.part? α j = some (.frame envr (.retry n policy 0) (.settled (.error .aborted))) ∧
      r.part? α (j + 1) = some (.settled (.error .aborted)) := by
  obtain ⟨a, hta, ha, entering, sched, depth, x', moved, later⟩ :=
    h.moves_later steady ended ht (part?_of_outer? hx) rfl
  rw [Execution.move] at moved
  have begun : x' = .frame envr (.retry n policy 0) (.enter n envr) :=
    (congrArg Prod.fst (Option.some.inj moved)).symm
  rw [begun] at later
  have no_timer : ∀ (above : Execution H) (s : Store H),
      (Frame.retry n policy 0).expire envr above s = none := fun _ _ => rfl
  obtain ⟨j, exit, haj, hj, frames, waited, resumed, -⟩ :=
    h.frame_resumes steady ended no_timer ha later
  have running : ∀ v, t ≤ v → v < j → ∃ y, r.part? α v = some y ∧ y.ended = false := by
    intro v htv hvj
    rcases Nat.lt_or_ge a v with hav | hva
    · obtain ⟨above, there⟩ := frames v hav hvj.le
      exact ⟨_, there, rfl⟩
    · exact ⟨_, entering v htv hva, rfl⟩
  obtain ⟨y, outside⟩ := outer?_later (fun v _ hv => aborting v (hv.le.trans hj.le)) (by omega)
    hj.le hx running
  have same := part?_of_outer? outside
  rw [waited] at same
  cases same
  have exit_eq : exit = .error .aborted := by
    cases (aborting j hj.le).outer? outside with
    | frame _ _ above => exact above.exit_eq
  subst exit_eq
  refine ⟨a, j, hta, haj, hj, entering, later, frames, waited, ?_⟩
  rw [resumed, Execution.resume_retry_aborted]

end Story

/-! Progress -/

namespace Execution

variable {s s' : Store H} {e e' x : Execution H} {α : List Hop} {policy : Policy} {depth : Nat}

/-- The execution can move whatever the store is. -/
inductive Prompt : Execution H → Prop
  | enter {n env} : Prompt (.enter n env)
  | resume {env f exit} : Prompt (.frame env f (.settled exit))

omit [Tracing H] in
theorem Prompt.going (h : x.Prompt) (policy : Policy) (depth : Nat) (s : Store H) :
    x.going policy depth s = true := by
  cases h <;> rfl

theorem Prompt.move (h : x.Prompt) (policy : Policy) (depth : Nat) (s : Store H) :
    ∃ moved, x.move policy depth s = some moved := by
  cases h with
  | enter => exact ⟨_, by rw [Execution.move]⟩
  | resume => exact ⟨_, by rw [Execution.move]; rfl⟩

/-- As long as the poll lets go on what is above it, a frame does nothing else. -/
theorem move_frame_of_going {env : Env} {f : Frame H} {above : Execution H}
    (h : above.going policy (depth + 1) s = true) : (frame env f above).move policy depth s =
      (above.move policy (depth + 1) s).map fun (above, s) => (frame env f above, s) := by
  have running : above.ended = false := by
    cases above with
    | settled | unwound => cases h
    | _ => rfl
  rw [move_frame_running running, h, Bool.not_true, Bool.and_false, if_neg Bool.false_ne_true]

omit [Tracing H] in
theorem Aborting.going_of_outer? (h : e.Aborting s) (hx : e.outer? α = some x)
    (goes : ∀ depth, x.going policy depth s = true) : e.going policy depth s = true := by
  induction α generalizing e depth with
  | nil => exact Option.some.inj hx ▸ goes depth
  | cons hop α ih =>
    obtain ⟨above, part, hg⟩ := Option.bind_eq_some_iff.1 hx
    obtain ⟨aborting, -, env, f, rfl, -⟩ := h.outerPart? part
    rw [going, ih aborting hg]
    simp

/-- The one part outside finalizers that the poll lets go on is what moves. -/
theorem Aborting.move_of_going (h : e.Aborting s) (hx : e.outer? α = some x)
    (goes : ∀ depth, x.going policy depth s = true) (hm : e.move policy depth s = some (e', s')) :
    ∃ depth x', x.move policy depth s = some (x', s') ∧ e'.outer? α = some x' := by
  induction α generalizing e depth e' s' with
  | nil =>
    cases hx
    exact ⟨depth, e', hm, rfl⟩
  | cons hop α ih =>
    obtain ⟨above, part, hg⟩ := Option.bind_eq_some_iff.1 hx
    obtain ⟨aborting, rfl, env, f, rfl, hf⟩ := h.outerPart? part
    rw [move_frame_of_going (aborting.going_of_outer? hg goes)] at hm
    obtain ⟨⟨above', s₁⟩, moved, he⟩ := Option.map_eq_some_iff.1 hm
    cases he
    obtain ⟨d, x', hx', there⟩ := ih aborting hg moved
    refine ⟨d, x', hx', ?_⟩
    cases hf <;> exact there

theorem Aborting.exists_move (h : e.Aborting s) (hx : e.outer? α = some x) (prompt : x.Prompt)
    (policy : Policy) (depth : Nat) : ∃ moved, e.move policy depth s = some moved := by
  induction α generalizing e depth with
  | nil => exact Option.some.inj hx ▸ prompt.move policy depth s
  | cons hop α ih =>
    obtain ⟨above, part, hg⟩ := Option.bind_eq_some_iff.1 hx
    obtain ⟨aborting, -, env, f, rfl, -⟩ := h.outerPart? part
    obtain ⟨moved, hm⟩ := ih aborting hg (depth + 1)
    rw [move_frame_of_going (aborting.going_of_outer? hg fun d => prompt.going policy d s), hm]
    exact ⟨_, rfl⟩

omit [Tracing H] in
theorem Aborting.eq_of_ended (h : e.Aborting s) (he : e.ended = true) :
    e = .settled (.error .aborted) := by
  cases h <;> first | rfl | cases he

omit [Tracing H] in
/-- What the poll does not let go on waits for the effect of a finalizer. -/
theorem Aborting.waits (h : e.Aborting s) (hn : e.ended = false)
    (rests : e.going policy depth s = false) :
    ∃ β envf exit y, e.outer? β = some (.frame envf (.ensured exit) y) ∧ y.ended = false ∧
      ∃ policy depth, y.going policy depth s = false := by
  induction h generalizing depth with
  | enter => cases rests
  | @frame env f above hf _ _ ih =>
    rw [going, Bool.or_eq_false_iff, Bool.or_eq_false_iff] at rests
    obtain ⟨β, envf, exit, y, hy, rest⟩ := ih rests.1.1 rests.1.2
    refine ⟨.above :: β, envf, exit, y, ?_, rest⟩
    cases hf <;> exact hy
  | @ensured env above =>
    rw [going, Bool.or_eq_false_iff, Bool.or_eq_false_iff] at rests
    exact ⟨[], env, _, above, rfl, rests.1.1, policy, depth + 1, rests.1.2⟩
  | settled => cases hn

/-- A timeout lapses only while a finalizer above it is under way. -/
theorem Lapses.waits (h : Lapses s e e') (aborting : e.Aborting s)
    (hm : e.move policy depth s = some (e', s')) :
    ∃ α β env deadline after child above envf exit y,
      e.outer? α = some (.frame env (.timeout deadline after child none) above) ∧
        deadline ≤ s.now ∧ above.outer? β = some (.frame envf (.ensured exit) y) ∧
        y.ended = false ∧ ∃ policy depth, y.going policy depth s = false := by
  obtain ⟨α, env, deadline, after, child, above, before, later, due⟩ := h
  have inside : above.Aborting s := by
    cases aborting.outer? before with
    | frame _ _ above => exact above
  -- while the poll lets go on what is above it, a timeout does not look at its timer
  have still : above.ended = false ∧ ∃ depth, above.going policy depth s = false := by
    by_contra busy
    have goes : above.ended = true ∨ ∀ depth, above.going policy depth s = true := by
      cases he : above.ended with
      | true => exact .inl rfl
      | false =>
        refine .inr fun depth => ?_
        by_contra rests
        exact busy ⟨he, depth, Bool.eq_false_iff.2 rests⟩
    have whole : ∀ depth,
        (frame env (.timeout deadline after child none) above).going policy depth s = true := by
      intro depth
      rw [going]
      rcases goes with ended | goes
      · rw [ended]
        rfl
      · rw [goes, Bool.or_true]
        rfl
    obtain ⟨d, x', moved, there⟩ := aborting.move_of_going before whole hm
    rw [there] at later
    cases later
    rcases goes with ended | goes
    · have settled := inside.eq_of_ended ended
      subst settled
      rw [Execution.move] at moved
      cases moved
    · rw [move_frame_of_going (goes (d + 1))] at moved
      obtain ⟨⟨above', s₁⟩, -, he⟩ := Option.map_eq_some_iff.1 moved
      cases he
  obtain ⟨rests, depth, stuck⟩ := still
  obtain ⟨β, envf, exit, y, hy, rest⟩ := inside.waits rests stuck
  exact ⟨α, β, env, deadline, after, child, above, envf, exit, y, before, due, hy, rest⟩

end Execution

/-- What a frame is as long as it waits: a timeout may end its time. -/
def Frame.Stays (f f' : Frame H) : Prop :=
  f' = f ∨ ∃ deadline after child fallback,
    f = .timeout deadline after child fallback ∧ f' = .draining after fallback

omit [Tracing H] in
theorem Frame.Stays.trans {f g k : Frame H} (h : f.Stays g) (h' : g.Stays k) : f.Stays k := by
  rcases h with rfl | ⟨d, after, child, fallback, rfl, rfl⟩
  · exact h'
  · rcases h' with rfl | ⟨d', after', child', fallback', timeout, -⟩
    · exact .inr ⟨d, after, child, fallback, rfl, rfl⟩
    · cases timeout

namespace Chronicle

variable {c : Chronicle H} {α : List Hop} {t u : Nat} {x : Execution H} {n : Node H} {env : Env}

def outer? (c : Chronicle H) (α : List Hop) (t : Nat) : Option (Execution H) :=
  (c.state t).execution.outer? α

/-- The effects of finalizers settle sooner or later. -/
def FinalizersSettle (c : Chronicle H) : Prop := ∀ t α envf exit above,
  c.outer? α t = some (.frame envf (.ensured exit) above) →
    ∃ u cleanup, t ≤ u ∧ c.outer? α u = some (.frame envf (.ensured exit) (.settled cleanup))

def Aborting (c : Chronicle H) : Prop := ∀ t, (c.state t).execution.Aborting (c.state t).store

/-- Sooner or later the part at the address has settled with the abort. -/
def Ends (c : Chronicle H) (α : List Hop) (t : Nat) : Prop :=
  ∃ u, t ≤ u ∧ c.outer? α u = some (.settled (.error .aborted))

theorem Ends.before (h : c.Ends α u) (htu : t ≤ u) : c.Ends α t := by
  obtain ⟨z, huz, settled⟩ := h
  exact ⟨z, htu.trans huz, settled⟩

theorem outer?_step (aborting : c.Aborting) (hx : c.outer? α t = some x) (hn : x.ended = false) :
    c.outer? α (t + 1) = some x ∨ ∃ policy depth x',
      x.move policy depth (c.state t).store = some (x', (c.state (t + 1)).store) ∧
        c.outer? α (t + 1) = some x' := by
  have inside : (c.upTo (t + 1)).Aborting t := aborting t
  exact Story.outer?_step inside (Nat.lt_succ_self t) hx hn

theorem goes_on (fair : c.Fair) (aborting : c.Aborting) (hx : c.outer? α t = some x)
    (prompt : x.Prompt) : ∃ u policy depth x', t ≤ u ∧ c.outer? α u = some x ∧
      x.move policy depth (c.state u).store = some (x', (c.state (u + 1)).store) ∧
      c.outer? α (u + 1) = some x' := by
  obtain ⟨moved, possible⟩ := (aborting t).exists_move hx prompt .standard 0
  obtain ⟨u, htu, ⟨policy, e, s, moves, next⟩, same⟩ := fair.next_move possible
  have here : (c.state u).execution.outer? α = some x := by
    rw [same u htu (Nat.le_refl u)]
    exact hx
  obtain ⟨d, x', hx', there⟩ :=
    (aborting u).move_of_going here (fun depth => prompt.going _ depth _) moves
  refine ⟨u, policy, d, x', htu, here, ?_, ?_⟩
  · rw [next]
    exact hx'
  · unfold outer?
    rw [next]
    exact there

theorem starts (fair : c.Fair) (aborting : c.Aborting) (hx : c.outer? α t = some (.enter n env)) :
    ∃ u, t ≤ u ∧ (c.state u).store.isFired env.signal = true ∧
      c.outer? α (u + 1) = some (Execution.start env (c.state u).store n).1 := by
  obtain ⟨u, policy, depth, x', htu, here, moved, later⟩ := goes_on fair aborting hx .enter
  rw [Execution.move] at moved
  have fired : (c.state u).store.isFired env.signal = true := by
    cases (aborting u).outer? here with
    | enter _ fired => exact fired
  exact ⟨u, htu, fired, by rw [later, Option.some.inj moved]⟩

theorem resumes (fair : c.Fair) (aborting : c.Aborting) {f : Frame H} {exit : Exit H}
    (hx : c.outer? α t = some (.frame env f (.settled exit))) :
    ∃ u, t ≤ u ∧ c.outer? α (u + 1) = some (f.resume env exit (c.state u).store).1 := by
  obtain ⟨u, policy, depth, x', htu, -, moved, later⟩ := goes_on fair aborting hx .resume
  rw [Execution.move] at moved
  have resumed : f.resume env exit (c.state u).store = (x', (c.state (u + 1)).store) :=
    Option.some.inj moved
  exact ⟨u, htu, by rw [later, resumed]⟩

theorem frame_stays (aborting : c.Aborting) {f : Frame H} {above : Execution H}
    (hx : c.outer? α t = some (.frame env f above)) (hn : above.ended = false) :
    ∃ f' above', c.outer? α (t + 1) = some (.frame env f' above') ∧ f.Stays f' := by
  rcases outer?_step aborting hx rfl with same | ⟨policy, depth, x', moved, later⟩
  · exact ⟨f, above, same, .inl rfl⟩
  · generalize (c.state (t + 1)).store = s at moved
    cases Execution.move_frame moved with
    | resumes settled =>
      subst settled
      cases hn
    | passes unwound =>
      subst unwound
      cases hn
    | @moves _ _ above' => exact ⟨f, above', later, .inl rfl⟩
    | @expires deadline after child fallback _ _ _ timeout =>
      exact ⟨_, above, later, .inr ⟨deadline, after, child, fallback, timeout, rfl⟩⟩

/-- A frame goes on with the abort once what is above it has settled with that. -/
theorem frame_goes_on (fair : c.Fair) (aborting : c.Aborting) {f : Frame H} {above : Execution H}
    (hf : f.Passes) (hx : c.outer? α t = some (.frame env f above))
    (ends : c.Ends (α ++ [.above]) t) :
    ∃ f' u, f.Stays f' ∧ f'.Passes ∧ t ≤ u ∧
      c.outer? α (u + 1) = some (f'.resume env (.error .aborted) (c.state u).store).1 := by
  have passes : ∀ {f' : Frame H} {above' : Execution H} {v}, f.Stays f' →
      c.outer? α v = some (.frame env f' above') → f'.Passes := by
    intro f' above' v stays hv
    cases (aborting v).outer? hv with
    | frame hf' => exact hf'
    | ensured =>
      rcases stays with same | ⟨_, _, _, _, _, drains⟩
      · exact same ▸ hf
      · cases drains
  -- as long as what is above has not settled, the frame is there
  obtain ⟨z, htz, settled⟩ := ends
  have waits : ∀ v, t ≤ v → (∃ f' w, t ≤ w ∧ f.Stays f' ∧
        c.outer? α w = some (.frame env f' (.settled (.error .aborted)))) ∨
      ∃ f' above', f.Stays f' ∧ above'.ended = false ∧
        c.outer? α v = some (.frame env f' above') := by
    have sorted : ∀ {f' above'} {v}, t ≤ v → f.Stays f' →
        c.outer? α v = some (.frame env f' above') →
        (∃ f' w, t ≤ w ∧ f.Stays f' ∧
            c.outer? α w = some (.frame env f' (.settled (.error .aborted)))) ∨
          ∃ f' above', f.Stays f' ∧ above'.ended = false ∧
            c.outer? α v = some (.frame env f' above') := by
      intro f' above' v htv stays hv
      cases he : above'.ended with
      | false => exact .inr ⟨f', above', stays, he, hv⟩
      | true =>
        have hf' := passes stays hv
        cases (aborting v).outer? hv with
        | frame _ _ inside =>
          have eq := inside.eq_of_ended he
          subst eq
          exact .inl ⟨f', v, htv, stays, hv⟩
        | ensured => cases hf'
    intro v htv
    induction htv with
    | refl => exact sorted (Nat.le_refl t) (.inl rfl) hx
    | @step v htv ih =>
      rcases ih with done | ⟨f', above', stays, running, hv⟩
      · exact .inl done
      · obtain ⟨f'', above'', later, again⟩ := frame_stays aborting hv running
        exact sorted (Nat.le_succ_of_le htv) (stays.trans again) later
  rcases waits z htz with ⟨f', w, htw, stays, hw⟩ | ⟨f', above', stays, running, hz⟩
  · obtain ⟨u, hwu, later⟩ := resumes fair aborting hw
    exact ⟨f', u, stays, passes stays hw, htw.trans hwu, later⟩
  · have hf' := passes stays hz
    have inside : above' = .settled (.error .aborted) := by
      unfold outer? at settled hz
      rw [Execution.outer?_snoc, hz] at settled
      cases hf' <;> exact Option.some.inj settled
    subst inside
    cases running

theorem frame_ends (fair : c.Fair) (aborting : c.Aborting) {f : Frame H} {envn : Env}
    (hf : f.Passes) (hx : c.outer? α t = some (.frame env f (.enter n envn)))
    (inner : ∀ α t env, c.outer? α t = some (.enter n env) → c.Ends α t)
    (rest : ∀ f' s u, f.Stays f' → f'.Passes →
      c.outer? α u = some (f'.resume env (.error .aborted) s).1 → c.Ends α u) : c.Ends α t := by
  have begun : c.outer? (α ++ [.above]) t = some (.enter n envn) := by
    unfold outer? at hx ⊢
    rw [Execution.outer?_snoc, hx]
    cases hf <;> rfl
  obtain ⟨f', u, stays, hf', htu, later⟩ :=
    frame_goes_on fair aborting hf hx (inner _ t envn begun)
  exact (rest f' _ (u + 1) stays hf' later).before (htu.trans (Nat.le_succ u))

/-- A step that passes the abort on as it is. -/
theorem step_ends (fair : c.Fair) (aborting : c.Aborting) {f : Frame H} {envn : Env}
    (hf : f.Passes) (hx : c.outer? α t = some (.frame env f (.enter n envn)))
    (inner : ∀ α t env, c.outer? α t = some (.enter n env) → c.Ends α t)
    (untimed : f.timers = [])
    (through : ∀ s, (f.resume env (.error .aborted) s).1 = .settled (.error .aborted)) :
    c.Ends α t := by
  refine frame_ends fair aborting hf hx inner fun f' s u stays _ later => ?_
  rcases stays with rfl | ⟨_, _, _, _, rfl, -⟩
  · rw [through] at later
    exact ⟨u, Nat.le_refl u, later⟩
  · cases untimed

theorem enter_step_ends (fair : c.Fair) (aborting : c.Aborting) {f : Frame H} {v : Node H}
    (hf : f.Passes) (hx : c.outer? α t = some (.enter n env))
    (begins : ∀ s, (Execution.start env s n).1 = .frame env f (.enter v env))
    (inner : ∀ α t env, c.outer? α t = some (.enter v env) → c.Ends α t)
    (untimed : f.timers = [])
    (through : ∀ s, (f.resume env (.error .aborted) s).1 = .settled (.error .aborted)) :
    c.Ends α t := by
  obtain ⟨u, htu, -, begun⟩ := starts fair aborting hx
  rw [begins] at begun
  have ends := step_ends fair aborting hf begun inner untimed through
  exact ends.before (Nat.le_succ_of_le htu)

/-- Every node that is entered outside finalizers settles with the abort. -/
theorem enter_ends (fair : c.Fair) (aborting : c.Aborting) (finalizers : c.FinalizersSettle)
    (h : n.Abortable) : ∀ α t env, c.outer? α t = some (.enter n env) → c.Ends α t := by
  induction h with
  | source source =>
    intro α t env hx
    obtain ⟨u, htu, fired, later⟩ := starts fair aborting hx
    rw [Execution.start_of_isSource source fired] at later
    exact ⟨u + 1, Nat.le_succ_of_le htu, later⟩
  | map _ ih =>
    intro α t env hx
    exact enter_step_ends fair aborting .map hx (fun _ => rfl) ih rfl fun _ => rfl
  | withService _ ih =>
    intro α t env hx
    exact enter_step_ends fair aborting .withService hx (fun _ => rfl) ih rfl fun _ => rfl
  | recover _ ih =>
    intro α t env hx
    exact enter_step_ends fair aborting .recover hx (fun _ => rfl) ih rfl fun _ => rfl
  | tap _ ih =>
    intro α t env hx
    exact enter_step_ends fair aborting .tap hx (fun _ => rfl) ih rfl fun _ => rfl
  | @tapError v code _ next answers hn ih ihn =>
    intro α t env hx
    obtain ⟨u, htu, -, begun⟩ := starts fair aborting hx
    have passes : (Frame.tapError code).Passes := .tapError next answers hn
    have ends : c.Ends α (u + 1) := by
      refine frame_ends fair aborting passes begun ih fun f' s v stays _ later => ?_
      rcases stays with rfl | ⟨_, _, _, _, timeout, -⟩
      · -- the effect of the tap is aborted in its turn
        have performed : s.perform (code .aborted) =
            (.ok (next s.now s.user), (s.perform (code .aborted)).2) :=
          Prod.ext (answers s.now s.user) rfl
        have tapping : ((Frame.tapError code).resume env (.error .aborted) s).1 =
            .frame env (.tapErrored .aborted) (.enter (next s.now s.user) env) := by
          show (Execution.build s (code .aborted) _).1 = _
          unfold Execution.build
          rw [performed]
        rw [tapping] at later
        exact step_ends fair aborting .tapErrored later (ihn _ _) rfl fun _ => rfl
      · cases timeout
    exact ends.before (Nat.le_succ_of_le htu)
  | @ensuring v code _ ih =>
    intro α t env hx
    obtain ⟨u, htu, -, begun⟩ := starts fair aborting hx
    have ends : c.Ends α (u + 1) := by
      refine frame_ends fair aborting .ensuring begun ih fun f' s v stays _ later => ?_
      rcases stays with rfl | ⟨_, _, _, _, timeout, -⟩
      · unfold Frame.resume at later
        dsimp only at later
        split at later
        · obtain ⟨w, cleanup, hvw, cleaned⟩ := finalizers v α _ _ _ later
          obtain ⟨z, hwz, settled⟩ := resumes fair aborting cleaned
          refine ⟨z + 1, Nat.le_succ_of_le (hvw.trans hwz), ?_⟩
          rw [settled]
          exact congrArg some (concludeFinalizer_eq (.error .aborted) cleanup _)
        · rw [concludeFinalizer_eq] at later
          exact ⟨v, Nat.le_refl v, later⟩
      · cases timeout
    exact ends.before (Nat.le_succ_of_le htu)
  | @timeout v after fallback _ hf ih ihf =>
    intro α t env hx
    obtain ⟨u, htu, -, begun⟩ := starts fair aborting hx
    have ends : c.Ends α (u + 1) := by
      refine frame_ends fair aborting (.timeout hf) begun ih fun f' s w stays passes later => ?_
      rcases stays with rfl | ⟨_, _, _, _, same, rfl⟩
      · exact ⟨w, Nat.le_refl w, later⟩
      · cases same
        cases passes with
        | draining => exact ihf _ rfl α w env later
    exact ends.before (Nat.le_succ_of_le htu)
  | @retry v policy _ ih =>
    intro α t env hx
    exact enter_step_ends fair aborting .retry hx (fun _ => rfl) ih rfl fun s =>
      congrArg Prod.fst (Execution.resume_retry_aborted env s v policy 0)
  | provide _ ih =>
    intro α t env hx
    obtain ⟨u, htu, -, begun⟩ := starts fair aborting hx
    exact (ih α (u + 1) _ begun).before (Nat.le_succ_of_le htu)

end Chronicle

/-! Runs -/

namespace Runner

variable {a : Shape H.Plain} {runner : Runner H} {e : Effect H a} {signal : Signal} {s : Store H}
  {alarms : List Alarm}

omit [Tracing H] in
theorem abortable_withDeadline (h : e.node.Abortable) : (runner.withDeadline e).node.Abortable := by
  unfold withDeadline
  split
  · exact .timeout h fun _ hn => nomatch hn
  · exact h

omit [Tracing H] in
/-- The machine with which a run begins. -/
def beginning (runner : Runner H) (e : Effect H a) (signal : Signal) (alarms : List Alarm)
    (s : Store H) : Machine H :=
  .ring ⟨(runner.opened signal s).2.record .runStarted, .enter (runner.withDeadline e).node
    ⟨(runner.opened signal s).1, signal, runner.settings.defaultConcurrency⟩, alarms⟩

/-- The run has all that it requires, and its signal has fired before it begins. -/
structure Cancelled (runner : Runner H) (e : Effect H a) (signal : Signal) (alarms : List Alarm)
    (s : Store H) : Prop where
  complete : runner.lacking e = []
  fired : s.isFired signal = true
  issued : signal.Issued s
  known : ∀ g ∈ s.fired, g.Issued s
  alarmed : ∀ a ∈ alarms, a.signal.Issued s

namespace Cancelled

variable {r : Story H}

theorem launched (h : runner.Cancelled e signal alarms s)
    (hr : r.state 0 = runner.beginning e signal alarms s) :
    r.Launched (runner.withDeadline e).node
      ⟨(runner.opened signal s).1, signal, runner.settings.defaultConcurrency⟩ :=
  Story.launched_of_launch (launch_of_complete h.complete) h.issued h.known h.alarmed hr

theorem fired_at_start (h : runner.Cancelled e signal alarms s)
    (hr : r.state 0 = runner.beginning e signal alarms s) :
    (r.state 0).store.isFired signal = true := by
  rw [hr]
  exact Store.isFired_of_subset (Store.fired_fireAll ..) h.fired

theorem aborting (h : runner.Cancelled e signal alarms s) (abortable : e.node.Abortable)
    (hr : r.state 0 = runner.beginning e signal alarms s) (steady : r.Steady) {t : Nat}
    (ht : t ≤ r.last) (inTime : r.InTime t) : r.Aborting t :=
  (h.launched hr).aborting steady (abortable_withDeadline abortable) (h.fired_at_start hr) ht inTime

end Cancelled

/-- A run whose signal has fired before it begins settles with the abort, as long as no timeout
without a fallback lapses outside finalizers, and if the finalizers settle. Up to that moment all
that settles outside finalizers settles with the abort, steps with handlers go on without them, and a
retry runs its inner effect once. A timeout lapses only while a finalizer above it is under way that
the poll does not let go on; it settles with its own failure then, although the signal has fired. -/
theorem cancelled_run_aborts (runner : Runner H) (e : Effect H a) (signal : Signal)
    (alarms : List Alarm) (s : Store H) (abortable : e.node.Abortable)
    (cancelled : runner.Cancelled e signal alarms s) :
    (∃ x scope s', runner.launch e signal s = (.ok x, scope, s') ∧
      runner.beginning e signal alarms s = .ring ⟨s', x, alarms⟩) ∧
    (∀ r : Story H, r.state 0 = runner.beginning e signal alarms s → r.Steady →
      (∀ t α, t ≤ r.last → r.InTime t →
        (∀ exit, r.outer? α t = some (.settled exit) → exit = .error .aborted) ∧
        (∀ envf code exit, r.outer? α t = some (.frame envf (.recover code) (.settled exit)) →
          ∀ s, (Frame.recover code).resume envf exit s = (.settled exit, s)) ∧
        (∀ envf n policy k above, r.outer? α t = some (.frame envf (.retry n policy k) above) →
          k = 0) ∧
        ∀ till envf n policy k, r.outer? α t ≠ some (.pause till envf n policy k)) ∧
      ((r.state r.last).execution.ended = true → r.InTime r.last →
        (r.state r.last).execution = .settled (.error .aborted) ∧
        ∀ t α n policy envf, t ≤ r.last → r.outer? α t = some (.enter (.retry n policy) envf) →
          ∃ a j, t ≤ a ∧ a < j ∧ j < r.last ∧
            (∀ v, t ≤ v → v ≤ a → r.part? α v = some (.enter (.retry n policy) envf)) ∧
            r.part? α (a + 1) = some (.frame envf (.retry n policy 0) (.enter n envf)) ∧
            (∀ v, a < v → v ≤ j →
              ∃ above, r.part? α v = some (.frame envf (.retry n policy 0) above)) ∧
            r.part? α j = some (.frame envf (.retry n policy 0) (.settled (.error .aborted))) ∧
            r.part? α (j + 1) = some (.settled (.error .aborted))) ∧
      (∀ t, t < r.last → r.InTime t → r.Lapses t →
        ∃ α β envt deadline after child above envf exit y,
          r.outer? α t = some (.frame envt (.timeout deadline after child none) above) ∧
          deadline ≤ (r.state t).store.now ∧
          above.outer? β = some (.frame envf (.ensured exit) y) ∧ y.ended = false ∧
          ∃ policy depth, y.going policy depth (r.state t).store = false) ∧
      ∀ t α envt after above, t < r.last →
        r.part? α t = some (.frame envt (.draining after none) above) →
          (∃ above', r.part? α (t + 1) = some (.frame envt (.draining after none) above')) ∨
            r.part? α (t + 1) = some (.settled (.error (.timeout after)))) ∧
    (∀ c : Chronicle H, c.state 0 = runner.beginning e signal alarms s → c.Steady → c.Fair →
      c.FinalizersSettle → (∀ t, (c.upTo t).InTime t) →
      ∃ t, (c.state t).execution = .settled (.error .aborted)) ∧
    ∀ schedule horizon fuel (r : Story H), r.state 0 = runner.beginning e signal alarms s →
      r.state r.last =
        (Machine.run schedule horizon fuel (runner.beginning e signal alarms s)).2 →
      r.Steady → r.InTime r.last →
      (runner.run schedule horizon fuel e signal alarms s).1 = none ∨
        (runner.run schedule horizon fuel e signal alarms s).1 = some (.ok (.error .aborted)) := by
  have begins : runner.launch e signal s = _ := launch_of_complete cancelled.complete
  refine ⟨⟨_, _, _, begins, rfl⟩, ?_, ?_, ?_⟩
  · intro r hr steady
    have launched := cancelled.launched hr
    have settles : ∀ t, t ≤ r.last → r.InTime t → (r.state t).execution.ended = true →
        (r.state t).execution = .settled (.error .aborted) := fun t ht inTime ended =>
      (cancelled.aborting abortable hr steady ht inTime).eq_of_ended ended
    refine ⟨?_, ?_, ?_, ?_⟩
    · intro t α ht inTime
      have aborting := cancelled.aborting abortable hr steady ht inTime
      refine ⟨?_, ?_, ?_, ?_⟩
      · intro exit hx
        exact (aborting.outer? hx).exit_eq
      · intro envf code exit hx s
        cases aborting.outer? hx with
        | frame _ _ above =>
          cases above
          exact Execution.resume_recover_aborted envf s code
      · intro envf n policy k above hx
        cases aborting.outer? hx with
        | frame hf =>
          cases hf
          rfl
      · intro till envf n policy k hx
        cases aborting.outer? hx
    · intro ended inTime
      refine ⟨settles _ (Nat.le_refl _) inTime ended, fun t α n policy envf ht hx => ?_⟩
      have aborting : ∀ t, t ≤ r.last → r.Aborting t := fun t ht =>
        cancelled.aborting abortable hr steady ht (inTime.before ht)
      exact launched.retries_once steady ended aborting ht hx
    · intro t ht inTime lapses
      have aborting := cancelled.aborting abortable hr steady ht.le inTime
      have step := r.step t ht
      unfold Story.Lapses at lapses
      generalize r.state (t + 1) = m at step lapses
      cases step with
      | moves hm => exact lapses.waits aborting hm
      | rings | passes =>
        obtain ⟨α, envt, deadline, after, child, above, before, later, -⟩ := lapses
        rw [before] at later
        cases later
    · intro t α envt after above ht hx
      rcases launched.follow steady ht hx rfl with same | ⟨policy, depth, x', moved, later⟩
      · exact .inl ⟨above, same⟩
      · generalize (r.state (t + 1)).store = s at moved
        cases Execution.move_frame moved with
        | resumes => exact .inr later
        | passes unwound =>
          subst unwound
          exact ((launched.sound steady ht.le).at? hx).2.2.elim
        | @moves _ _ above' => exact .inl ⟨above', later⟩
        | expires _ timeout => cases timeout
  · intro c hc steady fair finalizers inTime
    have aborting : c.Aborting := by
      intro t
      have story : (c.upTo t).state 0 = runner.beginning e signal alarms s := hc
      exact cancelled.aborting abortable story (steady.upTo t) (Nat.le_refl t) (inTime t)
    have entered : c.outer? [] 0 = some (.enter (runner.withDeadline e).node
        ⟨(runner.opened signal s).1, signal, runner.settings.defaultConcurrency⟩) := by
      unfold Chronicle.outer?
      rw [hc]
      rfl
    obtain ⟨t, -, settled⟩ := Chronicle.enter_ends fair aborting finalizers
      (abortable_withDeadline abortable) [] 0 _ entered
    exact ⟨t, Option.some.inj settled⟩
  · intro schedule horizon fuel r hr last steady inTime
    have aborting := cancelled.aborting abortable hr steady (Nat.le_refl _) inTime
    unfold Story.Aborting at aborting
    unfold run
    rw [begins]
    dsimp only
    rcases hm : Machine.run schedule horizon fuel (Machine.ring ⟨_, _, alarms⟩) with ⟨ending, m⟩
    have whole : r.state r.last = m := last.trans (congrArg Prod.snd hm)
    rw [whole] at aborting
    dsimp only
    split
    · rename_i exit hx
      rw [hx] at aborting
      rw [aborting.exit_eq]
      exact .inr rfl
    · rename_i p hp
      rw [hp] at aborting
      cases aborting
    · exact .inl rfl

/-! An effect with a finalizer -/

open Story (cleaning cleaningEnv failing guardedEnv)

def doneEffect : Effect Host.counting .unit := .succeed ()

def lateEffect : Effect Host.counting .unit :=
  (Effect.fail (.ofKey "late")).ensuring (Code.pure doneEffect)

def firedStore : Store Host.counting :=
  { user := (0 : Nat), fired := [.root 0], signals := ⟨1⟩ }

/-- The store of the run, with the number of the next signal. -/
def lateStore (n : Nat) : Store Host.counting :=
  { (bareRunner.opened (.root 0) firedStore).2.record .runStarted with signals := ⟨n⟩ }

def lateChronicle : Chronicle Host.counting where
  state
    | 0 => bareRunner.beginning lateEffect (.root 0) [] firedStore
    | 1 => ⟨lateStore 1,
        .frame guardedEnv (.ensuring (Code.pure cleaning)) (.enter failing guardedEnv), []⟩
    | 2 => ⟨lateStore 1,
        .frame guardedEnv (.ensuring (Code.pure cleaning)) (.settled (.error .aborted)), []⟩
    | 3 => ⟨lateStore 2, .frame cleaningEnv (.ensured (.error .aborted))
        (.enter cleaning cleaningEnv), []⟩
    | 4 => ⟨lateStore 2, .frame cleaningEnv (.ensured (.error .aborted))
        (.settled (.ok ⟨.unit, ()⟩)), []⟩
    | _ => ⟨lateStore 2, .settled (.error .aborted), []⟩
  step
    | 0 | 1 | 2 | 3 | 4 => @Machine.Step.moves _ _ _ .standard _ _ rfl
    | _ + 5 => .passes 0

/-- The finalizer is all that runs, and the run settles with the abort. -/
theorem late_effect_aborts : ∃ t, (lateChronicle.state t).execution = .settled (.error .aborted) := by
  have proper : (Signal.root 0).Issued firedStore := by
    refine ⟨Nat.le_refl 1, fun n hn => ?_⟩
    rw [List.mem_singleton.1 hn]
    exact Nat.zero_lt_one
  have cancelled : bareRunner.Cancelled lateEffect (.root 0) [] firedStore := by
    refine ⟨rfl, rfl, proper, fun g hg => ?_, fun _ ha => absurd ha List.not_mem_nil⟩
    rw [List.mem_singleton.1 hg]
    exact proper
  have abortable : lateEffect.node.Abortable := .ensuring (.source trivial)
  have steady : lateChronicle.Steady := by
    intro t
    rcases t with _ | _ | _ | _ | _ | t
    · trivial
    · exact ⟨fun _ _ => trivial, trivial⟩
    · exact ⟨fun _ _ => trivial, trivial⟩
    · exact ⟨fun _ _ => trivial, trivial⟩
    · exact ⟨fun _ _ => trivial, trivial⟩
    · trivial
  have fair : lateChronicle.Fair := by
    intro t policy moved hm
    rcases t with _ | _ | _ | _ | _ | t
    · exact ⟨0, Nat.le_refl 0, .standard, _, _, rfl, rfl⟩
    · exact ⟨1, Nat.le_refl 1, .standard, _, _, rfl, rfl⟩
    · exact ⟨2, Nat.le_refl 2, .standard, _, _, rfl, rfl⟩
    · exact ⟨3, Nat.le_refl 3, .standard, _, _, rfl, rfl⟩
    · exact ⟨4, Nat.le_refl 4, .standard, _, _, rfl, rfl⟩
    · cases hm
  have finalizers : lateChronicle.FinalizersSettle := by
    intro t α envf exit above hx
    rcases t with _ | _ | _ | _ | _ | t <;> rcases α with _ | ⟨_ | _, _ | ⟨_ | _, α⟩⟩ <;> cases hx
    · exact ⟨4, .ok ⟨.unit, ()⟩, by decide, rfl⟩
    · exact ⟨4, .ok ⟨.unit, ()⟩, by decide, rfl⟩
  have untimed : ∀ t, (lateChronicle.upTo t).InTime t := by
    rintro t u - ⟨α, env, deadline, after, child, above, before, -⟩
    rcases u with _ | _ | _ | _ | _ | u <;> rcases α with _ | ⟨_ | _, _ | ⟨_ | _, α⟩⟩ <;>
      cases before
  obtain ⟨-, -, settles, -⟩ := cancelled_run_aborts bareRunner lateEffect (.root 0) [] firedStore
    abortable cancelled
  exact settles lateChronicle rfl steady fair finalizers untimed

end Runner

end ScopedEffects
