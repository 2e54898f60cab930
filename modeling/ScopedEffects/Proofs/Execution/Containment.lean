import ScopedEffects.Proofs.Execution.Panics

/-! Work stays within the node that started it. What has begun under an execution is under way until
it has settled; the execution goes on, to its exit, to a fallback or to another attempt, only after
that. An exit stays where it is until the step or the combinator that waits for it takes it over, and
nothing is under it meanwhile. A retry whose delay cannot be drawn is the exception: the panic makes
the next combinator drop its other branches. -/

namespace ScopedEffects

variable {H : Host}

namespace Execution

theorem at?_append (e : Execution H) (α β : List Hop) :
    e.at? (α ++ β) = (e.at? α).bind (at? · β) := by
  induction α generalizing e with
  | nil => rfl
  | cons hop α ih =>
    show (e.part? hop).bind (at? · (α ++ β)) = ((e.part? hop).bind (at? · α)).bind _
    rw [Option.bind_assoc]
    exact congrArg _ (funext ih)

theorem part?_ended {e : Execution H} (h : e.ended = true) (hop : Hop) : e.part? hop = none := by
  cases e <;> cases h <;> cases hop <;> rfl

theorem under_way_of_part? {e x : Execution H} {hop : Hop} (h : e.part? hop = some x) :
    e.ended = false := by
  cases he : e.ended with
  | false => rfl
  | true =>
    rw [part?_ended he] at h
    cases h

variable [Tracing H]

/-- What waits for a part under it takes over the exit with which that part has settled. -/
inductive Takes (s : Store H) (exit : Exit H) :
    Execution H → Hop → Execution H → Store H → Prop
  | step {env f} : Takes s exit (.frame env f (.settled exit)) .above
      (f.resume env exit s).1 (f.resume env exit s).2
  | combinator {env c round line b i} (h : b.find? i = some (.settled exit)) :
      Takes s exit (.crew env c round b) (.branch i)
        (.crew env (c.absorb i exit s).1 line (b.erase i)) (c.absorb i exit s).2

variable {policy : Policy} {depth : Nat} {s s' : Store H} {p p' : Execution H} {exit : Exit H}
  {hop : Hop}

/-- A move of what waits for a settled part leaves that part alone, or takes over its exit. -/
theorem takes_of_move (sound : p.Sound) (hx : p.part? hop = some (.settled exit))
    (hm : p.move policy depth s = some (p', s')) :
    p'.part? hop = some (.settled exit) ∨ p.Takes s exit hop p' s' := by
  cases p with
  | frame env f above =>
    cases hop with
    | branch => cases hx
    | above =>
      cases hx
      cases move_frame hm with
      | resumes settled =>
        cases settled
        exact .inr .step
      | passes unwound => cases unwound
      | moves running | expires running => cases running
  | crew env c round b =>
    cases hop with
    | above => cases hx
    | branch i =>
      have found : b.find? i = some (.settled exit) := hx
      obtain ⟨-, crew, distinct, branches⟩ := sound
      cases move_crew distinct hm with
      | keeps hk =>
        cases hk with
        | panics unwound => exact (branches.find? unwound).elim
        | @absorbs j other line settled =>
          by_cases hij : i = j
          · subst hij
            rw [found] at settled
            cases settled
            exact .inr (.combinator found)
          · exact .inl ((Branches.find?_erase_ne hij b).trans found)
        | @admits j n rest line next =>
          have new := (sound_next? crew next).1
          have hij : i ≠ j := by
            rintro rfl
            exact new (Branches.mem_indices_iff.2 ⟨_, found⟩)
          exact .inl ((Branches.find?_push_ne hij b _).trans found)
        | concludes _ none_left =>
          have inside := Branches.mem_indices_iff.2 ⟨_, found⟩
          rw [none_left] at inside
          cases inside
      | @moves j f f' b' line policy' depth' s₁ idle same others moving moved hf =>
        have hij : i ≠ j := by
          rintro rfl
          rw [found] at moving
          cases moving
          rw [move] at hf
          cases hf
        exact .inl ((others i hij).trans found)
  | _ => cases hx

/-- A combinator that finds a panic among its branches settles with it, whatever the others are
doing. -/
theorem drops_of_unwound {env : Env} {c : Crew H} {round : Round} {b : Branches H} {i : Nat}
    {q : Panic} (h : b.find? i = some (.unwound q)) (policy : Policy) (depth : Nat) (s : Store H) :
    ∃ q', (crew env c round b).move policy depth s = some (ofPanic q', b.drop s) := by
  have some_panic : ∃ q', b.panic? = some q' := by
    induction b with
    | nil => cases h
    | cons j f rest ih =>
      rw [Branches.panic?]
      rcases Branches.find?_cons h with ⟨-, same⟩ | later
      · subst same
        exact ⟨q, rfl⟩
      · obtain ⟨q', found⟩ := ih later
        rw [found]
        cases f.panic? with
        | none => exact ⟨q', rfl⟩
        | some q₁ => exact ⟨q₁, rfl⟩
  obtain ⟨q', found⟩ := some_panic
  refine ⟨q', ?_⟩
  rw [move]
  simp only [moveCrew, found]

end Execution

namespace Story

variable [Tracing H] {r : Story H} {node : Node H} {env : Env} {α : List Hop} {t u v z : Nat}
  {x : Execution H} {exit : Exit H}

/-- From `t` on the part at the address is under way, until it has settled at `v`. -/
structure Settles (r : Story H) (α : List Hop) (t v : Nat) (exit : Exit H) : Prop where
  after : t < v
  settled : r.part? α v = some (.settled exit)
  under_way : ∀ u, t ≤ u → u < v → ∃ x, r.part? α u = some x ∧ x.ended = false

/-- What is under way stays so until it has settled. -/
theorem Launched.stays_until_settled (h : r.Launched node env) (steady : r.Steady)
    (hx : r.part? α t = some x) (hn : x.ended = false) (htz : t ≤ z) (hz : z ≤ r.last) :
    (∀ u, t ≤ u → u ≤ z → ∃ y, r.part? α u = some y ∧ y.ended = false) ∨
      ∃ v exit, v ≤ z ∧ r.Settles α t v exit := by
  induction htz with
  | refl =>
    refine .inl fun u htu hut => ?_
    rw [Nat.le_antisymm hut htu]
    exact ⟨x, hx, hn⟩
  | @step z htz ih =>
    rcases ih (Nat.le_of_succ_le hz) with under_way | ⟨v, exit, hv, settles⟩
    · obtain ⟨y, hy, running⟩ := under_way z htz (Nat.le_refl z)
      have next : ∃ y', r.part? α (z + 1) = some y' := by
        rcases h.follow steady hz hy running with same | ⟨-, -, y', -, moved⟩
        · exact ⟨y, same⟩
        · exact ⟨y', moved⟩
      obtain ⟨y', later⟩ := next
      cases hy' : y'.ended with
      | false =>
        refine .inl fun u htu huz => ?_
        rcases Nat.lt_or_ge z u with hzu | huz'
        · rw [Nat.le_antisymm huz hzu]
          exact ⟨y', later, hy'⟩
        · exact under_way u htu huz'
      | true =>
        cases y' with
        | settled exit =>
          refine .inr ⟨z + 1, exit, Nat.le_refl _, Nat.lt_succ_of_le htz, later, fun u htu huz => ?_⟩
          exact under_way u htu (Nat.le_of_lt_succ huz)
        | unwound p => exact absurd later (h.not_unwound steady hz p)
        | _ => cases hy'
    · exact .inr ⟨v, exit, hv.trans (Nat.le_succ z), settles⟩

/-- What has begun under an execution has settled before nothing is left there. -/
theorem Launched.settled_before (h : r.Launched node env) (steady : r.Steady) {hop : Hop}
    {β : List Hop} {y : Execution H} (htz : t ≤ z) (hz : z ≤ r.last)
    (hx : r.part? (α ++ hop :: β) t = some x) (hn : x.ended = false)
    (hy : r.part? α z = some y) (alone : y.part? hop = none) :
    ∃ v exit, v < z ∧ r.Settles (α ++ hop :: β) t v exit := by
  have gone : r.part? (α ++ hop :: β) z = none := by
    unfold part? at hy ⊢
    rw [Execution.at?_append, hy]
    show (y.part? hop).bind _ = none
    rw [alone]
    rfl
  rcases h.stays_until_settled steady hx hn htz hz with under_way | ⟨v, exit, hv, settles⟩
  · obtain ⟨y', later, -⟩ := under_way z htz (Nat.le_refl z)
    rw [gone] at later
    cases later
  · have before : v ≠ z := by
      rintro rfl
      have settled := settles.settled
      rw [gone] at settled
      cases settled
    exact ⟨v, exit, Nat.lt_of_le_of_ne hv before, settles⟩

/-- A step waits for what is above it. The end of its time changes that in nothing. -/
theorem Launched.frame_waits (h : r.Launched node env) (steady : r.Steady) (ht : t < r.last)
    {envf : Env} {f : Frame H} {above : Execution H}
    (hx : r.part? α t = some (.frame envf f above)) (hn : above.ended = false) :
    ∃ f' above', r.part? α (t + 1) = some (.frame envf f' above') ∧
      (f' = f ∨ ∃ deadline after child fallback, f = .timeout deadline after child fallback ∧
        f' = .draining after fallback ∧ above' = above) := by
  rcases h.follow steady ht hx rfl with same | ⟨policy, depth, x', moved, later⟩
  · exact ⟨f, above, same, .inl rfl⟩
  · generalize (r.state (t + 1)).store = s at moved
    cases Execution.move_frame moved with
    | resumes settled =>
      subst settled
      cases hn
    | passes unwound =>
      subst unwound
      cases hn
    | @moves _ _ above' => exact ⟨f, above', later, .inl rfl⟩
    | @expires deadline after child fallback _ _ _ timeout =>
      refine ⟨.draining after fallback, above, later, .inr ?_⟩
      exact ⟨deadline, after, child, fallback, timeout, rfl, rfl⟩

/-- The part that waits for an exit takes it over at this step. -/
def Taken (r : Story H) (α : List Hop) (exit : Exit H) (t : Nat) : Prop :=
  ∃ β hop x x', α = β ++ [hop] ∧ r.part? β t = some x ∧ r.part? β (t + 1) = some x' ∧
    x.Takes (r.state t).store exit hop x' (r.state (t + 1)).store

theorem Launched.settled_step (h : r.Launched node env) (steady : r.Steady) (ht : t < r.last)
    (hx : r.part? α t = some (.settled exit)) :
    r.part? α (t + 1) = some (.settled exit) ∨ r.Taken α exit t := by
  rcases List.eq_nil_or_concat α with rfl | ⟨β, hop, rfl⟩
  · have whole : (r.state t).execution = .settled exit := Option.some.inj hx
    have step := r.step t ht
    unfold part?
    generalize r.state (t + 1) = m at step
    cases step with
    | moves hm =>
      rw [whole, Execution.move] at hm
      cases hm
    | rings | passes => exact .inl hx
  · rw [List.concat_eq_append] at hx ⊢
    unfold part? at hx
    rw [Execution.at?_snoc] at hx
    obtain ⟨p, hp, part⟩ := Option.bind_eq_some_iff.1 hx
    have running := Execution.under_way_of_part? part
    have stays : ∀ p', r.part? β (t + 1) = some p' → p'.part? hop = some (.settled exit) →
        r.part? (β ++ [hop]) (t + 1) = some (.settled exit) := by
      intro p' there here
      unfold part? at there ⊢
      rw [Execution.at?_snoc, there]
      exact here
    rcases h.follow steady ht hp running with same | ⟨policy, depth, p', moved, later⟩
    · exact .inl (stays p same part)
    · have sound := (h.sound steady ht.le).at? hp
      rcases Execution.takes_of_move sound part moved with here | takes
      · exact .inl (stays p' later here)
      · exact .inr ⟨β, hop, p, p', rfl, hp, later, takes⟩

/-- An exit stays where it is until it is taken over. -/
theorem Launched.settled_until_taken (h : r.Launched node env) (steady : r.Steady) (hzu : z ≤ u)
    (hu : u ≤ r.last) (hx : r.part? α z = some (.settled exit)) :
    r.part? α u = some (.settled exit) ∨ ∃ v, z ≤ v ∧ v < u ∧ r.Taken α exit v := by
  induction hzu with
  | refl => exact .inl hx
  | @step u hzu ih =>
    rcases ih (Nat.le_of_succ_le hu) with same | ⟨v, hzv, hvu, taken⟩
    · rcases h.settled_step steady hu same with same | taken
      · exact .inl same
      · exact .inr ⟨u, hzu, Nat.lt_succ_self u, taken⟩
    · exact .inr ⟨v, hzv, Nat.lt_succ_of_lt hvu, taken⟩

/-- Whatever begins under an execution, in a run in which no retry and no tracer panics, is under way
until it has settled, and that is before the execution settles, starts a fallback or goes on in any
other way without it. Once the execution has settled nothing is under it, until what waits for its
exit takes that over. A delay that cannot be drawn breaks this: its panic makes the next combinator
settle, and drop the branches that are under way. -/
theorem nothing_outlives_its_node (r : Story H) (node : Node H) (env : Env)
    (launched : r.Launched node env) (steady : r.Steady) :
    (∀ α hop β t z x y, t ≤ z → z ≤ r.last → r.part? (α ++ hop :: β) t = some x →
      x.ended = false → r.part? α z = some y → y.part? hop = none →
      ∃ v exit, v < z ∧ r.Settles (α ++ hop :: β) t v exit) ∧
    (∀ α t envf f above, t < r.last → r.part? α t = some (.frame envf f above) →
      above.ended = false → ∃ f' above', r.part? α (t + 1) = some (.frame envf f' above') ∧
        (f' = f ∨ ∃ deadline after child fallback, f = .timeout deadline after child fallback ∧
          f' = .draining after fallback ∧ above' = above)) ∧
    (∀ α z u exit, z ≤ u → u ≤ r.last → r.part? α z = some (.settled exit) →
      (∀ β x, r.part? (α ++ β) u = some x → β = [] ∧ x = .settled exit) ∨
        ∃ v, z ≤ v ∧ v < u ∧ r.Taken α exit v) ∧
    ∀ (envf envc : Env) inner (policy : RetryPolicy H) attempt f s s₁ p sched depth,
      attempt < policy.times → s.perform (policy.accepts f) = (.ok true, s₁) →
      policy.nextDelay (attempt + 1) (s₁.draw policy).1 = .error p → ∃ s₂,
        (Execution.frame envf (.retry inner policy attempt) (.settled (.error f))).move
          sched depth s = some (.unwound p, s₂) ∧
        ∀ c round (b : Branches H) i, b.find? i = some (.unwound p) →
          ∃ q, (Execution.crew envc c round b).move sched depth s₂ =
            some (.settled (.error (.ofPanic q)), b.drop s₂) := by
  refine ⟨?_, ?_, ?_, ?_⟩
  · intro α hop β t z x y htz hz hx hn hy alone
    exact launched.settled_before steady htz hz hx hn hy alone
  · intro α t envf f above ht hx hn
    exact launched.frame_waits steady ht hx hn
  · intro α z u exit hzu hu hx
    refine (launched.settled_until_taken steady hzu hu hx).imp_left fun settled β x hβ => ?_
    unfold part? at settled hβ
    rw [Execution.at?_append, settled] at hβ
    have whole : (Execution.settled exit).at? β = some x := hβ
    cases β with
    | nil => exact ⟨rfl, (Option.some.inj whole).symm⟩
    | cons => cases whole
  · intro envf envc inner policy attempt f s s₁ p sched depth more asked spread
    refine ⟨_, Execution.unwinds_iff.2 (.delay more asked spread), fun c round b i found => ?_⟩
    exact Execution.drops_of_unwound found sched depth _

/-! A race whose loser is waited for -/

def racing : Node Host.counting := .race [cleaning, failing]

def racingEnv : Env := { guardedEnv with signal := guardedEnv.signal.child 1 }

def firstPast : Exit Host.counting := .ok ⟨.unit, ()⟩

/-- The store after the race has been decided. -/
def racedStore : Store Host.counting := (guardedStore 2).fire racingEnv.signal

def racingStory : Story Host.counting where
  state
    | 0 => ⟨guardedStore 1, .enter racing guardedEnv, []⟩
    | 1 => ⟨guardedStore 2, .crew guardedEnv (.race racingEnv.signal none) { queue := [0, 1] }
        (.cons 0 (.enter cleaning racingEnv) (.cons 1 (.enter failing racingEnv) .nil)), []⟩
    | 2 => ⟨guardedStore 2, .crew guardedEnv (.race racingEnv.signal none)
        { asked := [0], queue := [1] }
        (.cons 0 (.settled firstPast) (.cons 1 (.enter failing racingEnv) .nil)), []⟩
    | 3 => ⟨racedStore, .crew guardedEnv (.race racingEnv.signal (some firstPast)) { queue := [1] }
        (.cons 1 (.enter failing racingEnv) .nil), []⟩
    | 4 => ⟨racedStore, .crew guardedEnv (.race racingEnv.signal (some firstPast)) { asked := [1] }
        (.cons 1 (.settled (.error .aborted)) .nil), []⟩
    | 5 => ⟨racedStore, .crew guardedEnv (.race racingEnv.signal (some firstPast)) {} .nil, []⟩
    | _ => ⟨racedStore, .settled firstPast, []⟩
  last := 6
  step
    | 0, _ | 1, _ | 2, _ | 3, _ | 4, _ | 5, _ => @Machine.Step.moves _ _ _ .standard _ _ rfl
    | t + 6, h => absurd h (by omega)

/-- The loser begins with the race and has settled before the race settles. A combinator over a retry
that cannot draw its delay settles at once. -/
theorem race_waits_for_loser :
    (∃ v exit, v < 6 ∧ racingStory.Settles [.branch 1] 1 v exit) ∧
    ∃ s₂, (Execution.frame guardedEnv (.retry failing endless 1)
        (.settled (.error (.ofKey "late")))).move .standard 0 (guardedStore 1) =
          some (.unwound unbounded, s₂) ∧
      ∃ q s₃, (Execution.crew guardedEnv (.race racingEnv.signal none) {}
          (.cons 0 (.unwound unbounded) (.cons 1 (.enter failing racingEnv) .nil))).move
            .standard 0 s₂ = some (.settled (.error (.ofPanic q)), s₃) := by
  have issued : guardedEnv.signal.Issued (guardedStore 1) := by
    refine ⟨Nat.le_refl 1, fun n hn => ?_⟩
    rw [List.mem_singleton.1 hn]
    exact Nat.zero_lt_one
  have launched : racingStory.Launched racing guardedEnv :=
    ⟨rfl, issued, fun _ hg => absurd hg List.not_mem_nil, fun _ ha => absurd ha List.not_mem_nil⟩
  have steady : racingStory.Steady := by
    intro t ht
    rcases t with _ | _ | _ | _ | _ | _ | t
    · trivial
    · exact ⟨trivial, trivial, trivial⟩
    · exact ⟨trivial, trivial, trivial⟩
    · exact ⟨trivial, trivial⟩
    · exact ⟨trivial, trivial⟩
    · trivial
    · exact absurd ht (by show ¬ t + 6 < 6; omega)
  obtain ⟨within, -, -, drops⟩ :=
    nothing_outlives_its_node racingStory racing guardedEnv launched steady
  have spread : endless.nextDelay 2 (.zero false) = .error unbounded := by decide +kernel
  refine ⟨?_, ?_⟩
  · exact within [] (.branch 1) [] 1 6 (.enter failing racingEnv) (.settled firstPast) (by decide)
      (Nat.le_refl 6) rfl rfl rfl rfl
  · obtain ⟨s₂, unwinds, settles⟩ := drops guardedEnv guardedEnv failing endless 1 (.ofKey "late")
      (guardedStore 1) (guardedStore 1) _ .standard 0 (by decide) rfl spread
    obtain ⟨q, settled⟩ := settles (.race racingEnv.signal none) {}
      (.cons 0 (.unwound unbounded) (.cons 1 (.enter failing racingEnv) .nil)) 0 rfl
    exact ⟨s₂, unwinds, q, _, settled⟩

end Story

end ScopedEffects
