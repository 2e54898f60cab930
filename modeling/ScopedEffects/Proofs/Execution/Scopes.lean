import ScopedEffects.Proofs.Execution.Contests
import ScopedEffects.Proofs.Execution.Heeding

/-! The scopes that an execution is made of. Whatever a step or a combinator lets run, it lets run
under its own signal or under the child that it has armed, and with the cap of the run; a finalizer's
effect has a signal of its own, and is a scope in its own right. When the time of a timeout is over
and when a contest is decided, the child has fired. So sources that are entered in a scope that is
cancelled find their signal fired, and do not start. -/

namespace ScopedEffects

variable {H : Host} {s s' : Store H}

/-- The signal that the effect above a frame runs under, where the frame itself runs under `own`. -/
def Frame.Leads (s : Store H) (own child : Signal) : Frame H → Prop
  | .timeout _ _ armed _ => child = armed ∧ armed.descendsFrom own = true
  | .draining .. => child.descendsFrom own = true ∧ s.isFired child = true
  | _ => child = own

/-- The signal that the branches of a combinator run under. -/
def Crew.Leads (s : Store H) (own child : Signal) : Crew H → Prop
  | .all .. => child = own
  | .any armed _ won =>
    child = armed ∧ armed.descendsFrom own = true ∧ (won.isSome → s.isFired armed = true)
  | .race armed won =>
    child = armed ∧ armed.descendsFrom own = true ∧ (won.isSome → s.isFired armed = true)

namespace Execution

/-- All that is under way runs with the cap, and outside finalizers under `g` or what descends from
it. -/
inductive Within (s : Store H) (cap : Option Nat) : Signal → Execution H → Prop
  | enter {g n env} (h : env.signal.descendsFrom g = true) (hc : env.concurrency = cap) :
      Within s cap g (.enter n env)
  | task {g guard t} : Within s cap g (.task guard t)
  | pause {g till env n policy attempt} (h : env.signal.descendsFrom g = true)
      (hc : env.concurrency = cap) : Within s cap g (.pause till env n policy attempt)
  | frame {g child env f above}
      (h : env.signal.descendsFrom g = true ∨ ∃ exit, f = .ensured exit)
      (hc : env.concurrency = cap) (leads : f.Leads s env.signal child)
      (ha : Within s cap child above) : Within s cap g (.frame env f above)
  | crew {g child env c round b} (h : env.signal.descendsFrom g = true)
      (hc : env.concurrency = cap) (leads : c.Leads s env.signal child)
      (hb : ∀ x, b.Has x → Within s cap child x) : Within s cap g (.crew env c round b)
  | settled {g exit} : Within s cap g (.settled exit)
  | unwound {g p} : Within s cap g (.unwound p)

variable {cap : Option Nat} {g child : Signal} {env : Env} {n : Node H} {e e' x : Execution H}
  {f : Frame H} {c : Crew H} {b : Branches H} {hop : Hop} {α : List Hop}
  {policy : Policy} {depth : Nat}

end Execution

/-! Signals that have fired stay fired -/

section signals

variable {own child : Signal} {env : Env}

theorem Frame.Leads.mono {f : Frame H} (h : f.Leads s own child) (hs : s.fired ⊆ s'.fired) :
    f.Leads s' own child := by
  cases f with
  | draining => exact ⟨h.1, Store.isFired_of_subset hs h.2⟩
  | _ => exact h

theorem Frame.Leads.descends {f : Frame H} (h : f.Leads s own child) :
    child.descendsFrom own = true := by
  cases f with
  | timeout => exact h.1 ▸ h.2
  | draining => exact h.1
  | _ => exact h ▸ Signal.descendsFrom_refl child

theorem Crew.Leads.mono {c : Crew H} (h : c.Leads s own child) (hs : s.fired ⊆ s'.fired) :
    c.Leads s' own child := by
  cases c with
  | all => exact h
  | any | race => exact ⟨h.1, h.2.1, fun won => Store.isFired_of_subset hs (h.2.2 won)⟩

theorem Crew.Leads.descends {c : Crew H} (h : c.Leads s own child) :
    child.descendsFrom own = true := by
  cases c with
  | all => exact h ▸ Signal.descendsFrom_refl child
  | any | race => exact h.1 ▸ h.2.1

/-- With its decision, a contest fires the signal of its branches. -/
theorem Crew.Leads.absorb {c : Crew H} (h : c.Leads s own child) (i : Nat) (exit : Exit H) :
    (c.absorb i exit s).1.Leads (c.absorb i exit s).2 own child := by
  cases c with
  | all => cases exit <;> exact h
  | any armed errors won =>
    cases won with
    | some => exact h
    | none =>
      cases exit with
      | ok => exact ⟨h.1, h.2.1, fun _ => Store.isFired_fire_self ..⟩
      | error => exact h
  | race armed won =>
    cases won with
    | some => exact h
    | none => exact ⟨h.1, h.2.1, fun _ => Store.isFired_fire_self ..⟩

theorem Crew.Leads.fired_of_decision {c : Crew H} (h : c.Leads s own child)
    (hd : c.decision.isSome = true) : s.isFired child = true := by
  cases c with
  | all => cases hd
  | any armed errors won =>
    rw [h.1]
    exact h.2.2 (by simpa [decision] using hd)
  | race armed won =>
    rw [h.1]
    exact h.2.2 hd

end signals

namespace Execution

variable {cap : Option Nat} {g child : Signal} {env : Env} {n : Node H} {e e' x : Execution H}
  {f : Frame H} {c : Crew H} {b : Branches H} {hop : Hop} {α : List Hop}
  {policy : Policy} {depth : Nat}

theorem Within.mono (h : e.Within s cap g) (hs : s.fired ⊆ s'.fired) : e.Within s' cap g := by
  induction h with
  | enter h hc => exact .enter h hc
  | task => exact .task
  | pause h hc => exact .pause h hc
  | frame h hc leads _ ih => exact .frame h hc (leads.mono hs) ih
  | crew h hc leads _ ih => exact .crew h hc (leads.mono hs) ih
  | settled => exact .settled
  | unwound => exact .unwound

/-! Entering nodes and going on with steps -/

theorem Within.source {x : Execution H × Store H} (h : x.1.Within s' cap g) :
    (source env s x).1.Within s' cap g := by
  rcases source_cases env s x with hs | hs
  · rw [hs]
    exact .settled
  · rwa [hs]

theorem Within.build {α : Type} {code : Code H α} {next : α → Execution H}
    (h : ∀ a, (next a).Within s' cap g) : (build s code next).1.Within s' cap g := by
  rcases build_cases s code next with ⟨p, hb⟩ | ⟨a, hb⟩
  · rw [hb]
    exact .settled
  · rw [hb]
    exact h a

theorem within_ofNodes (env : Env) (hc : env.concurrency = cap) (nodes : List (Node H)) (k : Nat)
    (hx : (Branches.ofNodes env k nodes).Has x) : x.Within s cap env.signal := by
  induction nodes generalizing k with
  | nil => exact hx.elim
  | cons n rest ih =>
    rcases hx with rfl | hx
    · exact .enter (Signal.descendsFrom_refl _) hc
    · exact ih (k + 1) hx

theorem within_start (h : env.signal.descendsFrom g = true) (hc : env.concurrency = cap)
    (s s' : Store H) (n : Node H) : (start env s n).1.Within s' cap g := by
  have inner : ∀ {f : Frame H} (m : Node H), f.Leads s' env.signal env.signal →
      (frame env f (enter m env)).Within s' cap g := fun m leads =>
    .frame (.inl h) hc leads (.enter (Signal.descendsFrom_refl _) hc)
  have armed := Signal.descendsFrom_child env.signal s.signals.next
  cases n with
  | sync => exact .source (.build fun _ => .settled)
  | program | cancellable => exact .source (.build fun _ => .task)
  | suspend => exact .source (.build fun _ => .enter h hc)
  | service => exact .source .task
  | all => exact .source (.crew h hc rfl fun _ hx => hx.elim)
  | any nodes | race nodes =>
    exact .source (.crew h hc ⟨rfl, armed, fun won => nomatch won⟩ fun x hx =>
      within_ofNodes { env with signal := _ } hc nodes 0 hx)
  | timeout =>
    exact .frame (.inl h) hc ⟨rfl, armed⟩ (.enter (Signal.descendsFrom_refl _) hc)
  | provide => exact .enter h hc
  | span => exact .frame (.inl h) hc rfl .task
  | map u | withService u | recover u | tap u | tapError u | ensuring u | retry u => exact inner u rfl

theorem within_concludeFinalizer (exit cleanup : Exit H) (s s' : Store H) :
    (concludeFinalizer exit cleanup s).1.Within s' cap g := by
  rw [concludeFinalizer_eq]
  exact .settled

theorem within_retryAfter (h : env.signal.descendsFrom g = true) (hc : env.concurrency = cap)
    (inner : Node H) (policy : RetryPolicy H) (attempt : Nat) (failure : Failure H)
    (s s' : Store H) : (retryAfter env inner policy attempt failure s).1.Within s' cap g := by
  have goes := retries env inner policy attempt failure s
  generalize retryAfter env inner policy attempt failure s = x at goes ⊢
  cases goes with
  | exhausted | declines => exact .settled
  | asking | drawing => exact .unwound
  | again => exact .frame (.inl h) hc rfl (.enter (Signal.descendsFrom_refl _) hc)
  | pauses => exact .pause h hc

variable [Tracing H]

theorem within_resume (h : env.signal.descendsFrom g = true ∨ ∃ exit, f = .ensured exit)
    (hc : env.concurrency = cap) (exit : Exit H) (s s' : Store H) :
    (f.resume env exit s).1.Within s' cap g := by
  rcases h with h | ⟨first, rfl⟩
  case inr => exact within_concludeFinalizer ..
  have inner : ∀ {f' : Frame H} (m : Node H), f'.Leads s' env.signal env.signal →
      (frame env f' (enter m env)).Within s' cap g := fun m leads =>
    .frame (.inl h) hc leads (.enter (Signal.descendsFrom_refl _) hc)
  cases f with
  | map code =>
    cases exit with
    | ok v =>
      refine .build fun next => ?_
      cases next with
      | value | fail => exact .settled
      | program => exact .task
      | effect => exact .enter h hc
    | error => exact .settled
  | withService t pair =>
    cases exit with
    | ok v =>
      unfold Frame.resume
      dsimp only
      split
      · exact .task
      · exact .settled
    | error => exact .settled
  | recover code =>
    cases exit with
    | ok => exact .settled
    | error failure =>
      unfold Frame.resume
      dsimp only
      split
      · exact .settled
      · refine .build fun next => ?_
        cases next with
        | none => exact .settled
        | some => exact .enter h hc
  | tap code =>
    cases exit with
    | ok v =>
      refine .build fun next => ?_
      cases next with
      | ok m => exact inner m rfl
      | error => exact .settled
    | error => exact .settled
  | tapError code =>
    cases exit with
    | ok => exact .settled
    | error failure => exact .build fun m => inner m rfl
  | tapped | tapErrored => cases exit <;> exact .settled
  | ensuring code =>
    unfold Frame.resume
    dsimp only
    split
    · exact .frame (.inr ⟨exit, rfl⟩) hc rfl (.enter (Signal.descendsFrom_refl _) hc)
    · exact within_concludeFinalizer ..
  | ensured => exact within_concludeFinalizer ..
  | timeout => exact .settled
  | draining after fallback =>
    cases fallback with
    | none => exact .settled
    | some => exact .enter h hc
  | retry u policy attempt =>
    cases exit with
    | ok => exact .settled
    | error failure => exact within_retryAfter h hc u policy attempt failure s s'
  | acquire =>
    unfold Frame.resume
    dsimp only
    split
    · exact .frame (.inl h) hc rfl .task
    · exact .settled
  | entered u =>
    cases exit with
    | ok => exact inner u rfl
    | error => exact .settled
  | body => exact .task

/-! Moves -/

omit [Tracing H] in
theorem within_moveTask {guard : Guard} {t : Task H}
    (hm : moveTask policy depth s guard t = some (e', s')) : e'.Within s' cap g := by
  cases moveTask_moves hm with
  | settles | catches | aborts => exact .settled
  | unwinds => exact .unwound
  | steps => exact .task

omit [Tracing H] in
theorem within_moveCrew {round : Round} (h : env.signal.descendsFrom g = true)
    (hc : env.concurrency = cap) (leads : c.Leads s env.signal child)
    (hb : ∀ x, b.Has x → x.Within s cap child)
    (hm : moveCrew s env c round b = some (e', s')) : e'.Within s' cap g := by
  have kept := (works_moveCrew hm).fired
  cases moveCrew_housekept hm with
  | panics => exact .settled
  | @absorbs i exit =>
    exact .crew h hc (leads.absorb i exit) fun x hx => (hb x (Branches.has_of_erase hx)).mono kept
  | admits _ _ hn =>
    obtain ⟨own, collect, pending, values, rfl, rfl⟩ := Crew.next?_some hn
    -- only `all` admits branches, and it runs them under its own signal
    have own_signal : child = env.signal := leads
    subst own_signal
    refine .crew h hc rfl fun x hx => ?_
    rcases Branches.has_of_push hx with rfl | hx
    · exact .enter (Signal.descendsFrom_refl _) hc
    · exact hb x hx
  | concludes => exact .settled

theorem Within.move (h : e.Within s cap g) (hm : e.move policy depth s = some (e', s')) :
    e'.Within s' cap g := by
  induction e generalizing policy depth e' s' g with
  | enter n env =>
    cases h with
    | enter h hc =>
      rw [Execution.move] at hm
      have started := within_start h hc s s' n
      rw [Option.some.inj hm] at started
      exact started
  | task guard t =>
    rw [Execution.move] at hm
    exact within_moveTask hm
  | pause till env n p attempt =>
    cases h with
    | pause h hc =>
      rw [Execution.move] at hm
      split at hm
      · cases hm
        exact .settled
      · split at hm
        · cases hm
          exact .frame (.inl h) hc rfl (.enter (Signal.descendsFrom_refl _) hc)
        · cases hm
  | frame env f above ih =>
    have kept := (works_move hm).fired
    cases h with
    | frame h hc leads ha =>
      cases move_frame hm with
      | @resumes exit => exact within_resume h hc exit s _
      | passes => exact .unwound
      | moves _ moved => exact .frame h hc (leads.mono kept) (ih ha moved)
      | expires _ timeout =>
        subst timeout
        -- the signal that was armed for the effect above is the one that fires
        obtain ⟨rfl, armed⟩ := leads
        have plain := h.resolve_right fun ensured => by
          obtain ⟨exit, other⟩ := ensured
          cases other
        exact .frame (.inl plain) hc ⟨armed, Store.isFired_fire_self ..⟩ (ha.mono kept)
  | crew env c round b ih =>
    have kept := (works_move hm).fired
    cases h with
    | crew h hc leads hb =>
      rcases move_crew_cases hm with house | ⟨-, i, x, x', line, _, found, hx, rfl⟩
      · exact within_moveCrew h hc leads hb house
      · refine .crew h hc (leads.mono kept) fun y hy => ?_
        rcases Branches.has_of_set hy with rfl | hy
        · exact ih i x found (hb x (Branches.has_of_find? found)) hx
        · exact (hb y hy).mono kept
  | settled => rw [Execution.move] at hm; cases hm
  | unwound => rw [Execution.move] at hm; cases hm

/-! Down an execution -/

omit [Tracing H] in
theorem Within.part? (h : e.Within s cap g) (hx : e.part? hop = some x) :
    ∃ child, x.Within s cap child := by
  cases h with
  | frame _ _ _ ha =>
    cases hop with
    | above => exact ⟨_, Option.some.inj hx ▸ ha⟩
    | branch => cases hx
  | crew _ _ _ hb =>
    cases hop with
    | above => cases hx
    | branch i => exact ⟨_, hb x (Branches.has_of_find? hx)⟩
  | _ => cases hx

omit [Tracing H] in
theorem Within.at? (h : e.Within s cap g) (hx : e.at? α = some x) :
    ∃ child, x.Within s cap child :=
  at?_of_part? (P := fun x => ∃ child, x.Within s cap child) (fun ⟨_, within⟩ => within.part?)
    ⟨g, h⟩ hx

omit [Tracing H] in
theorem Within.outerPart? (h : e.Within s cap g) (hx : e.outerPart? hop = some x) :
    ∃ child, child.descendsFrom g = true ∧ x.Within s cap child := by
  have part := part?_of_outerPart? hx
  cases h with
  | @frame _ child env f above h hc leads ha =>
    cases hop with
    | branch => cases part
    | above =>
      cases part
      have plain := h.resolve_right fun ensured => by
        obtain ⟨exit, rfl⟩ := ensured
        cases hx
      exact ⟨child, Signal.descendsFrom_trans leads.descends plain, ha⟩
  | @crew _ child env c round b h hc leads hb =>
    cases hop with
    | above => cases part
    | branch i =>
      exact ⟨child, Signal.descendsFrom_trans leads.descends h, hb x (Branches.has_of_find? part)⟩
  | _ => cases part

omit [Tracing H] in
/-- Outside finalizers, signals descend from one another all the way. -/
theorem Within.outer? (h : e.Within s cap g) (hx : e.outer? α = some x) :
    ∃ child, child.descendsFrom g = true ∧ x.Within s cap child := by
  induction α generalizing e g with
  | nil => exact ⟨g, Signal.descendsFrom_refl g, Option.some.inj hx ▸ h⟩
  | cons hop α ih =>
    obtain ⟨y, part, hy⟩ := Option.bind_eq_some_iff.1 hx
    obtain ⟨child, descends, hc⟩ := h.outerPart? part
    obtain ⟨last, below, hl⟩ := ih hc hy
    exact ⟨last, Signal.descendsFrom_trans below descends, hl⟩

/-! Scopes that are cancelled -/

/-- The time of the timeout is over, or the contest has been decided. -/
inductive Cancelled : Execution H → Prop
  | expired {env after fallback above} :
      Cancelled (.frame env (.draining after fallback) above)
  | decided {env c round b} (h : c.decision.isSome = true) : Cancelled (.crew env c round b)

omit [Tracing H] in
theorem Within.fired_below (h : e.Within s cap g) (hc : e.Cancelled)
    (hx : e.outerPart? hop = some x) : ∃ child, s.isFired child = true ∧ x.Within s cap child := by
  have part := part?_of_outerPart? hx
  cases hc with
  | expired =>
    cases hop with
    | branch => cases part
    | above =>
      cases h with
      | frame _ _ leads ha => exact ⟨_, leads.2, Option.some.inj part ▸ ha⟩
  | decided decided =>
    cases hop with
    | above => cases part
    | branch i =>
      cases h with
      | crew _ _ leads hb =>
        exact ⟨_, leads.fired_of_decision decided, hb x (Branches.has_of_find? part)⟩

omit [Tracing H] in
/-- What is about to be entered in a scope that is cancelled finds its signal fired. -/
theorem Within.fired (h : e.Within s cap g)
    (cancelled : e.Cancelled ∨ s.isFired g = true) (hx : e.outer? α = some (.enter n env)) :
    s.isFired env.signal = true := by
  have entered {y : Execution H} {child : Signal} {β : List Hop} (hy : y.Within s cap child)
      (fired : s.isFired child = true) (hx : y.outer? β = some (.enter n env)) :
      s.isFired env.signal = true := by
    obtain ⟨last, descends, hl⟩ := hy.outer? hx
    cases hl with
    | enter own =>
      exact Store.isFired_of_descends (Signal.descendsFrom_trans own descends) fired
  rcases cancelled with cancelled | fired
  · cases α with
    | nil =>
      cases Option.some.inj hx
      cases cancelled
    | cons hop α =>
      obtain ⟨y, part, hy⟩ := Option.bind_eq_some_iff.1 hx
      obtain ⟨child, fired, hc⟩ := h.fired_below cancelled part
      exact entered hc fired hy
  · exact entered h fired hx

/-- A scope that is cancelled stays so until the step has ended, or has a fallback to go on with. -/
theorem Cancelled.move (h : e.Cancelled) (hm : e.move policy depth s = some (e', s')) :
    e'.Cancelled ∨ e'.ended = true ∨
      ∃ env after n exit, e = .frame env (.draining after (some n)) (.settled exit) ∧
        e' = .enter n env := by
  cases h with
  | @expired env after fallback above =>
    cases move_frame hm with
    | @resumes exit settled =>
      subst settled
      right
      cases fallback with
      | none => exact .inl rfl
      | some n => exact .inr ⟨env, after, n, exit, rfl, rfl⟩
    | passes => exact .inr (.inl rfl)
    | moves => exact .inl .expired
    | expires _ timeout => cases timeout
  | @decided env c round b decided =>
    obtain ⟨k, contest⟩ : ∃ k, c.contest? = some k := by
      cases c with
      | all => cases decided
      | any | race => exact ⟨_, rfl⟩
    rcases move_crew_cases hm with house | ⟨-, i, x, x', line, -, -, -, rfl⟩
    · cases moveCrew_housekept house with
      | panics | concludes => exact .inr (.inl rfl)
      | absorbs =>
        refine .inl (.decided ?_)
        rw [Crew.decision_absorb contest, Option.isSome_or, decided, Bool.true_or]
      | admits _ _ next =>
        rw [Crew.next?_of_contest contest] at next
        cases next
    · exact .inl (.decided decided)

omit [Tracing H] in
theorem ended_of_has (hb : b.Has x) (hx : x.ended = true) :
    b.panic?.isSome = true ∨ b.exit?.isSome = true := by
  induction b with
  | nil => exact hb.elim
  | cons i y rest ih =>
    rw [Branches.panic?, Branches.exit?, Option.isSome_or, Option.isSome_or, Option.isSome_map,
      Bool.or_eq_true, Bool.or_eq_true]
    rcases hb with rfl | hb
    · cases x with
      | settled => exact .inr (.inl rfl)
      | unwound => exact .inl (.inl rfl)
      | _ => cases hx
    · exact (ih hb).imp .inr .inr

/-- As long as a branch has ended that its combinator has not taken in, no branch moves. -/
theorem branches_of_move {round : Round} (hb : b.Has x) (hx : x.ended = true)
    (hm : (crew env c round b).move policy depth s = some (e', s')) :
    e'.ended = true ∨
      ∃ c' line b', e' = crew env c' line b' ∧ ∀ y, b'.Has y → b.Has y := by
  have ended := ended_of_has hb hx
  rcases move_crew_cases hm with house | ⟨idle, -⟩
  · cases moveCrew_housekept house with
    | panics | concludes => exact .inl rfl
    | absorbs => exact .inr ⟨_, _, _, rfl, fun y hy => Branches.has_of_erase hy⟩
    | admits calm unsettled =>
      rw [calm, unsettled] at ended
      rcases ended with h | h <;> cases h
  · have idle := moveCrew_none_iff.1 idle
    rw [idle.calm, idle.unsettled] at ended
    rcases ended with h | h <;> cases h

end Execution

namespace Story

variable [Tracing H] {r : Story H} {node : Node H} {env : Env} {t : Nat}

theorem within (begins : (r.state 0).execution = .enter node env) (ht : t ≤ r.last) :
    (r.state t).execution.Within (r.state t).store env.concurrency env.signal := by
  induction t with
  | zero =>
    rw [begins]
    exact .enter (Signal.descendsFrom_refl _) rfl
  | succ t ih =>
    have before := ih (Nat.le_of_succ_le ht)
    have step := r.step t ht
    have kept := step.fired
    generalize r.state (t + 1) = m at step kept ⊢
    cases step with
    | moves hm => exact before.move hm
    | rings | passes => exact before.mono kept

/-- Nothing starts in a scope that is cancelled. The scopes are the whole run once its signal has
fired, what a timeout waits for once its time is over, and the branches of a contest once that is
decided. A source that is entered there, at whatever depth but outside the effects of finalizers,
comes to the abort and changes nothing, whenever it moves. A scope stays cancelled until it has ended,
or a timeout goes on with its fallback; and between the end of a branch and the decision that it
brings no branch moves. -/
theorem nothing_starts_when_cancelled (r : Story H) (node : Node H) (env : Env)
    (begins : (r.state 0).execution = .enter node env) :
    (∀ t α β x n envn, t ≤ r.last → r.part? α t = some x →
      x.Cancelled ∨ α = [] ∧ (r.state t).store.isFired env.signal = true →
      x.outer? β = some (.enter n envn) → n.IsSource → ∀ u, t ≤ u → u ≤ r.last →
      ∀ policy depth, (Execution.enter n envn).move policy depth (r.state u).store =
        some (.settled (.error .aborted), (r.state u).store)) ∧
    (∀ t u, t ≤ u → u ≤ r.last → (r.state t).store.isFired env.signal = true →
      (r.state u).store.isFired env.signal = true) ∧
    (∀ t α x policy depth x' s, r.part? α t = some x → x.Cancelled →
      x.move policy depth (r.state t).store = some (x', s) →
      x'.Cancelled ∨ x'.ended = true ∨
        ∃ envf after n exit, x = .frame envf (.draining after (some n)) (.settled exit) ∧
          x' = .enter n envf) ∧
    (∀ t α envf deadline after child fallback above policy depth x' s,
      r.part? α t = some (.frame envf (.timeout deadline after child fallback) above) →
      (Execution.frame envf (.timeout deadline after child fallback) above).move policy depth
        (r.state t).store = some (x', s) →
      (∃ above', x' = .frame envf (.timeout deadline after child fallback) above') ∨
        x'.ended = true ∨ x'.Cancelled) ∧
    ∀ t α envc c round b y policy depth x' s,
      r.part? α t = some (.crew envc c round b) → b.Has y → y.ended = true →
      (Execution.crew envc c round b).move policy depth (r.state t).store = some (x', s) →
      x'.ended = true ∨
        ∃ c' line b', x' = .crew envc c' line b' ∧ ∀ z, b'.Has z → b.Has z := by
  refine ⟨?_, ?_, ?_, ?_, ?_⟩
  · intro t α β x n envn ht hx cancelled entering source u htu hu policy depth
    have whole := within begins ht
    obtain ⟨g, hg, fires⟩ : ∃ g, x.Within (r.state t).store env.concurrency g ∧
        (x.Cancelled ∨ (r.state t).store.isFired g = true) := by
      rcases cancelled with cancelled | ⟨rfl, fired⟩
      · obtain ⟨g, hg⟩ := whole.at? hx
        exact ⟨g, hg, .inl cancelled⟩
      · cases hx
        exact ⟨env.signal, whole, .inr fired⟩
    have fired := isFired_of_before htu hu (hg.fired fires entering)
    rw [Execution.move, Execution.start_of_isSource source fired]
  · intro t u htu hu fired
    exact isFired_of_before htu hu fired
  · intro t α x policy depth x' s _ cancelled moved
    exact cancelled.move moved
  · intro t α envf deadline after child fallback above policy depth x' s _ moved
    cases Execution.move_frame moved with
    | resumes | passes => exact .inr (.inl rfl)
    | moves => exact .inl ⟨_, rfl⟩
    | expires _ timeout =>
      cases timeout
      exact .inr (.inr .expired)
  · intro t α envc c round b y policy depth x' s _ hb ended moved
    exact Execution.branches_of_move hb ended moved

/-- The loser of a race that has been decided is entered, and does not start. -/
theorem loser_does_not_start :
    racingStory.part? [.branch 1] 3 = some (.enter failing racingEnv) ∧
    (Execution.enter failing racingEnv).move .standard 0 racedStore =
      some (.settled (.error .aborted), racedStore) := by
  obtain ⟨aborts, -⟩ := nothing_starts_when_cancelled racingStory racing guardedEnv rfl
  refine ⟨rfl, ?_⟩
  exact aborts 3 [] [.branch 1] _ failing racingEnv (by decide) rfl (.inl (.decided rfl)) rfl trivial
    3 (Nat.le_refl 3) (by decide) .standard 0

end Story

end ScopedEffects
