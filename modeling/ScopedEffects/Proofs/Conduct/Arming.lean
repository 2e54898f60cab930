import ScopedEffects.Proofs.Conduct.Runs
import ScopedEffects.Proofs.Execution.Operations

/-! Parts that are yet to fire a signal. Each has a signal of its own, made when the part began, and
nothing fires that signal before the part is decided, unless user code does. -/

namespace ScopedEffects

variable {H : Host} {s s' : Store H} {n : Nat}

/-- The own number of the signal comes before `n`. -/
def Signal.Predates (g : Signal) (n : Nat) : Prop := ∃ m, g.lineage.head? = some m ∧ m < n

theorem Signal.Issued.predates {g : Signal} (h : g.Issued s) : g.Predates s.signals.next := by
  obtain ⟨proper, known⟩ := h
  obtain ⟨m, rest, hg⟩ := List.exists_cons_of_length_pos proper
  refine ⟨m, ?_, known m ?_⟩ <;> rw [hg]
  · rfl
  · exact List.mem_cons_self

theorem Signal.Predates.mono {g : Signal} (h : g.Predates n) {n' : Nat} (hn : n ≤ n') :
    g.Predates n' := by
  obtain ⟨m, head, less⟩ := h
  exact ⟨m, head, Nat.lt_of_lt_of_le less hn⟩

/-- The signal has the number that was the next one. -/
def Signal.Newest (g : Signal) (s : Store H) : Prop := g.lineage.head? = some s.signals.next

theorem Signal.Newest.not_predates {g : Signal} (h : g.Newest s) (hn : n ≤ s.signals.next) :
    ¬ g.Predates n := by
  rintro ⟨m, head, less⟩
  cases h.symm.trans head
  omega

namespace Store

theorem Operation.supply (h : s.Operation s') : s.signals.next ≤ s'.signals.next := by
  cases h with
  | number n => exact Nat.le_add_right _ n
  | draw p =>
    unfold Store.draw
    split <;> exact Nat.le_refl _
  | layer c p => exact (grows_layer (K := fun _ => True) s c p).supply
  | perform code => rw [signals_perform]
  | fire g => rw [signals_fire]
  | step h => rw [Task.signals_step h]
  | finish ws => rw [signals_finishWaits]
  | record => exact Nat.le_refl _

theorem Works.supply (h : s.Works s') : s.signals.next ≤ s'.signals.next := by
  induction h with
  | refl => exact Nat.le_refl _
  | tail _ op ih => exact ih.trans op.supply

end Store

namespace Execution

variable {e e' x y : Execution H} {env : Env} {c : Signal} {α β : List Hop}

/-- The part at the address is yet to fire the signal. -/
def ArmedAt (e : Execution H) (c : Signal) (α : List Hop) : Prop :=
  ∃ x, e.at? α = some x ∧ x.arms = some c

theorem armedAt_below {hop : Hop} (part : e.part? hop = some y) :
    e.ArmedAt c (hop :: α) ↔ y.ArmedAt c α := by
  unfold ArmedAt
  rw [at?, part]
  exact Iff.rfl

theorem part?_of_armedAt {hop : Hop} (h : e.ArmedAt c (hop :: α)) :
    ∃ y, e.part? hop = some y ∧ y.ArmedAt c α := by
  obtain ⟨x, hx, armed⟩ := h
  obtain ⟨y, part, hy⟩ := Option.bind_eq_some_iff.1 hx
  exact ⟨y, part, x, hy, armed⟩

theorem arms_of_armedAt_nil (h : e.ArmedAt c []) : e.arms = some c := by
  obtain ⟨x, hx, armed⟩ := h
  cases hx
  exact armed

theorem DecidesAt.armedAt (h : DecidesAt e e' c α) : e.ArmedAt c α := by
  obtain ⟨x, x', hx, -, decision⟩ := h
  refine ⟨x, hx, ?_⟩
  cases decision <;> rfl

theorem DecidesAt.not_armedAt (h : DecidesAt e e' c α) : ¬ e'.ArmedAt c α := by
  obtain ⟨x, x', -, hx', decision⟩ := h
  rintro ⟨y, hy, armed⟩
  cases hx'.symm.trans hy
  cases decision <;> cases armed

/-- No part is yet to fire a signal. -/
def Unarmed (e : Execution H) : Prop := ∀ α c, ¬ e.ArmedAt c α

theorem unarmed_of_parts (own : e.arms = none) (parts : ∀ hop y, e.part? hop = some y → y.Unarmed) :
    e.Unarmed := by
  intro α c armed
  cases α with
  | nil =>
    rw [arms_of_armedAt_nil armed] at own
    cases own
  | cons hop α =>
    obtain ⟨y, part, below⟩ := part?_of_armedAt armed
    exact parts hop y part α c below

theorem unarmed_enter (n : Node H) (env : Env) : (enter n env).Unarmed :=
  unarmed_of_parts rfl fun hop _ part => by cases hop <;> cases part

theorem unarmed_task (guard : Guard) (t : Task H) : (task guard t).Unarmed :=
  unarmed_of_parts rfl fun hop _ part => by cases hop <;> cases part

theorem unarmed_settled (exit : Exit H) : (settled exit).Unarmed :=
  unarmed_of_parts rfl fun hop _ part => by cases hop <;> cases part

theorem unarmed_unwound (p : Panic) : (unwound p : Execution H).Unarmed :=
  unarmed_of_parts rfl fun hop _ part => by cases hop <;> cases part

theorem unarmed_pause (till : Clock) (env : Env) (n : Node H) (policy : RetryPolicy H) (k : Nat) :
    (pause till env n policy k).Unarmed :=
  unarmed_of_parts rfl fun hop _ part => by cases hop <;> cases part

theorem unarmed_frame {f : Frame H} {above : Execution H} (own : f.arms env = none)
    (h : above.Unarmed) : (frame env f above).Unarmed := by
  refine unarmed_of_parts own fun hop y part => ?_
  cases hop with
  | above =>
    cases part
    exact h
  | branch => cases part

/-! What arises in a move -/

/-- The execution has come out of the store `s`: it may be yet to fire a signal that is new. -/
def Arises (s s' : Store H) (e : Execution H) : Prop :=
  ∀ α c, e.ArmedAt c α → α = [] ∧ c.Newest s ∧ s.signals.next < s'.signals.next

theorem Unarmed.arises (h : e.Unarmed) : e.Arises s s' := fun α c armed => absurd armed (h α c)

theorem arises_of_parts (parts : ∀ hop y, e.part? hop = some y → y.Unarmed)
    (own : ∀ c, e.arms = some c → c.Newest s ∧ s.signals.next < s'.signals.next) :
    e.Arises s s' := by
  intro α c armed
  cases α with
  | nil => exact ⟨rfl, own c (arms_of_armedAt_nil armed)⟩
  | cons hop α =>
    obtain ⟨y, part, below⟩ := part?_of_armedAt armed
    exact absurd below (parts hop y part α c)

theorem arises_source {x : Execution H × Store H} (h : x.1.Arises s x.2) :
    (source env s x).1.Arises s (source env s x).2 := by
  unfold source
  split
  · exact (unarmed_settled _).arises
  · exact h

theorem unarmed_build {α : Type} (s : Store H) (code : Code H α) {next : α → Execution H}
    (h : ∀ a, (next a).Unarmed) : (build s code next).1.Unarmed := by
  unfold build
  split
  · exact h _
  · exact unarmed_settled _

theorem unarmed_ofNodes {nodes : List (Node H)} {k i : Nat}
    (found : (Branches.ofNodes env k nodes).find? i = some y) : y.Unarmed := by
  obtain ⟨n, -, rfl⟩ := Branches.find?_ofNodes found
  exact unarmed_enter n env

theorem arises_crew {crew : Crew H} {round : Round} {b : Branches H}
    (branches : ∀ i y, b.find? i = some y → y.Unarmed)
    (own : ∀ c, crew.arms = some c → c.Newest s ∧ s.signals.next < s'.signals.next) :
    (Execution.crew env crew round b).Arises s s' := by
  refine arises_of_parts (fun hop y part => ?_) own
  cases hop with
  | above => cases part
  | branch i => exact branches i y part

theorem arises_frame {f : Frame H} {above : Execution H} (h : above.Unarmed)
    (own : ∀ c, f.arms env = some c → c.Newest s ∧ s.signals.next < s'.signals.next) :
    (frame env f above).Arises s s' := by
  refine arises_of_parts (fun hop y part => ?_) own
  cases hop with
  | above =>
    cases part
    exact h
  | branch => cases part

theorem arises_start (env : Env) (s : Store H) (n : Node H) :
    (start env s n).1.Arises s (start env s n).2 := by
  have newest : ∀ {c : Signal}, some (env.signal.child s.signals.next) = some c → c.Newest s ∧
      s.signals.next < s.signals.next + 1 := fun same => by
    cases same
    exact ⟨rfl, Nat.lt_succ_self _⟩
  cases n with
  | sync => exact arises_source (unarmed_build s _ unarmed_settled).arises
  | program => exact arises_source (unarmed_build s _ fun _ => unarmed_task _ _).arises
  | cancellable => exact arises_source (unarmed_build s _ fun _ => unarmed_task _ _).arises
  | suspend => exact arises_source (unarmed_build s _ fun _ => unarmed_enter _ _).arises
  | service => exact arises_source (unarmed_task _ _).arises
  | all => exact arises_source (arises_crew nofun nofun)
  | any | race =>
    exact arises_source (arises_crew (fun _ _ found => unarmed_ofNodes found) fun _ => newest)
  | timeout => exact arises_frame (unarmed_enter _ _) fun _ => newest
  | provide => exact (unarmed_enter _ _).arises
  | span => exact arises_frame (unarmed_task _ _) nofun
  | _ => exact arises_frame (unarmed_enter _ _) nofun

theorem unarmed_next (n : Next H (Node H)) : (n.execution env).Unarmed := by
  cases n with
  | value | fail => exact unarmed_settled _
  | program => exact unarmed_task _ _
  | effect => exact unarmed_enter _ _

theorem unarmed_concludeFinalizer (exit cleanup : Exit H) (s : Store H) :
    (concludeFinalizer exit cleanup s).1.Unarmed := by
  unfold concludeFinalizer
  split <;> exact unarmed_settled _

theorem unarmed_retryAfter (env : Env) (inner : Node H) (policy : RetryPolicy H) (attempt : Nat)
    (f : Failure H) (s : Store H) : (retryAfter env inner policy attempt f s).1.Unarmed := by
  have goes := retries env inner policy attempt f s
  generalize retryAfter env inner policy attempt f s = x at goes ⊢
  cases goes with
  | exhausted | declines => exact unarmed_settled _
  | asking | drawing => exact unarmed_unwound _
  | again => exact unarmed_frame rfl (unarmed_enter _ _)
  | pauses => exact unarmed_pause _ _ _ _ _

variable [Tracing H]

theorem arises_resume (env : Env) (exit : Exit H) (s : Store H) (f : Frame H) :
    (f.resume env exit s).1.Arises s (f.resume env exit s).2 := by
  cases f with
  | map =>
    cases exit with
    | ok => exact (unarmed_build s _ fun _ => unarmed_next _).arises
    | error => exact (unarmed_settled _).arises
  | withService =>
    cases exit with
    | ok =>
      unfold Frame.resume
      dsimp only
      split
      · exact (unarmed_task _ _).arises
      · exact (unarmed_settled _).arises
    | error => exact (unarmed_settled _).arises
  | recover =>
    cases exit with
    | ok => exact (unarmed_settled _).arises
    | error =>
      unfold Frame.resume
      dsimp only
      split
      · exact (unarmed_settled _).arises
      · refine (unarmed_build s _ fun o => ?_).arises
        cases o with
        | some n => exact unarmed_enter n env
        | none => exact unarmed_settled _
  | tap =>
    cases exit with
    | ok =>
      refine (unarmed_build s _ fun a => ?_).arises
      cases a with
      | ok => exact unarmed_frame rfl (unarmed_enter _ _)
      | error => exact unarmed_settled _
    | error => exact (unarmed_settled _).arises
  | tapError =>
    cases exit with
    | ok => exact (unarmed_settled _).arises
    | error => exact (unarmed_build s _ fun _ => unarmed_frame rfl (unarmed_enter _ _)).arises
  | ensuring code =>
    unfold Frame.resume
    dsimp only
    split
    · rename_i n s₁ hp
      have kept : s₁.signals = s.newSignal.2.signals := by
        have performed := Store.signals_perform s.newSignal.2 code
        have hp : s.newSignal.2.perform code = _ := hp
        rwa [hp] at performed
      refine arises_frame (unarmed_enter _ _) fun c same => ?_
      cases same
      refine ⟨rfl, ?_⟩
      rw [kept]
      exact Nat.lt_succ_self _
    · exact (unarmed_concludeFinalizer _ _ _).arises
  | ensured => exact (unarmed_concludeFinalizer _ _ _).arises
  | retry =>
    cases exit with
    | ok => exact (unarmed_settled _).arises
    | error => exact (unarmed_retryAfter _ _ _ _ _ _).arises
  | draining _ fallback =>
    cases fallback with
    | none => exact (unarmed_settled _).arises
    | some => exact (unarmed_enter _ _).arises
  | acquire =>
    unfold Frame.resume
    dsimp only
    split
    · exact (unarmed_frame rfl (unarmed_task _ _)).arises
    · exact (unarmed_settled _).arises
  | entered =>
    cases exit with
    | ok => exact (unarmed_frame rfl (unarmed_enter _ _)).arises
    | error => exact (unarmed_settled _).arises
  | tapped | tapErrored => cases exit <;> exact (unarmed_settled _).arises
  | timeout => exact (unarmed_settled _).arises
  | body => exact (unarmed_task _ _).arises

/-! Moves -/

/-- Besides what was yet to fire a signal in `e`, at most one part of `e'` is. Its signal is new. -/
def Rearms (s : Store H) (e : Execution H) (s' : Store H) (e' : Execution H) : Prop :=
  ∃ β, ∀ α c, e'.ArmedAt c α →
    e.ArmedAt c α ∨ α = β ∧ c.Newest s ∧ s.signals.next < s'.signals.next

omit [Tracing H] in
theorem Arises.rearms (h : e'.Arises s s') : Rearms s e s' e' :=
  ⟨[], fun α c armed => .inr (h α c armed)⟩

omit [Tracing H] in
theorem Unarmed.rearms (h : e'.Unarmed) : Rearms s e s' e' := Arises.rearms h.arises

omit [Tracing H] in
theorem rearms_of_kept (own : ∀ c, e'.arms = some c → e.arms = some c)
    (parts : ∀ hop y, e'.part? hop = some y → e.part? hop = some y ∨ y.Unarmed) :
    Rearms s e s' e' := by
  refine ⟨[], fun α c armed => .inl ?_⟩
  cases α with
  | nil => exact ⟨e, rfl, own c (arms_of_armedAt_nil armed)⟩
  | cons hop α =>
    obtain ⟨y, part, below⟩ := part?_of_armedAt armed
    rcases parts hop y part with old | unarmed
    · exact (armedAt_below old).2 below
    · exact absurd below (unarmed α c)

omit [Tracing H] in
theorem Rearms.below (h : Rearms s x s' y) (hop : Hop) (before : e.part? hop = some x)
    (after : e'.part? hop = some y) (own : e'.arms = e.arms)
    (others : ∀ hop', hop' ≠ hop → e'.part? hop' = e.part? hop') : Rearms s e s' e' := by
  obtain ⟨β, rearms⟩ := h
  refine ⟨hop :: β, fun α c armed => ?_⟩
  cases α with
  | nil => exact .inl ⟨e, rfl, own ▸ arms_of_armedAt_nil armed⟩
  | cons hop' α =>
    obtain ⟨z, part, below⟩ := part?_of_armedAt armed
    by_cases same : hop' = hop
    · subst same
      cases after.symm.trans part
      refine (rearms α c below).imp (armedAt_below before).2 fun ⟨here, new⟩ => ?_
      exact ⟨congrArg _ here, new⟩
    · rw [others hop' same] at part
      exact .inl ((armedAt_below part).2 below)

omit [Tracing H] in
theorem arms_absorb {crew : Crew H} {i : Nat} {exit : Exit H} {c : Signal}
    (h : (crew.absorb i exit s).1.arms = some c) : crew.arms = some c := by
  cases crew with
  | all => cases exit <;> cases h
  | any child errors won =>
    cases won with
    | some => cases h
    | none =>
      cases exit with
      | ok => cases h
      | error => exact h
  | race child won => cases won <;> cases h

omit [Tracing H] in
theorem rearms_moveTask {policy : Policy} {depth : Nat} {guard : Guard} {t : Task H}
    (hm : moveTask policy depth s guard t = some (e', s')) : Rearms s e s' e' := by
  refine Unarmed.rearms ?_
  cases moveTask_moves hm with
  | settles | catches | aborts => exact unarmed_settled _
  | unwinds => exact unarmed_unwound _
  | steps => exact unarmed_task _ _

theorem Follows.rearms {R : Rules H} {b : Nat} {V : Value H → Prop} {g : Signal} {policy : Policy}
    {depth : Nat} (h : e.Follows R b s V g) (hm : e.move policy depth s = some (e', s')) :
    Rearms s e s' e' := by
  induction h generalizing policy depth e' s' with
  | @enter V g n env =>
    rw [Execution.move] at hm
    have arises := arises_start env s n
    rw [Option.some.inj hm] at arises
    exact arises.rearms
  | @task _ _ guard t =>
    have hm : moveTask policy depth s guard t = some (e', s') := hm
    exact rearms_moveTask hm
  | pause =>
    rw [Execution.move] at hm
    split at hm
    · cases hm
      exact (unarmed_settled _).rearms
    · split at hm <;> cases hm
      exact (unarmed_frame rfl (unarmed_enter _ _)).rearms
  | @frame U V g c env f above hf opens ha ih =>
    cases move_frame hm with
    | @resumes exit => exact (arises_resume env exit s f).rearms
    | passes => exact (unarmed_unwound _).rearms
    | moves _ moved =>
      refine (ih moved).below .above rfl rfl rfl fun hop other => ?_
      cases hop with
      | above => exact absurd rfl other
      | branch => rfl
    | expires =>
      refine rearms_of_kept (fun c armed => by cases armed) fun hop y part => .inl ?_
      cases hop with
      | above => exact part
      | branch => cases part
  | @crew U V g c env round crew br own distinct hc opens hb ih =>
    cases move_crew distinct hm with
    | keeps hk =>
      cases hk with
      | panics | concludes => exact (unarmed_settled _).rearms
      | @absorbs i exit =>
        refine rearms_of_kept (fun c armed => arms_absorb armed) fun hop y part => .inl ?_
        cases hop with
        | above => cases part
        | branch j => exact (Branches.find?_of_erase distinct part).2
      | @admits i n rest line next =>
        obtain ⟨cap, collect, pending, values, rfl, rfl⟩ := Crew.next?_some next
        obtain ⟨-, sound, -⟩ := hc
        obtain ⟨new, -⟩ := sound_next? sound next
        refine rearms_of_kept (fun c armed => by cases armed) fun hop y part => ?_
        cases hop with
        | above => cases part
        | branch j =>
          rcases Branches.find?_of_push new part with rfl | old
          · exact .inr (unarmed_enter n env)
          · exact .inl old
    | @moves i f f' b' line policy' depth' s₁ idle same others found found' moved =>
      refine (ih i f found moved).below (.branch i) found found' rfl fun hop other => ?_
      cases hop with
      | above => rfl
      | branch j => exact others j fun here => other (congrArg _ here)
  | settled => rw [Execution.move] at hm; cases hm
  | unwound => rw [Execution.move] at hm; cases hm

/-! Runs -/

/-- Since the supply of signals stood at `n`, each part that is yet to fire a signal has got one of
its own, and none of these has fired. -/
structure Arming (n : Nat) (s : Store H) (e : Execution H) : Prop where
  supply : n ≤ s.signals.next
  fired : ∀ f ∈ s.fired, f.Predates s.signals.next
  issued : ∀ α c, e.ArmedAt c α → c.Predates s.signals.next
  later : ∀ α c, e.ArmedAt c α → ¬ c.Predates n
  apart : ∀ α β c, e.ArmedAt c α → e.ArmedAt c β → α = β
  unfired : ∀ α c, e.ArmedAt c α → c ∉ s.fired

omit [Tracing H] in
theorem Unarmed.arming (h : e.Unarmed) (fired : ∀ f ∈ s.fired, f.Predates s.signals.next) :
    e.Arming s.signals.next s :=
  ⟨Nat.le_refl _, fired, fun α c armed => absurd armed (h α c),
    fun α c armed => absurd armed (h α c), fun α _ c armed => absurd armed (h α c),
    fun α c armed => absurd armed (h α c)⟩

omit [Tracing H] in
theorem Arming.intact (h : e.Arming n s) : e.Intact s := fun α x c hx armed =>
  h.unfired α c ⟨x, hx, armed⟩

omit [Tracing H] in
theorem Arming.waits (h : e.Arming n s) (waits : s.Waits s')
    (rung : ∀ f ∈ s'.fired, f ∈ s.fired ∨ f.Predates n) : e.Arming n s' := by
  have same := waits.signals
  refine ⟨same ▸ h.supply, fun f hf => ?_, fun α c armed => same ▸ h.issued α c armed, h.later,
    h.apart, fun α c armed hc => ?_⟩
  · rw [same]
    exact (rung f hf).elim (h.fired f) fun old => old.mono h.supply
  · exact (rung c hc).elim (h.unfired α c armed) (h.later α c armed)

theorem Arming.move {R : Rules H} {b : Nat} {V : Value H → Prop} {g : Signal} {policy : Policy}
    {depth : Nat} (h : e.Arming n s) (follows : e.Follows R b s V g) (hs : s.Follows R b)
    (fires : ∀ f, R.fires f → f.Predates n) (hm : e.move policy depth s = some (e', s')) :
    e'.Arming n s' := by
  have supply := (works_move hm).supply
  obtain ⟨-, advances⟩ := follows.move hs (.inr h.intact) hm
  obtain ⟨β, rearms⟩ := follows.rearms hm
  refine ⟨h.supply.trans supply, fun f hf => ?_, fun α c armed => ?_, fun α c armed => ?_, ?_, ?_⟩
  · rcases advances.fired f hf with old | user | ⟨α, decides⟩
    · exact (h.fired f old).mono supply
    · exact (fires f user).mono (h.supply.trans supply)
    · exact (h.issued α f decides.armedAt).mono supply
  · rcases rearms α c armed with old | ⟨-, newest, more⟩
    · exact (h.issued α c old).mono supply
    · exact ⟨_, newest, more⟩
  · rcases rearms α c armed with old | ⟨-, newest, -⟩
    · exact h.later α c old
    · exact newest.not_predates h.supply
  · intro α α' c armed armed'
    rcases rearms α c armed with old | ⟨here, newest, -⟩
    · rcases rearms α' c armed' with old' | ⟨-, newest, -⟩
      · exact h.apart α α' c old old'
      · exact absurd (h.issued α c old) (newest.not_predates (Nat.le_refl _))
    · rcases rearms α' c armed' with old' | ⟨here', -⟩
      · exact absurd (h.issued α' c old') (newest.not_predates (Nat.le_refl _))
      · rw [here, here']
  · intro α c armed hc
    rcases rearms α c armed with old | ⟨-, newest, -⟩
    · rcases advances.fired c hc with fired | user | ⟨α', decides⟩
      · exact h.unfired α c old fired
      · exact h.later α c old (fires c user)
      · -- what fires it is decided at its own address, and is no longer yet to fire it
        rw [h.apart α α' c old decides.armedAt] at armed
        exact decides.not_armedAt armed
    · -- what is new has a number that nothing known bears
      have unknown : ∀ {k}, k ≤ s.signals.next → ¬ c.Predates k := newest.not_predates
      rcases advances.fired c hc with fired | user | ⟨α', decides⟩
      · exact unknown (Nat.le_refl _) (h.fired c fired)
      · exact unknown h.supply (fires c user)
      · exact unknown (Nat.le_refl _) (h.issued α' c decides.armedAt)

end Execution

end ScopedEffects
