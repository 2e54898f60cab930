import ScopedEffects.Proofs.Conduct.Arming

/-! Cancellation is isolated. Where user code fails with no abort of its own, aborts appear only in
branches that have lost a race or an `any` or whose time is over. A signal made for branches is seen
nowhere else, and nothing that a cancelled branch leaves behind is an abort. -/

namespace ScopedEffects

variable {H : Host} {R : Rules H} {b : Nat} {s : Store H} {V : Value H → Prop} {g : Signal}

/-- User code fails with no abort, whatever it has seen, and fires only signals of its own. -/
def Rules.abortless (made : Key → AnyInstance H → Prop) (state : H.State → Prop)
    (fires : Signal → Prop) : Rules H where
  failure f := ∀ reason, f ≠ .abort reason
  made := made
  state := state
  fires := fires
  unbound _ := nofun
  circular _ := nofun

/-- The address leads into what the part at `γ` waits for. -/
def Inside (γ α : List Hop) : Prop := ∃ hop, γ ++ [hop] <+: α

theorem inside_nil (hop : Hop) (α : List Hop) : Inside [] (hop :: α) := by
  refine ⟨hop, ?_⟩
  rw [List.nil_append, List.cons_prefix_cons]
  exact ⟨rfl, List.nil_prefix⟩

theorem Inside.cons {γ α : List Hop} (h : Inside γ α) (hop : Hop) :
    Inside (hop :: γ) (hop :: α) := by
  obtain ⟨last, below⟩ := h
  refine ⟨last, ?_⟩
  rw [List.cons_append, List.cons_prefix_cons]
  exact ⟨rfl, below⟩

theorem Inside.of_snoc {γ α : List Hop} {hop : Hop} (h : Inside γ (α ++ [hop])) :
    γ = α ∨ Inside γ α := by
  obtain ⟨last, below⟩ := h
  rcases List.prefix_concat_iff.1 below with same | below
  · exact .inl (List.append_inj_left' same rfl)
  · exact .inr ⟨last, below⟩

namespace Execution

variable {e x y : Execution H} {α : List Hop}

/-- The signal that the part looks at. The finalizer of a step sees a signal of its own. -/
def sees : Execution H → Option Signal
  | enter _ env | pause _ env .. | crew env .. => some env.signal
  | frame _ (.ensured _) _ => none
  | frame env _ _ => some env.signal
  | task (.signal g) _ => some g
  | _ => none

/-- The part runs what it waits for under a signal made for that. -/
inductive Separates : Execution H → Prop
  | timeout {env deadline after child fallback above} :
      Separates (.frame env (.timeout deadline after child fallback) above)
  | draining {env after fallback above} : Separates (.frame env (.draining after fallback) above)
  | ensured {env exit above} : Separates (.frame env (.ensured exit) above)
  | any {env child errors won round br} : Separates (.crew env (.any child errors won) round br)
  | race {env child won round br} : Separates (.crew env (.race child won) round br)

/-- What is still under way in the part has lost, or its time is over. -/
inductive Lost : Execution H → Prop
  | timeout {env after fallback above} : Lost (.frame env (.draining after fallback) above)
  | any {env child errors v round br} : Lost (.crew env (.any child errors (some v)) round br)
  | race {env child exit round br} : Lost (.crew env (.race child (some exit)) round br)

/-- The address is in a branch that has lost, or whose time is over. -/
def LostAt (e : Execution H) (α : List Hop) : Prop :=
  ∃ γ y, Inside γ α ∧ e.at? γ = some y ∧ y.Lost

/-- The address is in what some part runs under a signal made for that. -/
def SeparateAt (e : Execution H) (α : List Hop) : Prop :=
  ∃ γ y, Inside γ α ∧ e.at? γ = some y ∧ y.Separates

theorem at?_cons {hop : Hop} (part : e.part? hop = some y) (γ : List Hop) :
    e.at? (hop :: γ) = y.at? γ := by
  rw [at?, part]
  rfl

theorem LostAt.cons {hop : Hop} (h : y.LostAt α) (part : e.part? hop = some y) :
    e.LostAt (hop :: α) := by
  obtain ⟨γ, z, inside, hz, lost⟩ := h
  exact ⟨hop :: γ, z, inside.cons hop, (at?_cons part γ).trans hz, lost⟩

/-- A step that waits for what has lost is a timeout whose time is over, or has lost too. -/
theorem LostAt.waiting {env : Env} {f : Frame H} {above : Execution H}
    (h : e.LostAt (α ++ [.above])) (hx : e.at? α = some (.frame env f above)) :
    (∃ after fallback, f = .draining after fallback) ∨ e.LostAt α := by
  obtain ⟨γ, y, inside, hy, lost⟩ := h
  rcases inside.of_snoc with rfl | inside
  · cases hy.symm.trans hx
    cases lost
    exact .inl ⟨_, _, rfl⟩
  · exact .inr ⟨γ, y, inside, hy, lost⟩

theorem SeparateAt.cons {hop : Hop} (h : y.SeparateAt α) (part : e.part? hop = some y) :
    e.SeparateAt (hop :: α) := by
  obtain ⟨γ, z, inside, hz, separates⟩ := h
  exact ⟨hop :: γ, z, inside.cons hop, (at?_cons part γ).trans hz, separates⟩

variable [Tracing H]

/-- What a part waits for runs under the part's own signal, or under one made for it: that of a part
that is yet to fire it, or one that has fired. -/
theorem Follows.hop {hop : Hop} (h : e.Follows R b s V g) (part : e.part? hop = some y) :
    ∃ U c, y.Follows R b s U c ∧ (c = g ∨ e.Separates) ∧ ∀ f, c.descendsFrom f = true →
      g.descendsFrom f = true ∨ e.arms = some f ∨ s.isFired f = true ∧ e.Lost := by
  cases h with
  | @frame U _ _ c env f above hf opens ha =>
    cases hop with
    | branch => cases part
    | above =>
      cases part
      refine ⟨U, c, ha, ?_⟩
      cases f with
      | timeout =>
        obtain ⟨-, rfl, ⟨n, rfl⟩, -⟩ := hf
        refine ⟨.inr .timeout, fun f descends => ?_⟩
        rcases Signal.descendsFrom_child_iff.1 descends with rfl | descends
        · exact .inr (.inl rfl)
        · exact .inl descends
      | draining =>
        obtain ⟨-, ⟨n, rfl⟩, fired, -⟩ := hf
        refine ⟨.inr .draining, fun f descends => ?_⟩
        rcases Signal.descendsFrom_child_iff.1 descends with rfl | descends
        · exact .inr (.inr ⟨fired, .timeout⟩)
        · exact .inl descends
      | ensured =>
        obtain ⟨own, ⟨n, rfl⟩, -⟩ := hf
        refine ⟨.inr .ensured, fun f descends => ?_⟩
        rcases Signal.descendsFrom_root descends with rfl | descends
        · exact .inr (.inl (congrArg some own.symm))
        · exact .inl (descends g)
      | _ =>
        have same : c = g := hf.2.1
        exact ⟨.inl same, fun f descends => .inl (same ▸ descends)⟩
  | @crew U _ _ c env round crew br own distinct hc opens hb =>
    cases hop with
    | above => cases part
    | branch i =>
      refine ⟨U, c, hb i y part, ?_⟩
      cases crew with
      | all =>
        have same : c = g := hc.1
        exact ⟨.inl same, fun f descends => .inl (same ▸ descends)⟩
      | any child errors won =>
        obtain ⟨rfl, ⟨n, rfl⟩, -, -, -, hwon⟩ := hc
        refine ⟨.inr .any, fun f descends => ?_⟩
        rcases Signal.descendsFrom_child_iff.1 descends with rfl | descends
        · cases won with
          | none => exact .inr (.inl rfl)
          | some v => exact .inr (.inr ⟨(hwon v rfl).2, .any⟩)
        · exact .inl descends
      | race child won =>
        obtain ⟨rfl, ⟨n, rfl⟩, -, -, hwon⟩ := hc
        refine ⟨.inr .race, fun f descends => ?_⟩
        rcases Signal.descendsFrom_child_iff.1 descends with rfl | descends
        · cases won with
          | none => exact .inr (.inl rfl)
          | some exit => exact .inr (.inr ⟨(hwon exit rfl).2, .race⟩)
        · exact .inl descends
  | _ => cases hop <;> cases part

/-- The signal that a part runs under descends from that of the whole and from those of the parts
around it. -/
theorem Follows.along (h : e.Follows R b s V g) (hx : e.at? α = some x) :
    ∃ U c, x.Follows R b s U c ∧ (c = g ∨ e.SeparateAt α) ∧ ∀ f, c.descendsFrom f = true →
      g.descendsFrom f = true ∨ (∃ γ, Inside γ α ∧ e.ArmedAt f γ) ∨
        s.isFired f = true ∧ e.LostAt α := by
  -- from the outside inwards: each hop adds at most one signal to those that are descended from
  induction α generalizing e V g with
  | nil =>
    cases hx
    exact ⟨V, g, h, .inl rfl, fun f descends => .inl descends⟩
  | cons hop α ih =>
    obtain ⟨y, part, hy⟩ := Option.bind_eq_some_iff.1 hx
    obtain ⟨U, c, follows, own, ancestors⟩ := h.hop part
    obtain ⟨W, d, below, own', ancestors'⟩ := ih follows hy
    have here := inside_nil hop α
    refine ⟨W, d, below, ?_, fun f descends => ?_⟩
    · rcases own' with rfl | separate
      · refine own.imp_right fun separates => ?_
        exact ⟨[], e, here, rfl, separates⟩
      · exact .inr (separate.cons part)
    · rcases ancestors' f descends with descends | ⟨γ, inside, armed⟩ | ⟨fired, lost⟩
      · rcases ancestors f descends with descends | armed | ⟨fired, lost⟩
        · exact .inl descends
        · exact .inr (.inl ⟨[], here, e, rfl, armed⟩)
        · exact .inr (.inr ⟨fired, [], e, here, rfl, lost⟩)
      · exact .inr (.inl ⟨hop :: γ, inside.cons hop, (armedAt_below part).2 armed⟩)
      · exact .inr (.inr ⟨fired, lost.cons part⟩)

theorem Follows.sees_eq {k : Signal} (h : x.Follows R b s V g) (hk : x.sees = some k) : k = g := by
  cases h with
  | enter own | pause own | crew own =>
    cases hk
    exact own
  | @task _ _ guard t own =>
    cases guard with
    | signal =>
      cases hk
      exact own _ rfl
    | _ => cases hk
  | @frame U _ _ c env f above hf =>
    cases f with
    | ensured => cases hk
    | _ =>
      cases hk
      exact hf.1
  | settled | unwound => cases hk

theorem Follows.lost_of_abort (h : e.Follows R b s V g) (intact : e.Intact s)
    (unfired : s.isFired g = false) {reason : String} (abortless : ¬ R.failure (.abort reason))
    (hx : e.at? α = some (.settled (.error (.abort reason)))) : e.LostAt α := by
  obtain ⟨U, c, follows, -, ancestors⟩ := h.along hx
  cases follows with
  | settled permitted =>
    rcases permitted with failure | ⟨fired, -⟩
    · exact absurd failure abortless
    · obtain ⟨f, hf, descends⟩ := List.any_eq_true.1 fired
      rcases ancestors f descends with descends | ⟨γ, -, y, hy, armed⟩ | ⟨-, lost⟩
      · rw [Store.isFired, List.any_eq_false] at unfired
        exact absurd descends (unfired f hf)
      · exact absurd hf (intact γ y f hy armed)
      · exact lost

end Execution

open Execution (DecidesAt)

/-- While the signal of the whole has not fired, what a part looks at fires only because something
around it is decided. -/
theorem Machine.Step.decides_around [Tracing H] {m m' : Machine H} {n : Nat} {α : List Hop}
    {x : Execution H} {k : Signal} (step : m.Step m') (h : m.Follows R b V g)
    (arming : m.execution.Arming n m.store) (fires : ∀ f, R.fires f → f.Predates n)
    (alarms : ∀ a ∈ m.alarms, a.signal.Predates n) (unfired : m'.store.isFired g = false)
    (hx : m.execution.at? α = some x) (hk : x.sees = some k) (before : m.store.isFired k = false)
    (after : m'.store.isFired k = true) :
    ∃ γ f, Inside γ α ∧ k.descendsFrom f = true ∧ DecidesAt m.execution m'.execution f γ := by
  obtain ⟨-, advances⟩ := step.follows h (.inr arming.intact)
  obtain ⟨U, c, follows, -, ancestors⟩ := h.execution.along hx
  cases follows.sees_eq hk
  obtain ⟨f, hf, descends⟩ := List.any_eq_true.1 after
  have new : ∀ {f}, k.descendsFrom f = true → m.store.isFired f ≠ true := fun descends fired => by
    rw [Store.isFired_of_descends descends fired] at before
    cases before
  have armed : ∃ γ, Inside γ α ∧ m.execution.ArmedAt f γ := by
    rcases ancestors f descends with descends | armed | ⟨fired, -⟩
    · rw [Store.isFired, List.any_eq_false] at unfired
      exact absurd descends (unfired f hf)
    · exact armed
    · exact absurd fired (new descends)
  obtain ⟨γ, inside, armed⟩ := armed
  rcases advances.fired f hf with old | user | ⟨a, ha, rfl⟩ | ⟨β, decides⟩
  · exact absurd old (arming.unfired γ f armed)
  · exact absurd (fires f user) (arming.later γ f armed)
  · exact absurd (alarms a ha) (arming.later γ _ armed)
  · rw [← arming.apart γ β f armed decides.armedAt] at decides
    exact ⟨γ, f, inside, descends, decides⟩

namespace Story

variable [Tracing H] {r : Story H} {n t : Nat}

theorem fired_later {u : Nat} (htu : t ≤ u) (hu : u ≤ r.last) :
    (r.state t).store.fired ⊆ (r.state u).store.fired := by
  induction htu with
  | refl => exact List.Subset.refl _
  | @step u _ ih =>
    refine List.Subset.trans (ih (Nat.le_of_succ_le hu)) ?_
    rcases (r.step u hu).moves_or_waits with ⟨policy, moved⟩ | ⟨-, waits, -⟩
    · exact (Execution.works_move moved).fired
    · exact waits.kept

/-- Everything under way keeps to the rules in the whole of a story that begins so, and no signal
fires that a part is yet to fire. -/
theorem follows_of_first (first : (r.state 0).Follows R b V g)
    (arming : (r.state 0).execution.Arming n (r.state 0).store)
    (fires : ∀ f, R.fires f → f.Predates n)
    (alarms : ∀ a ∈ (r.state 0).alarms, a.signal.Predates n) (ht : t ≤ r.last) :
    (r.state t).Follows R b V g ∧ (r.state t).execution.Arming n (r.state t).store := by
  induction t with
  | zero => exact ⟨first, arming⟩
  | succ t ih =>
    obtain ⟨follows, arming⟩ := ih (Nat.le_of_succ_le ht)
    have step := r.step t ht
    refine ⟨(step.follows follows (.inr arming.intact)).1, ?_⟩
    rcases step.moves_or_waits with ⟨policy, moved⟩ | ⟨same, waits, rung⟩
    · exact arming.move follows.execution follows.store fires moved
    · rw [same]
      refine arming.waits waits fun f hf => (rung f hf).imp_right ?_
      rintro ⟨a, ha, rfl⟩
      exact alarms a (alarms_of_later (Nat.le_of_succ_le ht) ha)

end Story

namespace Runner

variable [Tracing H] {a : Shape H.Plain}

theorem follows_withDeadline {runner : Runner H} {e : Effect H a}
    {made : Key → AnyInstance H → Prop} {state : H.State → Prop} {fires : Signal → Prop}
    (h : e.node.Follows (.abortless made state fires) V) :
    (runner.withDeadline e).node.Follows (.abortless made state fires) V := by
  unfold withDeadline
  split
  · exact .timeout h (fun _ => nofun) nofun
  · exact h

omit [Tracing H] in
theorem abort_of_taken {exit : Exit H} {reason : String}
    (h : exit.bind (Value.take a) = .error (.abort reason)) : exit = .error (.abort reason) := by
  cases exit with
  | error f => exact congrArg _ (Except.error.inj h)
  | ok v =>
    have taken : v.take a = .error (.abort reason) := h
    unfold Value.take at taken
    split at taken <;> cases taken

/-- A run answers with an abort only if its execution has settled with it. -/
theorem settled_of_run_aborted {runner : Runner H} {e : Effect H a} {signal : Signal}
    {alarms : List Alarm} {s s' : Store H} {x : Execution H} {scope : Scope} {schedule : Schedule}
    {horizon : Clock} {fuel : Nat} {reason : String}
    (launched : runner.launch e signal s = (.ok x, scope, s'))
    (aborted : (runner.run schedule horizon fuel e signal alarms s).1 =
      some (.ok (.error (.abort reason)))) :
    (Machine.run schedule horizon fuel (.ring ⟨s', x, alarms⟩)).2.execution =
      .settled (.error (.abort reason)) := by
  unfold run at aborted
  rw [launched] at aborted
  dsimp only at aborted
  split at aborted
  · rename_i exit settled
    have taken := Except.ok.inj (Option.some.inj aborted)
    rwa [abort_of_taken taken] at settled
  · cases aborted
  · cases aborted

/-- A run that is not cancelled, of user code that makes no aborts, does not settle with an abort.
Whatever settles with one, or sees one, is in a branch that has lost, or whose time is over. The
branches of a timeout, an `any` or a `race` see a signal of their own, and what sees it fire is in
branches that are decided at that moment; all else sees the signal of the run, and so do all
factories. No factory is told of an abort, and none is cached. -/
theorem cancellation_is_isolated (made : Key → AnyInstance H → Prop) (state : H.State → Prop)
    (runner : Runner H) (e : Effect H a) (V : Value H → Prop) (signal : Signal)
    (alarms : List Alarm) (s s' : Store H) (x : Execution H) (scope : Scope)
    (follows : e.node.Follows (.abortless made state (·.Issued s)) V)
    (provider : runner.provider.Follows (.abortless made state (·.Issued s))) (user : state s.user)
    (numbered : s.Numbered) (grounded : s.Grounded) (issued : signal.Issued s)
    (fired : ∀ g ∈ s.fired, g.Issued s) (alarmed : ∀ a ∈ alarms, a.signal.Issued s)
    (launched : runner.launch e signal s = (.ok x, scope, s')) (r : Story H)
    (first : r.state 0 = .ring ⟨s', x, alarms⟩)
    (uncancelled : (r.state r.last).store.isFired signal = false) :
    (∀ t reason, t ≤ r.last → (r.state t).execution ≠ .settled (.error (.abort reason))) ∧
    (∀ schedule horizon fuel reason,
      r.state r.last = (Machine.run schedule horizon fuel (.ring ⟨s', x, alarms⟩)).2 →
      (runner.run schedule horizon fuel e signal alarms s).1 ≠
        some (.ok (.error (.abort reason)))) ∧
    (∀ t α reason, t ≤ r.last → r.part? α t = some (.settled (.error (.abort reason))) →
      (r.state t).execution.LostAt α) ∧
    (∀ t α envf f reason, t ≤ r.last →
      r.part? α t = some (.frame envf f (.settled (.error (.abort reason)))) →
      (∃ after fallback, f = .draining after fallback) ∨ (r.state t).execution.LostAt α) ∧
    (∀ t α x k, t ≤ r.last → r.part? α t = some x → x.sees = some k →
      (k = signal ∨ (r.state t).execution.SeparateAt α) ∧
      (t < r.last → (r.state t).store.isFired k = false → (r.state (t + 1)).store.isFired k = true →
        ∃ γ f, Inside γ α ∧ k.descendsFrom f = true ∧
          DecidesAt (r.state t).execution (r.state (t + 1)).execution f γ)) ∧
    (∀ t c x, t ≤ r.last → c.base = s.bases.next → (r.state t).store.context? c = some x →
      x.signal = signal) ∧
    (∀ t c key reason, t ≤ r.last → c.base = s.bases.next →
      (r.state t).store.slot? c key ≠ some (.settled (.error (.abort reason)))) ∧
    ∀ t via key reason s₁, t ≤ r.last → via.scope.base = s.bases.next →
      ((r.state t).store.context? via.scope).isSome = true →
      (r.state t).store.request via key ≠ (.refused (.abort reason), s₁) := by
  have begun := Story.launched_of_launch launched issued fired alarmed first
  obtain ⟨⟨base, hbase, own⟩, supply⟩ := launch_signals launched
  obtain ⟨rfl, opened, opens⟩ := launch_follows launched provider user numbered grounded
  have waits : s'.Waits (r.state 0).store := by
    rw [first]
    exact Machine.waits_ring s' _ alarms
  have begins : (r.state 0).Follows (.abortless made state (·.Issued s)) s.bases.next V signal := by
    refine ⟨waits.follows opened, ?_⟩
    rw [begun.execution]
    exact .enter rfl (follows_withDeadline follows) (opens.kept waits.contexts.keeps)
  have known : ∀ f : Signal, f.Issued s → f.Predates (r.state 0).store.signals.next := by
    intro f hf
    rw [waits.signals, supply]
    exact hf.predates
  have arming : (r.state 0).execution.Arming (r.state 0).store.signals.next (r.state 0).store := by
    rw [begun.execution]
    exact (Execution.unarmed_enter _ _).arming fun f hf => (begun.fired f hf).predates
  have unfired : ∀ t, t ≤ r.last → (r.state t).store.isFired signal = false := by
    intro t ht
    rw [Bool.eq_false_iff]
    intro early
    rw [Store.isFired_of_subset (Story.fired_later ht (Nat.le_refl _)) early] at uncancelled
    cases uncancelled
  have invariant := fun t (ht : t ≤ r.last) => Story.follows_of_first begins arming known
    (fun a ha => (begun.alarms a ha).predates) ht
  have lost : ∀ t α reason, t ≤ r.last →
      r.part? α t = some (.settled (.error (.abort reason))) → (r.state t).execution.LostAt α := by
    intro t α reason ht hx
    obtain ⟨follows, arming⟩ := invariant t ht
    exact follows.execution.lost_of_abort arming.intact (unfired t ht) (fun no => no reason rfl) hx
  have never : ∀ t reason, t ≤ r.last →
      (r.state t).execution ≠ .settled (.error (.abort reason)) := by
    intro t reason ht settled
    obtain ⟨γ, y, ⟨hop, inside⟩, -⟩ := lost t [] reason ht (congrArg some settled)
    have nowhere : γ ++ [hop] = [] := List.prefix_nil.1 inside
    simp at nowhere
  refine ⟨never, ?_, lost, ?_, ?_, ?_, ?_, ?_⟩
  · intro schedule horizon fuel reason last aborted
    have settled := settled_of_run_aborted launched aborted
    rw [← last] at settled
    exact never r.last reason (Nat.le_refl _) settled
  · intro t α envf f reason ht hx
    have hx : (r.state t).execution.at? α = _ := hx
    have above : r.part? (α ++ [.above]) t = some (.settled (.error (.abort reason))) := by
      unfold Story.part?
      rw [Execution.at?_snoc, hx]
      rfl
    exact (lost t _ reason ht above).waiting hx
  · intro t α x k ht hx hk
    obtain ⟨follows, arming⟩ := invariant t ht
    constructor
    · obtain ⟨U, c, below, separate, -⟩ := follows.execution.along hx
      rw [below.sees_eq hk]
      exact separate
    · intro less before after
      refine (r.step t less).decides_around follows arming known (fun a ha => ?_)
        (unfired (t + 1) less) hx hk before after
      exact (begun.alarms a (Story.alarms_of_later ht ha)).predates
  · intro t c x ht hc hx
    obtain ⟨follows, -⟩ := invariant t ht
    have keeps := waits.contexts.keeps.trans (Story.keeps t.zero_le ht)
    obtain ⟨y, hy, -, same⟩ := keeps.providers.context? hbase
    rw [follows.store.signals c x y hc hx hy, same, own]
  · intro t c key reason ht hc hx
    obtain ⟨follows, -⟩ := invariant t ht
    obtain ⟨f, p, -, answered⟩ := follows.store.slots (c, key) _ hc hx
    exact answered reason rfl
  · intro t via key reason s₁ ht hvia there refused
    obtain ⟨follows, -⟩ := invariant t ht
    exact follows.store.refused ⟨hvia, there⟩ (Store.request_refused refused).2 reason rfl

/-! A race against a service -/

def slowFactory : Factory Host.counting :=
  .make (.plain ()) fun _ => .sleep ⟨5000000⟩ (.done (.ok ⟨.bare (.plain ()), (7 : Nat)⟩))

def slowRunner : Runner Host.counting := { provider := ⟨0, OrderedMap.empty.set "N" slowFactory⟩ }

/-- Fails at once, unless the service is faster. -/
def hasty : Effect Host.counting (.shared (.plain ())) :=
  ⟨.race ([number.catchAll fun f => .pure (.fail f), .fail (.ofKey "late")].map Effect.node),
    .unions [number.requires, .empty]⟩

def hastyStore : Store Host.counting := { user := (0 : Nat), signals := ⟨1⟩ }

def hastyMachine : Machine Host.counting :=
  .ring ⟨(slowRunner.opened (.root 0) hastyStore).2.record .runStarted,
    .enter hasty.node ⟨⟨0, []⟩, .root 0, none⟩, []⟩

/-- The rules that the race and its service keep to. -/
def hastyRules : Rules Host.counting :=
  .abortless (fun _ _ => True) (fun _ => True) (·.Issued hastyStore)

theorem follows_fail {f : Failure Host.counting} (hf : hastyRules.failure f) :
    (Effect.fail (a := .shared (.plain ())) f).node.Follows hastyRules fun _ => True :=
  .sync (Code.follows_pure hf)

theorem follows_hasty : hasty.node.Follows hastyRules fun _ => True := by
  have late : hastyRules.failure (.ofKey "late") := nofun
  have service : number.node.Follows hastyRules fun _ => True := by
    refine .service fun i _ => ?_
    cases hi : numberToken.view i with
    | ok => exact trivial
    | error f =>
      unfold Token.view at hi
      split at hi <;> cases hi
      exact nofun
  have recovering : (number.catchAll fun f => .pure (.fail f)).node.Follows hastyRules
      fun _ => True := by
    refine .recover service (fun f _ _ => Code.follows_pure trivial) ?_
    intro f now x n hf _ _ answer
    cases answer
    exact follows_fail hf
  refine .race (fun n hn => ?_) nofun
  rcases List.mem_pair.1 hn with rfl | rfl
  · exact recovering
  · exact follows_fail late

theorem follows_slowProvider : slowRunner.provider.Follows hastyRules := by
  intro key f hf r _
  have bound : (OrderedMap.empty.set "N" slowFactory).get? key = some f := hf
  rw [OrderedMap.get?_set] at bound
  split at bound <;> cases bound
  exact trivial

/-- The branch that waits for the service has lost, and an abort has come to its handler. The
service is not aborted. -/
theorem loser_alone_is_aborted : ∃ r : Story Host.counting, r.state 0 = hastyMachine ∧
    ∃ envf f, r.part? [.branch 0] r.last = some (.frame envf f (.settled (.error .aborted))) ∧
      (r.state r.last).execution.LostAt [.branch 0] ∧
      (r.state r.last).store.slot? ⟨0, []⟩ "N" ≠ some (.settled (.error .aborted)) := by
  have run : Machine.run .standard 0 8 hastyMachine = (_, _) := rfl
  obtain ⟨r, first, last⟩ := Story.exists_of_run run
  have issued : (Signal.root 0).Issued hastyStore := by
    refine ⟨Nat.le_refl 1, fun n hn => ?_⟩
    rw [List.mem_singleton.1 hn]
    exact Nat.zero_lt_one
  have here : ∃ envf code, r.part? [.branch 0] r.last =
      some (.frame envf (.recover code) (.settled (.error .aborted))) := by
    unfold Story.part?
    rw [last]
    exact ⟨_, _, rfl⟩
  obtain ⟨envf, code, here⟩ := here
  have uncancelled : (r.state r.last).store.isFired (.root 0) = false := by
    rw [last]
    rfl
  obtain ⟨-, -, -, observed, -, -, cached, -⟩ := cancellation_is_isolated (fun _ _ => True)
    (fun _ => True) slowRunner hasty (fun _ => True) (.root 0) [] hastyStore _ _ _ follows_hasty
    follows_slowProvider trivial nofun nofun issued nofun nofun rfl r first uncancelled
  refine ⟨r, first, envf, _, here, ?_, cached _ _ _ _ (Nat.le_refl _) rfl⟩
  rcases observed _ _ _ _ _ (Nat.le_refl _) here with ⟨_, _, impossible⟩ | lost
  · cases impossible
  · exact lost

end Runner

end ScopedEffects
