import ScopedEffects.Proofs.Conduct.Moves
import ScopedEffects.Proofs.Execution.Panics

/-! Runs keep to the rules. A run opens a tree of contexts of its own, and what is under way in it
keeps to the rules from the launch on, at every address, and so does that tree. -/

namespace ScopedEffects

variable {H : Host} [Tracing H] {R : Rules H} {b : Nat} {V : Value H → Prop} {g : Signal}

namespace Execution

variable {s : Store H} {e x : Execution H}

theorem Follows.part? {hop : Hop} (h : e.Follows R b s V g) (hx : e.part? hop = some x) :
    ∃ U c, x.Follows R b s U c := by
  cases h with
  | frame hf opens ha =>
    cases hop with
    | above =>
      cases hx
      exact ⟨_, _, ha⟩
    | branch => cases hx
  | crew own distinct hc opens hb =>
    cases hop with
    | above => cases hx
    | branch i => exact ⟨_, _, hb i x hx⟩
  | _ => cases hop <;> cases hx

theorem Follows.at? {α : List Hop} (h : e.Follows R b s V g) (hx : e.at? α = some x) :
    ∃ U c, x.Follows R b s U c :=
  at?_of_part? (P := fun x => ∃ U c, x.Follows R b s U c) (fun ⟨_, _, follows⟩ => follows.part?)
    ⟨V, g, h⟩ hx

end Execution

/-! What alarms and the clock do -/

/-- While the execution waits, signals may fire. -/
structure Store.Waits (s s' : Store H) : Prop where
  contexts : s.SameContexts s'
  user : s'.user = s.user
  signals : s'.signals = s.signals
  kept : s.fired ⊆ s'.fired

omit [Tracing H] in
theorem Store.Waits.follows {s s' : Store H} (h : s.Waits s') (hs : s.Follows R b) :
    s'.Follows R b := by
  refine hs.of_sameContexts h.contexts ?_
  rw [h.user]
  exact hs.state

open Execution (DecidesAt Intact)

namespace Machine

variable {m m' : Machine H}

theorem Step.moves_or_waits (step : m.Step m') :
    (∃ policy, m.execution.move policy 0 m.store = some (m'.execution, m'.store)) ∨
    m'.execution = m.execution ∧ m.store.Waits m'.store ∧
      ∀ f ∈ m'.store.fired, f ∈ m.store.fired ∨ ∃ a ∈ m.alarms, a.signal = f := by
  cases step with
  | moves moved => exact .inl ⟨_, moved⟩
  | @rings gs rest hg hr =>
    refine .inr ⟨rfl, ⟨Store.sameContexts_fireAll gs m.store, Store.user_fireAll gs m.store,
      Store.signals_fireAll gs m.store, Store.fired_fireAll gs m.store⟩, fun f hf => ?_⟩
    exact (Store.mem_fired_fireAll hf).imp_right (hg f)
  | passes now =>
    exact .inr ⟨rfl, ⟨⟨rfl, rfl⟩, rfl, rfl, List.Subset.refl _⟩, fun f hf => .inl hf⟩

omit [Tracing H] in
theorem waits_ring (s : Store H) (e : Execution H) (alarms : List Alarm) :
    s.Waits (ring ⟨s, e, alarms⟩).store :=
  ⟨Store.sameContexts_fireAll .., Store.user_fireAll .., Store.signals_fireAll ..,
    Store.fired_fireAll ..⟩

/-- What a step does to the store. Besides what user code does, signals are fired by alarms and by
the parts that are decided. -/
structure Advances (R : Rules H) (b : Nat) (m m' : Machine H) : Prop where
  keeps : m.store.Keeps m'.store
  kept : m.store.fired ⊆ m'.store.fired
  fired : ∀ f ∈ m'.store.fired, f ∈ m.store.fired ∨ R.fires f ∨ (∃ a ∈ m.alarms, a.signal = f) ∨
    ∃ α, DecidesAt m.execution m'.execution f α

/-- The tree of contexts over the base `b` keeps to the rules, and so does what is under way. -/
structure Follows (R : Rules H) (b : Nat) (V : Value H → Prop) (g : Signal) (m : Machine H) :
    Prop where
  store : m.store.Follows R b
  execution : m.execution.Follows R b m.store V g

theorem Step.follows (step : m.Step m') (h : m.Follows R b V g)
    (intact : R.Abortive ∨ m.execution.Intact m.store) :
    m'.Follows R b V g ∧ Advances R b m m' := by
  rcases step.moves_or_waits with ⟨policy, moved⟩ | ⟨same, waits, rung⟩
  · obtain ⟨follows, advances⟩ := h.execution.move h.store intact moved
    refine ⟨⟨advances.follows, follows⟩, advances.keeps, advances.kept, fun f hf => ?_⟩
    rcases advances.fired f hf with old | user | decided
    · exact .inl old
    · exact .inr (.inl user)
    · exact .inr (.inr (.inr decided))
  · have keeps := waits.contexts.keeps
    refine ⟨⟨waits.follows h.store, ?_⟩, keeps, waits.kept, fun f hf => ?_⟩
    · rw [same]
      exact h.execution.later keeps waits.kept
    · exact (rung f hf).imp_right fun alarm => .inr (.inl alarm)

end Machine

/-! The launch -/

namespace Runner

variable {a : Shape H.Plain} {runner : Runner H} {e : Effect H a} {signal : Signal}
  {alarms : List Alarm} {s s' : Store H} {scope : Scope} {x : Execution H}

omit [Tracing H] in
theorem follows_opened (hp : runner.provider.Follows R) (signal : Signal) (state : R.state s.user)
    (numbered : s.Numbered) (grounded : s.Grounded) :
    (runner.opened signal s).2.Follows R s.bases.next :=
  Store.follows_openBase (s := s.record _) hp signal state numbered grounded

omit [Tracing H] in
theorem opens_opened (runner : Runner H) (signal : Signal) (s : Store H) :
    (runner.opened signal s).2.Opens s.bases.next (runner.opened signal s).1 := by
  refine ⟨rfl, ?_⟩
  unfold opened
  rw [Store.context?_openBase]
  exact congrArg Option.isSome (if_pos rfl)

omit [Tracing H] in
/-- A run that is launched begins with the effect, in the tree that it has opened. -/
theorem launch_follows (hl : runner.launch e signal s = (.ok x, scope, s'))
    (hp : runner.provider.Follows R) (state : R.state s.user) (numbered : s.Numbered)
    (grounded : s.Grounded) :
    x = .enter (runner.withDeadline e).node ⟨scope, signal, runner.settings.defaultConcurrency⟩ ∧
      s'.Follows R s.bases.next ∧ s'.Opens s.bases.next scope := by
  unfold launch at hl
  dsimp only at hl
  split at hl
  · cases hl
    have opened := follows_opened hp signal state numbered grounded
    have recorded := opened.record .runStarted
    exact ⟨rfl, recorded.follows, (opens_opened runner signal s).kept recorded.keeps⟩
  · cases hl

omit [Tracing H] in
/-- The base of that tree has the signal of the run, and no signal is made. -/
theorem launch_signals (hl : runner.launch e signal s = (.ok x, scope, s')) :
    (∃ y, s'.context? ⟨s.bases.next, []⟩ = some y ∧ y.signal = signal) ∧
      s'.signals = s.signals := by
  unfold launch at hl
  dsimp only at hl
  split at hl
  · cases hl
    exact ⟨⟨_, (Store.context?_openBase ..).trans (if_pos rfl), rfl⟩, rfl⟩
  · cases hl

end Runner

end ScopedEffects
