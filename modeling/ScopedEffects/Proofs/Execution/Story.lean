import ScopedEffects.Machine
import ScopedEffects.Proofs.Execution.Places
import ScopedEffects.Proofs.Execution.Signals

/-! The stories of machines: what happens from the launch of an effect until it settles, with alarms
that ring and time that passes at any moment. Each part of the execution is followed at its address,
until it has ended. -/

namespace ScopedEffects

variable {H : Host} [Tracing H]

namespace Machine

inductive Step (m : Machine H) : Machine H → Prop
  | moves {policy e s} (h : m.execution.move policy 0 m.store = some (e, s)) :
      Step m { m with execution := e, store := s }
  | rings {gs rest} (hg : ∀ g ∈ gs, ∃ a ∈ m.alarms, a.signal = g) (hr : ∀ a ∈ rest, a ∈ m.alarms) :
      Step m { m with store := m.store.fireAll gs, alarms := rest }
  | passes (now : Clock) : Step m { m with store := { m.store with now := now } }

/-- What the machine does by itself: alarms ring only when the execution is still, and time passes only
when no alarm is due either. -/
inductive Drives (policy : Policy) (m : Machine H) : Machine H → Prop
  | moves {e s} (moved : m.execution.move (m.polling policy) 0 m.store = some (e, s)) :
      Drives policy m { m with execution := e, store := s }
  | rings (still : m.execution.move (m.polling policy) 0 m.store = none)
      (due : m.alarmDue = true) : Drives policy m m.ring
  | passes {t} (still : m.execution.move (m.polling policy) 0 m.store = none)
      (chosen : m.nextInstant? = some t) :
      Drives policy m { m with store := { m.store with now := t } }

variable {policy : Policy} {m m' : Machine H}

theorem move?_of_move {e : Execution H} {s : Store H}
    (moved : m.execution.move (m.polling policy) 0 m.store = some (e, s)) :
    m.move? policy = some { m with execution := e, store := s } := by
  rw [move?, moved]

theorem move?_of_still (still : m.execution.move (m.polling policy) 0 m.store = none) :
    m.move? policy = if m.alarmDue then some m.ring
      else m.nextInstant?.map fun t => { m with store := { m.store with now := t } } := by
  rw [move?, still]

theorem drives_of_move? (h : m.move? policy = some m') : m.Drives policy m' := by
  cases moved : m.execution.move (m.polling policy) 0 m.store with
  | some y =>
    rw [move?_of_move moved] at h
    cases h
    exact .moves moved
  | none =>
    rw [move?_of_still moved] at h
    split at h
    · rename_i due
      cases h
      exact .rings moved due
    · obtain ⟨t, chosen, rfl⟩ := Option.map_eq_some_iff.1 h
      exact .passes moved chosen

omit [Tracing H] in
/-- The next instant is ahead, and no deadline that is ahead comes before it. -/
theorem nextInstant?_spec {t : Clock} (h : m.nextInstant? = some t) :
    m.store.now < t ∧
      ∀ d ∈ m.execution.deadlines m.store, m.store.now < d → t ≤ d := by
  obtain ⟨later, least⟩ := List.min?_eq_some_iff.1 h
  refine ⟨by simpa using (List.mem_filter.1 later).2, fun d hd ahead => ?_⟩
  exact least d (List.mem_filter.2 ⟨List.mem_append_left _ hd, by simpa using ahead⟩)

theorem step_of_move? (h : m.move? policy = some m') : m.Step m' := by
  cases drives_of_move? h with
  | moves moved => exact .moves moved
  | rings =>
    refine .rings (fun g hg => ?_) fun a ha => List.mem_of_mem_filter ha
    obtain ⟨a, ha, rfl⟩ := List.mem_map.1 hg
    exact ⟨a, List.mem_of_mem_filter ha, rfl⟩
  | passes => exact .passes _

end Machine

structure Story (H : Host) [Tracing H] where
  state : Nat → Machine H
  last : Nat
  step : ∀ t, t < last → (state t).Step (state (t + 1))

/-- All numbers of the signal have been handed out. -/
def Signal.Issued (g : Signal) (s : Store H) : Prop :=
  g.IsProper ∧ ∀ n ∈ g.lineage, n < s.signals.next

omit [Tracing H] in
theorem Signal.issued_root {s : Store H} {n : Nat} (h : n < s.signals.next) :
    (Signal.root n).Issued s := by
  refine ⟨Nat.le_refl 1, fun m hm => ?_⟩
  rw [List.mem_singleton.1 hm]
  exact h

omit [Tracing H] in
/-- A number that is still free makes a signal that descends from none of those there are. -/
theorem Signal.Issued.not_ancestor {g : Signal} {s : Store H} (h : g.Issued s) {n : Nat}
    (hn : s.signals.next ≤ n) : (Signal.root n).descendsFrom g = false := by
  rw [Signal.descendsFrom, Bool.eq_false_iff, Ne, List.isSuffixOf_iff_suffix]
  intro suffix
  obtain ⟨proper, known⟩ := h
  obtain ⟨m, rest, hg⟩ := List.exists_cons_of_length_pos proper
  have inside : m ∈ g.lineage := hg ▸ List.mem_cons_self
  have same : m = n := List.mem_singleton.1 (suffix.subset inside)
  have less := known m inside
  omega

namespace Story

/-- The story of an effect that is launched with a signal, and alarms on signals, that are there. -/
structure Launched (r : Story H) (node : Node H) (env : Env) : Prop where
  execution : (r.state 0).execution = .enter node env
  signal : env.signal.Issued (r.state 0).store
  fired : ∀ g ∈ (r.state 0).store.fired, g.Issued (r.state 0).store
  alarms : ∀ a ∈ (r.state 0).alarms, a.signal.Issued (r.state 0).store

/-- No tracer panics, and no retry does when it asks its predicate or draws its delay. -/
def Steady (r : Story H) : Prop := ∀ t, t < r.last → (r.state t).execution.Steady (r.state t).store

def part? (r : Story H) (α : List Hop) (t : Nat) : Option (Execution H) :=
  (r.state t).execution.at? α

variable {r : Story H} {node : Node H} {env : Env} {α : List Hop} {t u i : Nat} {x : Execution H}

theorem sound (h : (r.state 0).execution.Sound) (steady : r.Steady) (ht : t ≤ r.last) :
    (r.state t).execution.Sound := by
  induction t with
  | zero => exact h
  | succ t ih =>
    have before := ih (Nat.le_of_succ_le ht)
    have step := r.step t ht
    generalize r.state (t + 1) = m at step
    cases step with
    | moves hm => exact Execution.sound_move before (steady t ht) hm
    | rings | passes => exact before

theorem Launched.sound (h : r.Launched node env) (steady : r.Steady) (ht : t ≤ r.last) :
    (r.state t).execution.Sound := by
  refine Story.sound ?_ steady ht
  rw [h.execution]
  exact h.signal.1

theorem Launched.supply (h : r.Launched node env) (steady : r.Steady) (htu : t ≤ u)
    (hu : u ≤ r.last) : (r.state t).store.signals.next ≤ (r.state u).store.signals.next := by
  induction htu with
  | refl => exact Nat.le_refl _
  | @step u _ ih =>
    refine (ih (Nat.le_of_succ_le hu)).trans ?_
    have sound := h.sound steady (Nat.le_of_succ_le hu)
    have step := r.step u hu
    generalize r.state (u + 1) = m at step
    cases step with
    | moves hm => exact (Execution.grows_move sound (Execution.confined_true ..) hm).supply
    | rings => rw [Store.signals_fireAll]
    | passes => exact Nat.le_refl _

theorem alarms_of_later (hu : u ≤ r.last) {a : Alarm} (ha : a ∈ (r.state u).alarms) :
    a ∈ (r.state 0).alarms := by
  induction u with
  | zero => exact ha
  | succ u ih =>
    refine ih (Nat.le_of_succ_le hu) ?_
    have step := r.step u hu
    generalize r.state (u + 1) = m at step ha
    cases step with
    | moves | passes => exact ha
    | rings _ hr => exact hr a ha

/-- The signal has not fired, unless user code has fired it. -/
def OnlyCodeFires (r : Story H) (own : Signal) : Prop :=
  ∀ t, t ≤ r.last → (∀ u, u < t →
      (r.state u).execution.Confined (own.descendsFrom · = false) (r.state u).store) →
    (r.state t).store.isFired own = false

/-- A signal without ancestors that is made in the course of a story is fired by nothing else in it.
-/
theorem Launched.only_code_fires (h : r.Launched node env) (steady : r.Steady) {n : Nat}
    (hn : (r.state 0).store.signals.next ≤ n) : r.OnlyCodeFires (.root n) := by
  intro t ht confined
  have apart : ∀ g ∈ (r.state t).store.fired, (Signal.root n).descendsFrom g = false := by
    induction t with
    | zero => exact fun g hg => (h.fired g hg).not_ancestor hn
    | succ t ih =>
      have before := ih (Nat.le_of_succ_le ht) fun u hu => confined u (Nat.lt_succ_of_lt hu)
      have sound := h.sound steady (Nat.le_of_succ_le ht)
      have code := confined t (Nat.lt_succ_self t)
      have step := r.step t ht
      have alarms : ∀ a ∈ (r.state t).alarms, (Signal.root n).descendsFrom a.signal = false :=
        fun a ha => (h.alarms a (alarms_of_later (Nat.le_of_succ_le ht) ha)).not_ancestor hn
      generalize r.state (t + 1) = m at step ⊢
      intro g hg
      cases step with
      | moves hm =>
        -- what executions fire by themselves are children, and a root descends from no child
        rcases (Execution.grows_move sound code hm).fired g hg with old | child | other
        · exact before g old
        · exact child.not_ancestor n
        · exact other
      | rings hgs =>
        rcases Store.mem_fired_fireAll hg with old | rung
        · exact before g old
        · obtain ⟨a, ha, rfl⟩ := hgs g rung
          exact alarms a ha
      | passes => exact before g hg
  rw [Store.isFired, List.any_eq_false]
  intro g hg
  rw [apart g hg]
  exact Bool.false_ne_true

/-- A part that has not ended is there at the next moment, or it has moved. -/
theorem Launched.follow (h : r.Launched node env) (steady : r.Steady) (ht : t < r.last)
    (hx : r.part? α t = some x) (hn : x.ended = false) :
    r.part? α (t + 1) = some x ∨ ∃ policy depth x',
      x.move policy depth (r.state t).store = some (x', (r.state (t + 1)).store) ∧
        r.part? α (t + 1) = some x' := by
  have sound := h.sound steady ht.le
  have step := r.step t ht
  unfold part? at hx ⊢
  generalize r.state (t + 1) = m at step
  cases step with
  | moves hm => exact Execution.move_at? sound hm hx hn
  | rings | passes => exact .inl hx

/-- A part that has not ended moves sooner or later, and is left as it is until then. -/
theorem Launched.moves_later (h : r.Launched node env) (steady : r.Steady)
    (settles : (r.state r.last).execution.ended = true) (hi : i ≤ r.last)
    (hx : r.part? α i = some x) (hn : x.ended = false) :
    ∃ j, i ≤ j ∧ j < r.last ∧ (∀ t, i ≤ t → t ≤ j → r.part? α t = some x) ∧
      ∃ policy depth x',
        x.move policy depth (r.state j).store = some (x', (r.state (j + 1)).store) ∧
          r.part? α (j + 1) = some x' := by
  obtain ⟨left, hl⟩ := Nat.exists_eq_add_of_le hi
  induction left generalizing i with
  | zero =>
    have here : (r.state r.last).execution.at? α = some x := hl ▸ hx
    rw [Execution.at?_ended settles here] at hn
    cases hn
  | succ left ih =>
    have less : i < r.last := by omega
    rcases h.follow steady less hx hn with same | moved
    · obtain ⟨j, hij, hj, stays, moved⟩ := ih less same (by omega)
      refine ⟨j, Nat.le_of_succ_le hij, hj, fun t hit htj => ?_, moved⟩
      rcases Nat.eq_or_lt_of_le hit with rfl | hit
      · exact hx
      · exact stays t hit htj
    · refine ⟨i, Nat.le_refl i, less, fun t hit hti => ?_, moved⟩
      rw [Nat.le_antisymm hti hit]
      exact hx

/-- A step that is no timeout waits until what is above it has settled, and goes on then. -/
theorem Launched.frame_resumes (h : r.Launched node env) (steady : r.Steady)
    (settles : (r.state r.last).execution.ended = true) {envf : Env} {f : Frame H}
    (hf : ∀ above s, f.expire envf above s = none) {above : Execution H} (hi : i ≤ r.last)
    (hx : r.part? α i = some (.frame envf f above)) :
    ∃ j exit, i ≤ j ∧ j < r.last ∧
      (∀ t, i ≤ t → t ≤ j → ∃ above, r.part? α t = some (.frame envf f above)) ∧
      r.part? α j = some (.frame envf f (.settled exit)) ∧
      r.part? α (j + 1) = some (f.resume envf exit (r.state j).store).1 ∧
      (r.state (j + 1)).store = (f.resume envf exit (r.state j).store).2 := by
  obtain ⟨left, hl⟩ := Nat.exists_eq_add_of_le hi
  induction left using Nat.strong_induction_on generalizing i above with
  | _ left ih =>
    obtain ⟨j, hij, hj, stays, policy, depth, x', moved, later⟩ :=
      h.moves_later steady settles hi hx rfl
    have sound := (h.sound steady hj.le).at? (stays j hij (Nat.le_refl j))
    have now : ∀ t, i ≤ t → t ≤ j → ∃ above, r.part? α t = some (.frame envf f above) :=
      fun t hit htj => ⟨above, stays t hit htj⟩
    generalize hs : (r.state (j + 1)).store = s at moved
    cases Execution.move_frame moved with
    | @resumes exit settled =>
      subst settled
      exact ⟨j, exit, hij, hj, now, stays j hij (Nat.le_refl j), later, hs⟩
    | passes unwound =>
      have gone := sound.2.2
      rw [unwound] at gone
      cases gone
    | moves =>
      -- what is above moves, so the frame is still there one instant nearer to the end
      obtain ⟨k, exit, hjk, hk, frames, rest⟩ :=
        ih (r.last - (j + 1)) (by omega) hj later (by omega)
      refine ⟨k, exit, by omega, hk, fun t hit htk => ?_, rest⟩
      rcases Nat.lt_or_ge j t with hjt | htj
      · exact frames t hjt htk
      · exact now t hit htj
    | expires _ timeout due =>
      have never := hf above (r.state j).store
      rw [timeout, Frame.expire, if_pos due] at never
      cases never

/-! Runs of the machine -/

def cons (m : Machine H) (r : Story H) (h : m.Step (r.state 0)) : Story H where
  state
    | 0 => m
    | t + 1 => r.state t
  last := r.last + 1
  step
    | 0, _ => h
    | t + 1, ht => r.step t (Nat.lt_of_succ_lt_succ ht)

theorem exists_of_run {schedule : Schedule} {horizon : Clock} {fuel : Nat} {m m' : Machine H}
    {ending : Ending} (h : Machine.run schedule horizon fuel m = (ending, m')) :
    ∃ r : Story H, r.state 0 = m ∧ r.state r.last = m' := by
  induction fuel generalizing schedule m with
  | zero =>
    cases h
    exact ⟨⟨fun _ => m', 0, fun _ ht => absurd ht (Nat.not_lt_zero _)⟩, rfl, rfl⟩
  | succ fuel ih =>
    have here : ∃ r : Story H, r.state 0 = m ∧ r.state r.last = m :=
      ⟨⟨fun _ => m, 0, fun _ ht => absurd ht (Nat.not_lt_zero _)⟩, rfl, rfl⟩
    rw [Machine.run] at h
    split at h
    · cases h
      exact here
    · split at h
      · cases h
        exact here
      · split at h
        · rename_i m₁ hm
          obtain ⟨r, first, last⟩ := ih h
          exact ⟨r.cons m (first ▸ Machine.step_of_move? hm), rfl, last⟩
        · cases h
          exact here

end Story

end ScopedEffects
