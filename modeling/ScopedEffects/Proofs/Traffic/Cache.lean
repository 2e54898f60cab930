import ScopedEffects.Proofs.Traffic.Waits

/-! Requests for keys that have settled. Such a request waits for nothing: it invokes no factory and
is answered at once with what is cached. The check for circles comes before the cache, though, and
knows nothing of settlements, so that a resolver that was kept after its factory had finished can be
refused what is cached. -/

namespace ScopedEffects

open Relation

variable {H : Host} {s s' : Store H} {via : Access} {key : Key} {w : Wait} {d : Scope}

namespace Store

/-- A request for a key that has a slot invokes nothing. -/
theorem Admitted.slots (h : Admitted s via key w s') {x : Slot H}
    (hx : s.slot? w.scope w.key = some x) (p : Place) : s'.slot? p.1 p.2 = s.slot? p.1 p.2 := by
  cases hp : s.slot? p.1 p.2 with
  | some y => exact h.slot?_of_some hp
  | none =>
    cases hp' : s'.slot? p.1 p.2 with
    | none => rfl
    | some y =>
      rcases h.begins hp' with old | ⟨here, none, -⟩
      · rw [hp] at old
        cases old
      · subst here
        have none : s.slot? w.scope w.key = .none := none
        rw [hx] at none
        cases none

theorem answer?_of_settled {o : Except (Failure H) (AnyInstance H)}
    (h : s.slot? w.scope w.key = some (.settled o)) : s.answer? w = some o := by
  simp [answer?, h]

end Store

namespace Task

variable {next : Except (Failure H) (AnyInstance H) → Program H}

/-- A poll of a program that makes a request, of which the store says that it waits. -/
theorem step_get (h : s.request via key = (.waiting w, s')) (policy : Policy) (depth : Nat) :
    (run (.get via key next)).step policy depth s = some (waiting w next, s') := by
  simp [step, move, advance, h]

theorem step_answered {o : Except (Failure H) (AnyInstance H)} (h : s.answer? w = some o)
    (policy : Policy) (depth : Nat) :
    (waiting w next).step policy depth s = some (run (next o), s.finishWait w) := by
  simp [step, move, h]

end Task

namespace Traffic

variable {σ τ : Traffic H} {L M : List (Happening H)} {o : Except (Failure H) (AnyInstance H)}

/-- In the context `c`, a request for `b` that was made through a resolver of `a` is under way. -/
def Awaiting (σ : Traffic H) (c : Scope) (a b : Key) : Prop := σ.Pending ⟨c, b, some a⟩

/-- The request is made through a resolver of the context that serves it, and requests under way
there lead from its key back to that of the resolver. -/
def Circular (σ : Traffic H) (via : Access) (d : Scope) (key : Key) : Prop :=
  ∃ r, via = .resolver r ∧ r.scope = d ∧ ReflTransGen (σ.Awaiting d) key r.key

/-- Whether or not the key has settled, a request that is served is refused exactly where it closes
a circle of requests under way. -/
theorem Counted.refused_iff (h : σ.Counted) (hs : σ.store.serving via.scope key = .found d)
    (hl : ∀ r, via = .resolver r → σ.store.lives r.scope = true) :
    (∃ cycle s', σ.store.request via key = (.refused (.circularDependency cycle), s')) ↔
      σ.Circular via d key := by
  have path_iff (r : Resolver) (hr : via = .resolver r) :
      ((σ.store.graph r.scope).cycleThrough r.key key).isSome ↔
        ReflTransGen (σ.Awaiting r.scope) key r.key := by
    have edges : (σ.store.graph r.scope).Edge = σ.Awaiting r.scope := by
      funext a b
      exact propext (h.edge_iff (hl r hr))
    rw [WaitGraph.cycleThrough_isSome_iff, edges]
  constructor
  · rintro ⟨cycle, s', refused⟩
    cases (Store.request_refused refused).2 with
    | @circular a cycle here ha hc =>
      rw [hs] at here
      cases here
      cases via with
      | context => cases ha
      | resolver r =>
        cases ha
        refine ⟨r, rfl, rfl, (path_iff r rfl).1 ?_⟩
        exact Option.isSome_iff_exists.2 ⟨cycle, hc⟩
  · rintro ⟨r, rfl, rfl, path⟩
    rcases Store.request_served hs hl with ⟨cycle, s', refused, -⟩ | ⟨w, s', x, waits, -⟩
    · exact ⟨cycle, s', refused⟩
    · have closed := (path_iff r rfl).2 path
      cases Store.request_waiting waits with
      | counted here ha hc =>
        cases ha
        have hc : (σ.store.graph r.scope).cycleThrough r.key key = none := hc
        rw [hc] at closed
        cases closed
      | plain there ha =>
        rw [hs] at there
        cases there
        cases ha rfl

/-- Factories that keep to their resolvers while they run close no circle with a settled key. -/
theorem Orderly.not_circular (h : σ.Orderly) (settled : σ.store.slot? d key = some (.settled o))
    {r : Resolver} (hr : σ.store.Unfinished r.place) : ¬ σ.Circular (.resolver r) d key := by
  rintro ⟨r', hr', rfl, path⟩
  cases hr'
  -- a request that a key has under way is one of its factory's, which then has not settled
  have first : ∀ b, ¬ σ.Awaiting r.scope key b := by
    rintro b (⟨t, ht, hw⟩ | ⟨p, hp⟩)
    · have unnamed := h.unnamed t ht _ hw
      cases unnamed
    · unfold Store.waitsAt at hp
      split at hp
      · rename_i t ht
        rcases h.store.waits p t id ht _ hp with ⟨scope, owner⟩ | ⟨-, unnamed⟩
        · have here : p = (r.scope, key) := Prod.ext scope.symm (Option.some.inj owner).symm
          subst here
          have ht : σ.store.slot? r.scope key = some (.running t) := ht
          rw [settled] at ht
          cases ht
        · cases unnamed
      · cases hp
  rcases ReflTransGen.cases_head path with same | ⟨b, step, -⟩
  · obtain ⟨t, ht⟩ := hr
    have ht : σ.store.slot? r.scope r.key = some (.running t) := ht
    rw [← same, settled] at ht
    cases ht
  · exact first b step

theorem settled_of_run {s₀ : Store H} (h₀ : s₀.contexts = .empty) (run : Run ⟨s₀, []⟩ L σ)
    (settled : σ.store.slot? d key = some (.settled o)) (more : Run σ M τ) :
    τ.store.slot? d key = some (.settled o) := by
  have logged : Logged L σ := by
    have all := (Logged.empty h₀).run run
    rwa [List.nil_append] at all
  induction more with
  | nil => exact settled
  | snoc before step ih => exact (logged.run before).settled_step step (p := (d, key)) ih

/-- A request for a key that has settled is served from the cache: it waits at no factory, and
whenever it is polled it goes on with the outcome that is cached. That holds of direct requests, of
requests from contexts above, and of requests of unfinished factories as long as all factories keep
to their resolvers. It fails exactly where a resolver is used whose own key is led to from the key
that it requests by requests under way, as a resolver that was kept requests its own key. -/
theorem settled_key_is_served {s₀ : Store H} (h₀ : s₀.contexts = .empty)
    (run : FeasibleRun ⟨s₀, []⟩ L σ) (settled : σ.store.slot? d key = some (.settled o)) :
    (∀ via, σ.store.serving via.scope key = .found d →
      (∀ r, via = .resolver r → σ.store.lives r.scope = true) → ¬ σ.Circular via d key →
      ∃ w s', σ.store.request via key = (.waiting w, s') ∧ w.place = (d, key) ∧
        (∀ p : Place, s'.slot? p.1 p.2 = σ.store.slot? p.1 p.2) ∧
        ∀ policy depth next,
          (Task.run (.get via key next)).step policy depth σ.store = some (.waiting w next, s') ∧
          (Task.waiting w next).step policy depth s' =
            some (.run (next o), s'.finishWait w)) ∧
    (∀ M τ, Run σ M τ → ∀ w, w.place = (d, key) → τ.store.answer? w = some o ∧
      ∀ policy depth next, (Task.waiting w next).step policy depth τ.store =
        some (.run (next o), τ.store.finishWait w)) ∧
    (∀ via, (∀ r, via = .resolver r → r.scope ≠ d) → ¬ σ.Circular via d key) ∧
    ((∀ e ∈ L, e.Lawful) → ∀ r, σ.store.Unfinished r.place → ¬ σ.Circular (.resolver r) d key) ∧
    (∀ via, σ.store.serving via.scope key = .found d →
      (∀ r, via = .resolver r → σ.store.lives r.scope = true) →
      ((∃ cycle s', σ.store.request via key = (.refused (.circularDependency cycle), s')) ↔
        σ.Circular via d key)) ∧
    ∀ r : Resolver, r.place = (d, key) → σ.Circular (.resolver r) d key := by
  have counted : σ.Counted := (Counted.empty h₀).run run
  have at_place {s : Store H} {w : Wait} (hw : w.place = (d, key))
      (h : s.slot? d key = some (.settled o)) : s.answer? w = some o := by
    cases hw
    exact Store.answer?_of_settled h
  refine ⟨?_, ?_, ?_, ?_, ?_, ?_⟩
  · intro via hs hl free
    rcases Store.request_served hs hl with ⟨cycle, s', refused, -⟩ | ⟨w, s', x, waits, hw, -⟩
    · exact absurd ((counted.refused_iff hs hl).1 ⟨cycle, s', refused⟩) free
    · have place : σ.store.slot? w.scope w.key = some (.settled o) := by
        cases hw
        exact settled
      have slots := (Store.request_waiting waits).slots place
      have answer : s'.answer? w = some o := at_place hw ((slots (d, key)).trans settled)
      refine ⟨w, s', waits, hw, slots, fun policy depth next => ⟨?_, ?_⟩⟩
      · exact Task.step_get waits policy depth
      · exact Task.step_answered answer policy depth
  · intro M τ more w hw
    have answer := at_place hw (settled_of_run h₀ run.run settled more)
    exact ⟨answer, fun policy depth next => Task.step_answered answer policy depth⟩
  · rintro via elsewhere ⟨r, hr, here, -⟩
    exact elsewhere r hr here
  · intro lawful r unfinished
    have orderly : σ.Orderly := (Orderly.empty h₀).run run.run lawful
    exact orderly.not_circular settled unfinished
  · intro via hs hl
    exact counted.refused_iff hs hl
  · intro r hr
    cases hr
    exact ⟨r, rfl, rfl, .refl⟩

/-- The number is made, and a client that requests it once more has it at once. The resolver that its
factory was handed is refused it. -/
theorem number_is_cached : ∃ (L : List (Happening Host.counting)) (σ : Traffic Host.counting),
    FeasibleRun ⟨{ user := (0 : Nat) }, []⟩ L σ ∧
      (∃ w s', σ.store.request (.context ⟨0, []⟩) "N" = (.waiting w, s') ∧
        ∀ policy depth next, (Task.waiting w next).step policy depth s' =
          some (.run (next (.ok madeNumber)), s'.finishWait w)) ∧
      ∃ cycle s', σ.store.request (.resolver ⟨⟨0, []⟩, .root 0, "N"⟩) "N" =
        (.refused (.circularDependency cycle), s') := by
  have opened := (FeasibleRun.nil ⟨{ user := (0 : Nat) }, []⟩).snoc
    (.openBase (p := numberProvider) (g := .root 0)) trivial
  have arrived := opened.snoc (.arrive (p := requestOfNumber)) trivial
  have invoked := arrived.snoc (.client (i := 0) rfl (.begin rfl)) trivial
  have settled := invoked.snoc
    (.settle (p := (⟨0, []⟩, "N")) (w := ⟨⟨0, []⟩, "N", none⟩) rfl rfl rfl) trivial
  obtain ⟨served, -, direct, -, refused, own⟩ := settled_key_is_served rfl settled
    (show Store.slot? _ ⟨0, []⟩ "N" = some (.settled (.ok madeNumber)) from rfl)
  refine ⟨_, _, settled, ?_, ?_⟩
  · obtain ⟨w, s', waits, -, -, polls⟩ := served (.context ⟨0, []⟩) rfl (fun r hr => nomatch hr)
      (direct _ fun r hr => nomatch hr)
    exact ⟨w, s', waits, fun policy depth next => (polls policy depth next).2⟩
  · refine (refused (.resolver ⟨⟨0, []⟩, .root 0, "N"⟩) rfl fun r hr => ?_).2 (own _ rfl)
    cases hr
    rfl

end Traffic

end ScopedEffects
