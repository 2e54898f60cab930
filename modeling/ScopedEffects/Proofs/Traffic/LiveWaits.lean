import ScopedEffects.Proofs.Traffic.Waits
import ScopedEffects.Proofs.WaitGraph.Mirror
import ScopedEffects.Proofs.WaitGraph.Paths

/-! The graph of waits against the history of a run. What is under way is what has begun and is not
over, and the graph of each context counts just that of it which was requested through the context's
own resolvers. So a graph is empty when no such request is under way, and the cycle that a refusal
names is made of requests that are under way when it is named. -/

namespace ScopedEffects

variable {H : Host} {s s' : Store H} {via : Access} {key : Key} {w : Wait}

namespace Store

/-- A request is counted against the key of its resolver when the resolver's own context serves it,
and against none when it falls through. -/
theorem Admitted.requester_eq (h : Admitted s via key w s') :
    w.requester = if w.scope = via.scope then via.requester else none := by
  cases h with
  | counted _ ha => rw [if_pos rfl, ha]
  | @plain d _ ha =>
    by_cases here : d = via.scope
    · rw [if_pos here, ha here]
    · rw [if_neg here]

/-- A circular request names a route of waits from its key to the key of its resolver. -/
theorem circular_refusal {cycle : List Key}
    (h : s.request via key = (.refused (.circularDependency cycle), s')) :
    ∃ r path, via = .resolver r ∧ s.serving r.scope key = .found r.scope ∧
      cycle = path ++ [key] ∧ WaitGraph.Route (s.graph r.scope).Edge key r.key path ∧
      ∀ c, s'.graph c = s.graph c := by
  obtain ⟨same, refused⟩ := request_refused h
  cases refused with
  | @circular a _ hs ha hc =>
    cases via with
    | context c => cases ha
    | resolver r =>
      cases ha
      obtain ⟨path, hp, route⟩ := WaitGraph.route_of_cycleThrough hc
      exact ⟨r, path, rfl, hs, hp, route, same.graph⟩

end Store

theorem WaitGraph.stable_mirrored : Stable Mirrored where
  add h _ := h.add _ _
  remove a b h := h.remove a b

namespace Traffic

variable {σ τ : Traffic H} {e : Happening H} {L : List (Happening H)}

/-- A run together with the requests that were over in it. -/
inductive Ledger : Traffic H → List (Happening H) → Traffic H → List Wait → Prop
  | nil (σ : Traffic H) : Ledger σ [] σ []
  | snoc {σ τ ρ : Traffic H} {L e ended} (ledger : Ledger σ L τ ended) (step : Step τ e ρ)
      (feasible : e.Feasible τ) :
      Ledger σ (L ++ [e]) ρ (ended ++ τ.ceased e)

theorem FeasibleRun.exists_ledger (run : FeasibleRun σ L τ) : ∃ ended, Ledger σ L τ ended := by
  induction run with
  | nil => exact ⟨[], .nil _⟩
  | snoc _ step feasible ih =>
    obtain ⟨ended, ledger⟩ := ih
    exact ⟨_, ledger.snoc step feasible⟩

theorem Ledger.run {ended : List Wait} (h : Ledger σ L τ ended) : FeasibleRun σ L τ := by
  induction h with
  | nil => exact .nil _
  | snoc _ step feasible ih => exact .snoc ih step feasible

/-- What was under way or has begun is over or still under way. -/
theorem Ledger.balanced {ended : List Wait} (h : Ledger σ L τ ended) (hn : σ.Founded) (w : Wait) :
    τ.pending w + ended.count w = σ.pending w + (L.flatMap Happening.began).count w := by
  induction h with
  | nil => rfl
  | snoc ledger step _ ih =>
    have change := (step.balance (hn.run ledger.run.run).numbered).pending w
    simp only [List.flatMap_append, List.flatMap_cons, List.flatMap_nil, List.append_nil,
      List.count_append]
    omega

theorem pending_empty {s : Store H} (h : s.contexts = .empty) (w : Wait) :
    (⟨s, []⟩ : Traffic H).pending w = 0 := by
  refine Nat.eq_zero_of_not_pos fun pos => ?_
  rcases pending_pos_iff.1 pos with ⟨t, ht, -⟩ | ⟨p, hp⟩
  · cases ht
  · have none : s.slot? p.1 p.2 = .none := by
      simp [Store.slot?, Store.context?, h]
    have hp : w ∈ s.waitsAt p := hp
    rw [Store.waitsAt_of_none none] at hp
    cases hp

theorem Run.stable (run : Run σ L τ) (hn : σ.Founded) {P : WaitGraph → Prop}
    (stable : WaitGraph.Stable P) (h : ∀ c, P (σ.store.graph c)) (c : Scope) :
    P (τ.store.graph c) := by
  induction run generalizing c with
  | nil => exact h c
  | snoc before step ih => exact step.stable (hn.run before).numbered stable ih c

theorem mirrored_of_run {s₀ : Store H} (h₀ : s₀.contexts = .empty)
    (run : Run ⟨s₀, []⟩ L σ) (c : Scope) : (σ.store.graph c).Mirrored := by
  refine run.stable (.empty h₀ []) WaitGraph.stable_mirrored (fun d => ?_) c
  have nothing : s₀.graph d = {} := graph_of_context?_none (by simp [Store.context?, h₀])
  show (s₀.graph d).Mirrored
  rw [nothing]
  exact WaitGraph.mirrored_empty

/-- However requests, completions, failures, panics and dropped waits follow one another, the graph of
a context that lives counts for each pair of keys the requests that its resolvers of the one key have
made of the other, that it serves itself, and that have begun and are not over. A request that falls
through to a context below is in no graph. Graphs without such requests are empty, and a refusal of a
circular request names distinct keys, each of which waits for the next when it is refused. Polls go on
like this. -/
theorem graphs_are_live_waits {s₀ : Store H} (h₀ : s₀.contexts = .empty)
    (run : FeasibleRun ⟨s₀, []⟩ L σ) :
    (∀ c a b, σ.store.lives c = true →
      (σ.store.graph c).count a b = σ.pending ⟨c, b, some a⟩) ∧
    (∃ ended, Ledger ⟨s₀, []⟩ L σ ended ∧
      ∀ w, σ.pending w + ended.count w = (L.flatMap Happening.began).count w) ∧
    (∀ via key w s', σ.store.request via key = (.waiting w, s') →
      w.key = key ∧ σ.store.serving via.scope key = .found w.scope ∧
      (w.requester = if w.scope = via.scope then via.requester else none) ∧
      (∀ c a b, (s'.graph c).count a b =
        (σ.store.graph c).count a b + [w].count ⟨c, b, some a⟩) ∧
      (w.requester = none → (∀ c, s'.graph c = σ.store.graph c) ∧
        ∀ later : Store H, later.finishWait w = later)) ∧
    (∀ c, σ.store.lives c = true →
      ((σ.store.graph c).isEmpty = true ↔ ∀ a b, ¬ σ.Pending ⟨c, b, some a⟩)) ∧
    (∀ via key cycle s', σ.store.request via key = (.refused (.circularDependency cycle), s') →
      ∃ r path, via = .resolver r ∧ σ.store.serving r.scope key = .found r.scope ∧
        cycle = path ++ [key] ∧
        WaitGraph.Route (fun k j => σ.Pending ⟨r.scope, j, some k⟩) key r.key path ∧
        ∀ c, s'.graph c = σ.store.graph c) ∧
    ∀ policy depth i t t' s', σ.clients[i]? = some t →
      t.step policy depth σ.store = some (t', s') →
      ∃ L', FeasibleRun ⟨s₀, []⟩ (L ++ L') ⟨s', σ.clients.set i t'⟩ := by
  have counted : σ.Counted := (Counted.empty h₀).run run
  refine ⟨counted.exact, ?_, ?_, ?_, ?_, ?_⟩
  · obtain ⟨ended, ledger⟩ := run.exists_ledger
    refine ⟨ended, ledger, fun w => ?_⟩
    rw [ledger.balanced (.empty h₀ []) w, pending_empty h₀, Nat.zero_add]
  · intro via key w s' waits
    have admitted := Store.request_waiting waits
    refine ⟨admitted.key_eq, admitted.serving, admitted.requester_eq, admitted.count, ?_⟩
    intro unnamed
    refine ⟨fun c => ?_, fun later => Store.finishWait_none unnamed⟩
    cases admitted with
    | counted => cases unnamed
    | plain => exact Store.graph_join ..
  · intro c hl
    rw [(mirrored_of_run h₀ run.run c).isEmpty_iff]
    constructor
    · intro none a b waits
      have pos := pending_pos_iff.2 waits
      rw [← counted.exact c a b hl, none] at pos
      exact pos.false
    · intro none a b
      rw [counted.exact c a b hl]
      exact Nat.eq_zero_of_not_pos fun pos => none a b (pending_pos_iff.1 pos)
  · intro via key cycle s' refused
    obtain ⟨r, path, hv, hs, hp, route, same⟩ := Store.circular_refusal refused
    refine ⟨r, path, hv, hs, hp, route.mono fun k _ j _ edge => ?_, same⟩
    -- a resolver is refused a cycle only while its context lives
    have alive : σ.store.lives r.scope = true := by
      by_contra gone
      subst hv
      rw [Store.request, if_neg gone] at refused
      cases refused
    exact (counted.edge_iff alive).1 edge
  · intro policy depth i t t' s' ht step
    obtain ⟨L', more, inner⟩ := run_of_step ht step
    exact ⟨L', run.append (more.feasible inner)⟩

/-- The factory of one key awaits the other, which is counted, and the other is refused the first. -/
theorem mutual_wait_is_counted :
    ∃ (L : List (Happening Host.counting)) (σ : Traffic Host.counting),
      FeasibleRun ⟨{ user := (0 : Nat) }, []⟩ L σ ∧
      (σ.store.graph ⟨0, []⟩).count "A" "B" = 1 ∧
      σ.pending ⟨⟨0, []⟩, "B", some "A"⟩ = 1 ∧
      (σ.store.graph ⟨0, []⟩).isEmpty = false ∧
      ∃ s', σ.store.request (.resolver ⟨⟨0, []⟩, .root 0, "B"⟩) "A" =
          (.refused (.circularDependency ["A", "B", "A"]), s') ∧
        WaitGraph.Route (fun k j => σ.Pending ⟨⟨0, []⟩, j, some k⟩) "A" "B" ["A", "B"] := by
  have opened := (FeasibleRun.nil ⟨{ user := (0 : Nat) }, []⟩).snoc
    (.openBase (p := mutualProvider) (g := .root 0)) trivial
  have arrived := opened.snoc (.arrive (p := requestOfA)) trivial
  have begun := arrived.snoc (.client (i := 0) rfl (.begin rfl)) trivial
  have awaiting := begun.snoc (.factory (p := (⟨0, []⟩, "A")) rfl (.begin rfl)) trivial
  obtain ⟨exact_count, -, -, empty_iff, refusals, -⟩ := graphs_are_live_waits rfl awaiting
  have alive := exact_count ⟨0, []⟩ "A" "B" rfl
  refine ⟨_, _, awaiting, rfl, alive.symm, ?_, ?_⟩
  · rw [Bool.eq_false_iff, Ne, empty_iff ⟨0, []⟩ rfl]
    exact fun none => none "A" "B" (pending_pos_iff.1 (alive ▸ Nat.one_pos))
  · refine ⟨_, rfl, ?_⟩
    obtain ⟨r, path, hv, -, hp, route, -⟩ :=
      refusals (.resolver ⟨⟨0, []⟩, .root 0, "B"⟩) "A" ["A", "B", "A"] _ rfl
    cases hv
    have ends : path ++ ["A"] = ["A", "B"] ++ ["A"] := hp.symm
    have same : path = ["A", "B"] := List.append_cancel_right ends
    rwa [same] at route

end Traffic

end ScopedEffects
