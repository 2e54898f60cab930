import ScopedEffects.Proofs.Traffic.Orderly

/-! No resolutions wait on one another in a circle. In an orderly store every wait of a factory goes
along an edge of the graph of its own context, or to a context further down; the first keeps the
depth and has no cycles, the second lowers the depth. As there are only finitely many resolutions,
from any unfinished one the waits lead to one that can go on without the others. -/

namespace ScopedEffects

open Relation

variable {H : Host}

/-! Finitely many resolutions -/

namespace Store

variable {s : Store H}

def places (s : Store H) : List Place :=
  s.contexts.entries.flatMap fun e => e.2.slots.keys.map fun k => (e.1, k)

theorem mem_places {p : Place} {x : Slot H} (h : s.slot? p.1 p.2 = some x) : p ∈ s.places := by
  obtain ⟨y, hy, hx⟩ := exists_context?_of_slot? h
  unfold context? OrderedMap.get? at hy
  obtain ⟨⟨c, z⟩, hf, he⟩ := Option.map_eq_some_iff.1 hy
  have hc : c = p.1 := by simpa using List.find?_some hf
  have hz : z = y := he
  subst hz
  have entry : (c, z) ∈ s.contexts.entries := List.mem_of_find?_eq_some hf
  have key : p.2 ∈ z.slots.keys := OrderedMap.mem_keys_iff.2 ⟨x, hx⟩
  exact List.mem_flatMap.2 ⟨(c, z), entry, List.mem_map.2 ⟨p.2, key, Prod.ext hc rfl⟩⟩

theorem finite_unfinished (s : Store H) : Finite { p // s.Unfinished p } := by
  have sub : { p | s.Unfinished p } ⊆ { p | p ∈ s.places } := fun p hp =>
    let ⟨_, ht⟩ := hp
    mem_places ht
  exact (s.places.finite_toSet.subset sub).to_subtype

/-- Waits lead from one unfinished resolution to another. -/
def Above (s : Store H) (q p : { p // s.Unfinished p }) : Prop := TransGen s.Awaits p q

/-- Without circles among the waits, some unfinished resolution that is awaited waits on no other.
-/
theorem exists_unblocked (h : ∀ p, ¬ TransGen s.Awaits p p) {p : Place} (hp : s.Unfinished p) :
    ∃ q, ReflTransGen s.Awaits p q ∧ s.Unfinished q ∧ ∀ r, s.Awaits q r → ¬ s.Unfinished r := by
  -- on finitely many places a transitive relation that is irreflexive is well-founded
  have : Finite { p // s.Unfinished p } := s.finite_unfinished
  have : IsTrans _ s.Above := ⟨fun _ _ _ hab hbc => TransGen.trans hbc hab⟩
  have : Std.Irrefl s.Above := ⟨fun a ha => h a ha⟩
  have wf : WellFounded s.Above := Finite.wellFounded_of_trans_of_irrefl s.Above
  obtain ⟨⟨q, hq⟩, path, last⟩ := wf.has_min { q | ReflTransGen s.Awaits p q } ⟨⟨p, hp⟩, .refl⟩
  refine ⟨q, path, hq, fun r hr hu => ?_⟩
  exact last ⟨r, hu⟩ (path.tail hr) (.single hr)

end Store

/-! Where waits lead -/

namespace Store.OrderlyBut

variable {s : Store H} {p q : Place}

theorem awaits_cases (h : s.Orderly) (hw : s.Awaits p q) :
    q.1.depth < p.1.depth ∨ q.1 = p.1 ∧ (s.graph p.1).Edge p.2 q.2 := by
  obtain ⟨t, ht, w, hm, rfl⟩ := hw
  rcases h.waits p t id ht w hm with ⟨hs, hr⟩ | ⟨hd, -⟩
  · refine .inr ⟨hs, WaitGraph.edge_of_count ?_⟩
    have named : w = ⟨p.1, w.key, some p.2⟩ := by rw [← hs, ← hr]
    have counted := h.counted p t id ht w.key
    rw [← named] at counted
    exact (List.count_pos_iff.2 hm).trans_le counted
  · exact .inl hd

/-- A path of waits leads down, or it stays in its context and follows the graph there. -/
theorem path_cases (h : s.Orderly) (hw : TransGen s.Awaits p q) :
    q.1.depth < p.1.depth ∨ q.1 = p.1 ∧ TransGen (s.graph p.1).Edge p.2 q.2 := by
  induction hw with
  | single hw => exact (h.awaits_cases hw).imp_right fun e => ⟨e.1, .single e.2⟩
  | tail _ hw ih =>
    rcases h.awaits_cases hw with down | ⟨same, edge⟩
    · rcases ih with less | ⟨here, -⟩
      · exact .inl (down.trans less)
      · exact .inl (here ▸ down)
    · rcases ih with less | ⟨here, path⟩
      · exact .inl (same ▸ less)
      · rw [here] at same edge
        exact .inr ⟨same, path.tail edge⟩

theorem no_circle (h : s.Orderly) (p : Place) : ¬ TransGen s.Awaits p p := by
  intro path
  rcases h.path_cases path with less | ⟨-, around⟩
  · exact less.false
  · exact h.acyclic p.1 p.2 around

/-- A request that would close a circle is served in the resolver's own context, and the graph there
knows the rest of the circle. -/
theorem request_closing {r : Resolver} {key : Key} {d : Scope} (h : s.Orderly)
    (hl : s.lives r.scope = true) (hs : s.serving r.scope key = .found d)
    (path : ReflTransGen s.Awaits (d, key) (r.scope, r.key)) :
    ∃ cycle s', s.request (.resolver r) key = (.refused (.circularDependency cycle), s') := by
  -- no path leads back up, so all of it stays in the context of the resolver
  have around : d = r.scope ∧ ReflTransGen (s.graph r.scope).Edge key r.key := by
    rcases reflTransGen_iff_eq_or_transGen.1 path with he | path
    · cases he
      exact ⟨rfl, .refl⟩
    · rcases h.path_cases path with less | ⟨here, path⟩
      · rcases depth_of_serving hs with rfl | down
        · exact less.false.elim
        · exact (less.trans down).false.elim
      · have here : r.scope = d := here
        exact ⟨here.symm, here ▸ path.to_reflTransGen⟩
  obtain ⟨rfl, known⟩ := around
  obtain ⟨cycle, hc⟩ := WaitGraph.exists_cycle_of_path known
  obtain ⟨x, hx, -⟩ := serving_found hs
  have graph : s.graph r.scope = x.waiting := by simp [graph, hx]
  rw [graph] at hc
  exact ⟨cycle, _, by simp [request, hl, resolve, hs, enlist, hx, hc]; rfl⟩

end Store.OrderlyBut

namespace Traffic

/-- However requests, polls, completions, failures, panics and dropped waits follow one another: no
resolutions await one another in a circle, each unfinished one leads to one that is not blocked, a
request that would close a circle is refused, and polls go on like this. -/
theorem deadlock_free {s₀ : Store H} {L : List (Happening H)} {σ : Traffic H}
    (h₀ : s₀.contexts = .empty) (run : Run ⟨s₀, []⟩ L σ) (lawful : ∀ e ∈ L, e.Lawful) :
    (∀ p, ¬ TransGen σ.store.Awaits p p) ∧
    (∀ p, σ.store.Unfinished p → ∃ q, ReflTransGen σ.store.Awaits p q ∧ σ.store.Unfinished q ∧
      ∀ r, σ.store.Awaits q r → ¬ σ.store.Unfinished r) ∧
    (∀ (r : Resolver) key d, σ.store.lives r.scope = true →
      σ.store.serving r.scope key = .found d →
      ReflTransGen σ.store.Awaits (d, key) (r.scope, r.key) → ∃ cycle s',
        σ.store.request (.resolver r) key = (.refused (.circularDependency cycle), s')) ∧
    ∀ policy depth i t t' s', σ.clients[i]? = some t →
      t.step policy depth σ.store = some (t', s') →
      ∃ L', Run ⟨s₀, []⟩ L' ⟨s', σ.clients.set i t'⟩ ∧ ∀ e ∈ L', e.Lawful := by
  have order : σ.Orderly := (Orderly.empty h₀).run run lawful
  refine ⟨order.store.no_circle, ?_, ?_, ?_⟩
  · intro p hp
    exact Store.exists_unblocked order.store.no_circle hp
  · intro r key d hl hs path
    exact order.store.request_closing hl hs path
  · intro policy depth i t t' s' ht step
    obtain ⟨L', more, inner⟩ := run_of_step ht step
    refine ⟨L ++ L', run.append more, fun e he => ?_⟩
    rcases List.mem_append.1 he with he | he
    · exact lawful e he
    · exact (inner e he).lawful

/-- A factory that requests an instance and settles as the request does. -/
def forwarding (key : Key) : Factory Host.counting :=
  .make (.plain ()) fun r => .get (.resolver r) key fun
    | .ok _ => .done (.ok ⟨.unit, ()⟩)
    | .error f => .done (.error f)

def mutualProvider : Provider Host.counting :=
  ⟨0, (OrderedMap.empty.set "A" (forwarding "B")).set "B" (forwarding "A")⟩

def requestOfA : Program Host.counting :=
  .get (.context ⟨0, []⟩) "A" fun _ => .done (.ok ⟨.unit, ()⟩)

theorem selfContained_mutualProvider : mutualProvider.SelfContained := by
  have asks : ∀ key target c g, ((forwarding target).program ⟨c, g, key⟩).Asks
      (Access.Own (c, key)) := by
    intro key target c g
    refine ⟨rfl, fun r => ?_⟩
    cases r <;> trivial
  intro key f hf c g
  have hf : mutualProvider.bindings.get? key = some f := hf
  unfold mutualProvider at hf
  rw [OrderedMap.get?_set, OrderedMap.get?_set] at hf
  split at hf
  · cases hf; exact asks ..
  · split at hf
    · cases hf; exact asks ..
    · cases hf

/-- The factory of one key awaits the other key, whose factory is refused what it requests. -/
theorem mutual_requests_are_refused :
    ∃ (L : List (Happening Host.counting)) (σ : Traffic Host.counting),
      Run ⟨{ user := (0 : Nat) }, []⟩ L σ ∧
      σ.store.Awaits (⟨0, []⟩, "A") (⟨0, []⟩, "B") ∧
      ∃ cycle s', σ.store.request (.resolver ⟨⟨0, []⟩, .root 0, "B"⟩) "A" =
        (.refused (.circularDependency cycle), s') := by
  have opened := Run.single (σ := ⟨{ user := (0 : Nat) }, []⟩)
    (.openBase (p := mutualProvider) (g := .root 0))
  have arrived := opened.snoc (.arrive (p := requestOfA))
  have begun := arrived.snoc (.client (i := 0) rfl (.begin rfl))
  have awaiting := begun.snoc (.factory (p := (⟨0, []⟩, "A")) rfl (.begin rfl))
  obtain ⟨-, -, refused, -⟩ := deadlock_free rfl awaiting <| by
    intro e he
    simp only [List.nil_append, List.cons_append, List.mem_cons, List.not_mem_nil, or_false] at he
    rcases he with rfl | rfl | rfl | rfl
    · exact selfContained_mutualProvider
    · exact ⟨trivial, fun _ => trivial⟩
    · trivial
    · trivial
  refine ⟨_, _, awaiting, ?_⟩
  have closing := refused ⟨⟨0, []⟩, .root 0, "B"⟩ "A" ⟨0, []⟩ rfl rfl
  refine ⟨?awaits, closing (.single ?awaits)⟩
  exact ⟨_, rfl, _, List.mem_singleton_self _, rfl⟩

end Traffic

end ScopedEffects
