import ScopedEffects.Proofs.Traffic.Polls
import ScopedEffects.Proofs.Traffic.Requests

/-! Factories that keep to the resolver they were handed. Such a factory waits in its own context,
where its waits are counted in the graph, or further down, where it is nobody's wait. Whatever
happens, the graph of each context has no cycle, and counts all waits that its factories have under
way in it. -/

namespace ScopedEffects

open Relation

variable {H : Host}

/-- All requests of a program, however it goes on, are made through what `ok` allows. -/
def Program.Asks (ok : Access → Prop) : Program H → Prop
  | .done _ | .panic _ => True
  | .act _ next => ∀ now s, (next now s).Asks ok
  | .fire _ next | .record _ next | .sleep _ next | .awaitSignal _ next => next.Asks ok
  | .isFired _ next => ∀ b, (next b).Asks ok
  | .get via _ next => ok via ∧ ∀ r, (next r).Asks ok
  | .both l r next => l.Asks ok ∧ r.Asks ok ∧ ∀ a b, (next a b).Asks ok
  | .first l r next => l.Asks ok ∧ r.Asks ok ∧ ∀ side e, (next side e).Asks ok

def Task.Asks (ok : Access → Prop) : Task H → Prop
  | .run p => p.Asks ok
  | .sleeping _ next | .watching _ next => next.Asks ok
  | .waiting _ next => ∀ r, (next r).Asks ok
  | .both l r _ next => l.Asks ok ∧ r.Asks ok ∧ ∀ a b, (next a b).Asks ok
  | .first l r _ next => l.Asks ok ∧ r.Asks ok ∧ ∀ side e, (next side e).Asks ok

def Access.Direct : Access → Prop
  | .context _ => True
  | .resolver _ => False

/-- A request made through the resolver that the factory of `p` was handed. -/
def Access.Own (p : Place) : Access → Prop
  | .context _ => False
  | .resolver r => (r.scope, r.key) = p

/-- The factories of a provider request other instances through their own resolver alone. -/
def Provider.SelfContained (p : Provider H) : Prop :=
  ∀ key f, p.factory? key = some f → ∀ c g, (f.program ⟨c, g, key⟩).Asks (Access.Own (c, key))

/-- What may happen: clients make direct requests, and factories keep to their resolvers. -/
def Happening.Lawful : Happening H → Prop
  | .arrived p => p.Asks Access.Direct
  | .opened p | .layered _ p => p.SelfContained
  | _ => True

theorem Happening.Inner.lawful {e : Happening H} (h : e.Inner) : e.Lawful := by
  cases e <;> trivial

namespace Store

def Unfinished (s : Store H) (p : Place) : Prop := ∃ t, s.slot? p.1 p.2 = some (.running t)

/-- The unfinished factory of `p` awaits the resolution of `q`. -/
def Awaits (s : Store H) (p q : Place) : Prop :=
  ∃ t, s.slot? p.1 p.2 = some (.running t) ∧ ∃ w ∈ t.waits, w.place = q

end Store

/-- A wait of the factory of `p`: counted in its own context, or made further down. -/
def Wait.Of (p : Place) (w : Wait) : Prop :=
  w.scope = p.1 ∧ w.requester = some p.2 ∨ w.scope.depth < p.1.depth ∧ w.requester = none

/-- The order that keeps waits from going in a circle. The places in `skip` are left out. -/
structure Store.OrderlyBut (skip : Place → Prop) (s : Store H) : Prop where
  acyclic : ∀ c, (s.graph c).Acyclic
  contained : ∀ c x, s.context? c = some x → x.provider.SelfContained
  own : ∀ p t, ¬ skip p → s.slot? p.1 p.2 = some (.running t) → t.Asks (Access.Own p)
  waits : ∀ p t, ¬ skip p → s.slot? p.1 p.2 = some (.running t) → ∀ w ∈ t.waits, w.Of p
  counted : ∀ p t, ¬ skip p → s.slot? p.1 p.2 = some (.running t) →
    ∀ b, t.waits.count ⟨p.1, b, some p.2⟩ ≤ (s.graph p.1).count p.2 b

abbrev Store.Orderly (s : Store H) : Prop := s.OrderlyBut fun _ => False

namespace Task

variable {ok : Access → Prop} {s s' : Store H} {t t' : Task H} {d : Deed H}

theorem asks_iff : t.Asks ok ↔ t.Requests fun via _ => ok via := by
  have program : ∀ p : Program H, p.Asks ok ↔ p.Requests fun via _ => ok via := by
    intro p
    induction p <;> simp_all [Program.Asks, Program.Requests]
  induction t <;> simp_all [Asks, Requests]

theorem Acts.asks (h : Acts s t d s' t') (ht : t.Asks ok) : t'.Asks ok :=
  asks_iff.2 (h.requests (asks_iff.1 ht))

theorem Acts.asked (h : Acts s t d s' t') (ht : t.Asks ok) {via : Access} {key : Key}
    (hr : d.request? = some (via, key)) : ok via :=
  h.requested (asks_iff.1 ht) hr

end Task

namespace Store.OrderlyBut

variable {skip skip' : Place → Prop} {s s' : Store H} {d : Deed H}

theorem weaken (h : s.OrderlyBut skip) (hs : ∀ p, skip p → skip' p) : s.OrderlyBut skip' where
  acyclic := h.acyclic
  contained := h.contained
  own p t hp := h.own p t fun hk => hp (hs p hk)
  waits p t hp := h.waits p t fun hk => hp (hs p hk)
  counted p t hp := h.counted p t fun hk => hp (hs p hk)

/-- A change that opens nothing, starts nothing and takes no counted wait away keeps the order. -/
theorem of_lookups (h : s.OrderlyBut skip) (hg : ∀ c, (s'.graph c).Acyclic)
    (hx : ∀ c x, s'.context? c = some x → x.provider.SelfContained)
    (ht : ∀ p t, ¬ skip p → s'.slot? p.1 p.2 = some (.running t) →
      s.slot? p.1 p.2 = some (.running t) ∧
        (∀ b, (s.graph p.1).count p.2 b ≤ (s'.graph p.1).count p.2 b) ∨
      t.Asks (Access.Own p) ∧ t.waits = []) : s'.OrderlyBut skip where
  acyclic := hg
  contained := hx
  own p t hp hr := by
    rcases ht p t hp hr with ⟨hr, -⟩ | ⟨ha, -⟩
    · exact h.own p t hp hr
    · exact ha
  waits p t hp hr := by
    rcases ht p t hp hr with ⟨hr, -⟩ | ⟨-, hw⟩
    · exact h.waits p t hp hr
    · exact fun w hm => nomatch hw ▸ hm
  counted p t hp hr b := by
    rcases ht p t hp hr with ⟨hr, hc⟩ | ⟨-, hw⟩
    · exact (h.counted p t hp hr b).trans (hc b)
    · rw [hw]; exact Nat.zero_le _

theorem contained_of_fixed (h : s.OrderlyBut skip) (hf : ∀ c, s.Fixed s' c) (c : Scope)
    (x : Context H) (hx : s'.context? c = some x) : x.provider.SelfContained := by
  have hc := hf c
  unfold Fixed at hc
  rw [hx] at hc
  obtain ⟨y, hy, he⟩ := Option.map_eq_some_iff.1 hc.symm
  rw [← (Prod.mk.inj he).1]
  exact h.contained c y hy

theorem of_begins (h : s.OrderlyBut skip) {p : Place} {t : Task H} (hb : s.Begins p (.running t)) :
    t.Asks (Access.Own p) ∧ t.waits = [] := by
  obtain ⟨y, f, hy, hf, he⟩ := hb
  cases he
  exact ⟨h.contained p.1 y hy p.2 f hf p.1 y.signal, rfl⟩

/-- A deed keeps the order of all factories but the one that does it, whose waits may end. -/
theorem effect (h : s.OrderlyBut skip) (he : d.Effect s s')
    (hw : ∀ w ∈ d.ended, ∀ p b, ¬ skip p → w ≠ ⟨p.1, b, some p.2⟩) : s'.OrderlyBut skip := by
  refine h.of_lookups (he.stable WaitGraph.stable_acyclic h.acyclic)
    (h.contained_of_fixed he.fixed) fun p t hp hr => ?_
  rcases he.begins hr with hr | ⟨-, -, hb⟩
  · refine .inl ⟨hr, fun b => ?_⟩
    have none : d.ended.count ⟨p.1, b, some p.2⟩ = 0 :=
      List.count_eq_zero.2 fun hm => hw _ hm p b hp rfl
    have := he.count p.1 p.2 b
    omega
  · exact .inr (h.of_begins hb)

theorem sameContexts (h : s.OrderlyBut skip) (he : s.SameContexts s') : s'.OrderlyBut skip :=
  h.effect (d := .quiet) he fun _ hw => nomatch hw

theorem setSlot_running {p : Place} {x : Slot H} {t : Task H} (h : s.OrderlyBut (· = p))
    (hx : s.slot? p.1 p.2 = some x) (ha : t.Asks (Access.Own p)) (hw : ∀ w ∈ t.waits, w.Of p)
    (hc : ∀ b, t.waits.count ⟨p.1, b, some p.2⟩ ≤ (s.graph p.1).count p.2 b) :
    (s.setSlot p.1 p.2 (.running t)).Orderly := by
  have this : ∀ q u, (s.setSlot p.1 p.2 (.running t)).slot? q.1 q.2 = some (.running u) →
      q = p ∧ u = t ∨ q ≠ p ∧ s.slot? q.1 q.2 = some (.running u) := by
    intro q u hq
    by_cases hqp : q = p
    · subst hqp
      rw [slot?_setSlot_self hx] at hq
      cases hq
      exact .inl ⟨rfl, rfl⟩
    · rw [slot?_setSlot_ne hqp] at hq
      exact .inr ⟨hqp, hq⟩
  constructor
  · intro c
    rw [graph_setSlot]
    exact h.acyclic c
  · exact h.contained_of_fixed fun c => fixed_setSlot ..
  · intro q u _ hq
    rcases this q u hq with ⟨rfl, rfl⟩ | ⟨hne, hq⟩
    · exact ha
    · exact h.own q u hne hq
  · intro q u _ hq
    rcases this q u hq with ⟨rfl, rfl⟩ | ⟨hne, hq⟩
    · exact hw
    · exact h.waits q u hne hq
  · intro q u _ hq b
    rw [graph_setSlot]
    rcases this q u hq with ⟨rfl, rfl⟩ | ⟨hne, hq⟩
    · exact hc b
    · exact h.counted q u hne hq b

theorem setSlot_settled {p : Place} {x : Slot H} (h : s.Orderly)
    (hx : s.slot? p.1 p.2 = some x) (o : Except (Failure H) (AnyInstance H)) :
    (s.setSlot p.1 p.2 (.settled o)).Orderly := by
  refine h.of_lookups (fun c => ?_) (h.contained_of_fixed fun c => fixed_setSlot ..)
    fun q t _ hq => ?_
  · rw [graph_setSlot]; exact h.acyclic c
  · by_cases hqp : q = p
    · subst hqp
      rw [slot?_setSlot_self hx] at hq
      cases hq
    · rw [slot?_setSlot_ne hqp] at hq
      exact .inl ⟨hq, fun b => by rw [graph_setSlot]⟩

/-! New contexts, and those that hold them -/

theorem graph_of_fresh {c : Scope} {x : Context H} (hx : s.context? c = some x)
    (hw : x.waiting = {}) : s.graph c = {} := by simp [graph, hx, hw]

theorem openContext (h : s.OrderlyBut skip) {c : Scope} {x : Context H}
    (hp : x.provider.SelfContained) (hs : x.slots = .empty) (hw : x.waiting = {})
    (hc : ∀ d, s'.context? d = if d = c then some x else s.context? d) : s'.OrderlyBut skip := by
  have same : ∀ d, d ≠ c → s'.context? d = s.context? d := fun d hd => by rw [hc, if_neg hd]
  have new : s'.context? c = some x := by rw [hc, if_pos rfl]
  refine h.of_lookups (fun d => ?_) (fun d y hy => ?_) fun p t _ hr => ?_
  · by_cases hd : d = c
    · rw [hd, graph_of_fresh new hw]; exact WaitGraph.acyclic_empty
    · rw [graph, same d hd]; exact h.acyclic d
  · by_cases hd : d = c
    · rw [hd, new] at hy; cases hy; exact hp
    · rw [same d hd] at hy; exact h.contained d y hy
  · by_cases hd : p.1 = c
    · rw [hd, slot?_of_context? new, hs] at hr
      cases hr
    · rw [slot?, same _ hd] at hr
      exact .inl ⟨hr, fun b => by rw [graph, graph, same _ hd]⟩

theorem openBase (h : s.OrderlyBut skip) {p : Provider H} (hp : p.SelfContained) (g : Signal) :
    (s.openBase p g).2.OrderlyBut skip :=
  h.openContext hp rfl rfl (context?_openBase s p g)

theorem layer (h : s.OrderlyBut skip) {p : Provider H} (hp : p.SelfContained) (c : Scope) :
    (s.layer c p).2.OrderlyBut skip := by
  rcases layer_cases s c p with same | ⟨-, below, -, new⟩
  · rwa [same]
  · exact h.openContext hp rfl rfl new

theorem changeHandles (h : s.OrderlyBut skip) (c : Scope) (f : Nat → Nat) :
    (s.changeHandles c f).OrderlyBut skip := by
  refine h.of_lookups (fun d => ?_) (h.contained_of_fixed fun d => fixed_changeHandles ..)
    fun p t _ hr => ?_
  · rw [graph_changeHandles]
    exact h.acyclic d
  · rw [slot?_changeHandles] at hr
    exact .inl ⟨hr, fun b => by rw [graph_changeHandles]⟩

end Store.OrderlyBut

/-! Runs -/

/-- The order of a store and its clients, who wait for nothing in a factory's name. -/
structure Traffic.Orderly (σ : Traffic H) : Prop where
  store : σ.store.Orderly
  direct : ∀ t ∈ σ.clients, t.Asks Access.Direct
  unnamed : ∀ t ∈ σ.clients, ∀ w ∈ t.waits, w.requester = none

namespace Task.Acts

variable {s s' : Store H} {t t' : Task H} {d : Deed H}

/-- The requests that a client begins are nobody's waits. -/
theorem unnamed (h : Acts s t d s' t') (ha : t.Asks Access.Direct)
    (hw : ∀ w ∈ t.waits, w.requester = none) : ∀ w ∈ t'.waits, w.requester = none := by
  intro w hm
  rcases h.mem_waits hm with hm | hm
  · exact hw w hm
  · cases d with
    | begun via key v invokes =>
      cases List.mem_singleton.1 hm
      have direct := h.asked ha rfl
      cases Store.request_waiting h.effect.1 with
      | counted _ hr =>
        cases via with
        | context => cases hr
        | resolver => cases direct
      | plain => rfl
    | _ => cases hm

/-- The requests that a factory begins are waits of its own. -/
theorem of (h : Acts s t d s' t') {p : Place} (ha : t.Asks (Access.Own p))
    (hw : ∀ w ∈ t.waits, w.Of p) : ∀ w ∈ t'.waits, w.Of p := by
  intro w hm
  rcases h.mem_waits hm with hm | hm
  · exact hw w hm
  · cases d with
    | begun via key v invokes =>
      cases List.mem_singleton.1 hm
      have own := h.asked ha rfl
      cases via with
      | context => cases own
      | resolver r =>
        cases own
        cases Store.request_waiting h.effect.1 with
        | counted _ hr => cases hr; exact .inl ⟨rfl, rfl⟩
        | plain hs hr =>
          rcases Store.depth_of_serving hs with hd | hd
          · cases hr hd
          · exact .inr ⟨hd, rfl⟩
    | _ => cases hm

end Task.Acts

namespace Traffic.Orderly

variable {σ τ : Traffic H} {e : Happening H} {L : List (Happening H)}

theorem step (h : σ.Orderly) (hs : Step σ e τ) (he : e.Lawful) : τ.Orderly := by
  cases hs with
  | @client s cs i t d s' t' ht ha =>
    have hm := List.mem_of_getElem? ht
    have hd := h.direct t hm
    have hn := h.unnamed t hm
    -- a client's requests are nobody's waits, so none that is over was counted for a factory
    constructor
    · refine h.store.effect ha.effect fun w hw p b _ he => ?_
      have := hn w (ha.mem_of_ended hw)
      rw [he] at this
      cases this
    · intro u hu
      rcases List.mem_or_eq_of_mem_set hu with hu | rfl
      · exact h.direct u hu
      · exact ha.asks hd
    · intro u hu
      rcases List.mem_or_eq_of_mem_set hu with hu | rfl
      · exact h.unnamed u hu
      · exact ha.unnamed hd hn
  | @factory s cs p t d s' t' ht ha =>
    have own := h.store.own p t id ht
    have waits := h.store.waits p t id ht
    refine ⟨?_, h.direct, h.unnamed⟩
    -- until its slot holds what it goes on with, the factory is out of step with the graph
    have rest : s'.OrderlyBut (· = p) := by
      refine (h.store.weaken fun _ hf => hf.elim).effect ha.effect fun w hw q b hq he => ?_
      rcases waits w (ha.mem_of_ended hw) with ⟨hc, hr⟩ | ⟨-, hr⟩
      · rw [he] at hc hr
        exact hq (Prod.ext hc (Option.some.inj hr))
      · rw [he] at hr
        cases hr
    refine rest.setSlot_running (ha.effect.slot?_of_some ht) (ha.asks own) (ha.of own waits) ?_
    intro b
    have counted : t.waits.count ⟨p.1, b, some p.2⟩ ≤ (s.graph p.1).count p.2 b :=
      h.store.counted p t id ht b
    have change := ha.count_waits ⟨p.1, b, some p.2⟩
    have graph := ha.effect.count p.1 p.2 b
    omega
  | settle ht => exact ⟨h.store.setSlot_settled ht _, h.direct, h.unnamed⟩
  | arrive =>
    refine ⟨h.store, fun t hm => ?_, fun t hm => ?_⟩
    · rcases List.mem_append.1 hm with hm | hm
      · exact h.direct t hm
      · rw [List.mem_singleton.1 hm]; exact he
    · rcases List.mem_append.1 hm with hm | hm
      · exact h.unnamed t hm
      · rw [List.mem_singleton.1 hm]; exact fun w hw => nomatch hw
  | @leave s cs i t ht =>
    have hn := h.unnamed t (List.mem_of_getElem? ht)
    refine ⟨?_, fun u hu => h.direct u (List.mem_of_mem_eraseIdx hu),
      fun u hu => h.unnamed u (List.mem_of_mem_eraseIdx hu)⟩
    -- nothing that a client waits for is counted, so dropping it changes nothing
    have same : t.drop s = s := Store.finishWaits_of_none hn s
    rw [same]
    exact h.store
  | openBase => exact ⟨h.store.openBase he _, h.direct, h.unnamed⟩
  | openLayer => exact ⟨h.store.layer he _, h.direct, h.unnamed⟩
  | hold => exact ⟨h.store.changeHandles _ (· + 1), h.direct, h.unnamed⟩
  | release => exact ⟨h.store.changeHandles _ (· - 1), h.direct, h.unnamed⟩
  | elsewhere hs => exact ⟨h.store.sameContexts hs, h.direct, h.unnamed⟩

theorem run (h : σ.Orderly) (hr : Run σ L τ) (hL : ∀ e ∈ L, e.Lawful) : τ.Orderly := by
  induction hr with
  | nil => exact h
  | snoc _ hs ih =>
    have before := ih fun e he => hL e (List.mem_append_left _ he)
    exact before.step hs (hL _ (List.mem_append_right _ (List.mem_singleton.2 rfl)))

theorem empty {s : Store H} (h : s.contexts = .empty) : Orderly ⟨s, []⟩ := by
  have none : ∀ c, s.context? c = none := fun c => by rw [Store.context?, h]; rfl
  have noSlot : ∀ (p : Place) (t : Task H), s.slot? p.1 p.2 ≠ some (.running t) := fun p t hr => by
    rw [Store.slot?, none p.1] at hr
    cases hr
  refine ⟨?_, fun _ ht => (List.not_mem_nil ht).elim, fun _ ht => (List.not_mem_nil ht).elim⟩
  constructor
  · intro c
    show (s.graph c).Acyclic
    rw [Store.graph, none c]
    exact WaitGraph.acyclic_empty
  · intro c x hx
    have : s.context? c = some x := hx
    rw [none c] at this
    cases this
  · exact fun p t _ hr => (noSlot p t hr).elim
  · exact fun p t _ hr => (noSlot p t hr).elim
  · exact fun p t _ hr => (noSlot p t hr).elim

end Traffic.Orderly

end ScopedEffects
