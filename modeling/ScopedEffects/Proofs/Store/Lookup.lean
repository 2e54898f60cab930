import Mathlib.Tactic
import ScopedEffects.Resolution

/-! What the operations on a store do to its contexts: to what a context is made of, to the slot of
a key, and to the graph of waits. Later proofs see the contexts of a store through these lookups
alone. -/

namespace ScopedEffects

def Scope.depth (c : Scope) : Nat := c.layers.length

namespace Store

variable {H : Host}

/-- The waits that a context knows of. -/
def graph (s : Store H) (c : Scope) : WaitGraph := ((s.context? c).map Context.waiting).getD {}

/-- The same contexts, and the same supply of numbers for new ones. -/
structure SameContexts (s s' : Store H) : Prop where
  contexts : s'.contexts = s.contexts
  bases : s'.bases = s.bases

namespace SameContexts

variable {s s' : Store H}

theorem refl (s : Store H) : SameContexts s s := ⟨rfl, rfl⟩

theorem trans {s'' : Store H} (h : SameContexts s s') (h' : SameContexts s' s'') :
    SameContexts s s'' := ⟨h'.contexts.trans h.contexts, h'.bases.trans h.bases⟩

theorem context? (h : SameContexts s s') (c : Scope) : s'.context? c = s.context? c := by
  unfold Store.context?
  rw [h.contexts]

theorem slot? (h : SameContexts s s') (c : Scope) (k : Key) : s'.slot? c k = s.slot? c k := by
  unfold Store.slot?
  rw [h.context? c]

theorem graph (h : SameContexts s s') (c : Scope) : s'.graph c = s.graph c := by
  unfold Store.graph
  rw [h.context? c]

end SameContexts

theorem sameContexts_record (s : Store H) (e : Event) : SameContexts s (s.record e) := ⟨rfl, rfl⟩

theorem sameContexts_now (s : Store H) (now : Clock) : SameContexts s { s with now := now } :=
  ⟨rfl, rfl⟩

theorem sameContexts_fire (s : Store H) (g : Signal) : SameContexts s (s.fire g) := by
  unfold fire
  split <;> exact ⟨rfl, rfl⟩

/-! Contexts -/

theorem context?_changeContext (s : Store H) (c d : Scope) (f : Context H → Context H) :
    (s.changeContext c f).context? d = if d = c then (s.context? d).map f else s.context? d :=
  OrderedMap.get?_modify ..

theorem context?_setSlot (s : Store H) (c d : Scope) (k : Key) (x : Slot H) :
    (s.setSlot c k x).context? d =
      if d = c then (s.context? d).map fun y => { y with slots := y.slots.set k x }
      else s.context? d := context?_changeContext ..

theorem slot?_of_context? {s : Store H} {c : Scope} {x : Context H} (h : s.context? c = some x)
    (k : Key) : s.slot? c k = x.slots.get? k := by simp [slot?, h]

theorem exists_context?_of_slot? {s : Store H} {c : Scope} {k : Key} {x : Slot H}
    (h : s.slot? c k = some x) : ∃ y, s.context? c = some y ∧ y.slots.get? k = some x :=
  Option.bind_eq_some_iff.1 h

theorem slot?_changeContext {f : Context H → Context H} (hf : ∀ x, (f x).slots = x.slots)
    (s : Store H) (c d : Scope) (k : Key) : (s.changeContext c f).slot? d k = s.slot? d k := by
  unfold slot?
  rw [context?_changeContext]
  by_cases hd : d = c
  · rw [if_pos hd]
    cases s.context? d with
    | none => rfl
    | some x => simp [hf]
  · rw [if_neg hd]

theorem graph_changeContext {f : Context H → Context H} (hf : ∀ x, (f x).waiting = x.waiting)
    (s : Store H) (c d : Scope) : (s.changeContext c f).graph d = s.graph d := by
  unfold graph
  rw [context?_changeContext]
  by_cases hd : d = c
  · rw [if_pos hd]
    cases s.context? d with
    | none => rfl
    | some x => simp [hf]
  · rw [if_neg hd]

def changeHandles (s : Store H) (c : Scope) (f : Nat → Nat) : Store H :=
  s.changeContext c fun x => { x with handles := f x.handles }

theorem slot?_changeHandles (s : Store H) (c d : Scope) (f : Nat → Nat) (k : Key) :
    (s.changeHandles c f).slot? d k = s.slot? d k :=
  slot?_changeContext (f := fun x => { x with handles := f x.handles }) (fun _ => rfl) s c d k

theorem graph_changeHandles (s : Store H) (c d : Scope) (f : Nat → Nat) :
    (s.changeHandles c f).graph d = s.graph d :=
  graph_changeContext (f := fun x => { x with handles := f x.handles }) (fun _ => rfl) s c d

theorem slot?_setSlot {s : Store H} {c : Scope} {z : Context H} (hz : s.context? c = some z)
    (k : Key) (x : Slot H) (d : Scope) (j : Key) :
    (s.setSlot c k x).slot? d j = if d = c ∧ j = k then some x else s.slot? d j := by
  unfold slot?
  rw [context?_setSlot]
  by_cases hd : d = c
  · subst hd
    rw [if_pos rfl, hz]
    simp [OrderedMap.get?_set]
  · simp [hd]

theorem graph_setSlot (s : Store H) (c d : Scope) (k : Key) (x : Slot H) :
    (s.setSlot c k x).graph d = s.graph d :=
  graph_changeContext (f := fun y => { y with slots := y.slots.set k x }) (fun _ => rfl) s c d

/-! New contexts -/

theorem context?_openBase (s : Store H) (p : Provider H) (g : Signal) (d : Scope) :
    (s.openBase p g).2.context? d =
      if d = ⟨s.bases.next, []⟩ then some { provider := p, signal := g, handles := 1 }
      else s.context? d := OrderedMap.get?_set ..

/-- A layer is there already, or it is opened; no other context changes. -/
theorem layer_cases (s : Store H) (c : Scope) (p : Provider H) :
    (s.layer c p).2 = s ∨ s.context? (c.push p.identity) = none ∧
      ∃ below, s.context? c = some below ∧ ∀ d, (s.layer c p).2.context? d =
        if d = c.push p.identity then some { provider := p, signal := below.signal }
        else s.context? d := by
  unfold layer
  dsimp only
  split
  · rename_i below hn hb
    exact .inr ⟨hn, below, hb, fun d => OrderedMap.get?_set ..⟩
  · exact .inl rfl

theorem bases_layer (s : Store H) (c : Scope) (p : Provider H) :
    (s.layer c p).2.bases = s.bases := by
  unfold layer
  dsimp only
  split <;> rfl

/-! The end of a request -/

theorem finishWait_none {s : Store H} {w : Wait} (h : w.requester = none) : s.finishWait w = s := by
  simp [finishWait, h]

/-- The end of a request of `a` changes the context that serves it at most, and in its graph alone.
-/
theorem context?_finishWait (s : Store H) (w : Wait) (d : Scope) :
    (s.finishWait w).context? d = s.context? d ∨
      ∃ a, w.requester = some a ∧ d = w.scope ∧
        (s.finishWait w).context? d =
          (s.context? d).map fun x => { x with waiting := x.waiting.remove a w.key } := by
  unfold finishWait
  cases ha : w.requester with
  | none => exact .inl rfl
  | some a =>
    by_cases hl : s.lives w.scope = true
    · simp only [hl, if_true, context?_changeContext]
      by_cases hd : d = w.scope
      · exact .inr ⟨a, rfl, hd, by rw [if_pos hd]⟩
      · exact .inl (by rw [if_neg hd])
    · exact .inl (by simp [hl])

theorem bases_finishWait (s : Store H) (w : Wait) : (s.finishWait w).bases = s.bases := by
  unfold finishWait
  split
  · rfl
  · split <;> rfl

theorem slot?_finishWait (s : Store H) (w : Wait) (d : Scope) (k : Key) :
    (s.finishWait w).slot? d k = s.slot? d k := by
  unfold slot?
  rcases context?_finishWait s w d with h | ⟨a, -, -, h⟩
  · rw [h]
  · rw [h]
    cases s.context? d <;> rfl

theorem graph_finishWait (s : Store H) (w : Wait) (d : Scope) :
    (s.finishWait w).graph d = s.graph d ∨
      ∃ a, w.requester = some a ∧ d = w.scope ∧
        (s.finishWait w).graph d = (s.graph d).remove a w.key := by
  unfold graph
  rcases context?_finishWait s w d with h | ⟨a, ha, hd, h⟩
  · exact .inl (by rw [h])
  · refine .inr ⟨a, ha, hd, ?_⟩
    rw [h]
    cases s.context? d <;> rfl

/-! Requests -/

/-- A request is served at the context it is made at or at one below it, and that context binds the
key. -/
theorem servingAt_found {s : Store H} {base : Nat} {k : Key} {layers : List Nat} {d : Scope}
    (h : s.servingAt base k layers = .found d) :
    d.base = base ∧ d.layers <:+ layers ∧
      ∃ x, s.context? d = some x ∧ x.provider.contains k = true := by
  have binds : ∀ ls, servingAt.bound s base k ls = true →
      ∃ x, s.context? ⟨base, ls⟩ = some x ∧ x.provider.contains k = true := by
    intro ls hb
    unfold servingAt.bound at hb
    cases hx : s.context? ⟨base, ls⟩ with
    | none => simp [hx] at hb
    | some x => exact ⟨x, rfl, by simpa [hx] using hb⟩
  induction layers with
  | nil =>
    rw [servingAt] at h
    split at h
    · rename_i hb
      cases h
      exact ⟨rfl, List.suffix_refl _, binds [] hb⟩
    · cases h
  | cons p below ih =>
    rw [servingAt] at h
    split at h
    · rename_i hb
      cases h
      exact ⟨rfl, List.suffix_refl _, binds _ hb⟩
    · split at h
      · obtain ⟨hd, hs, hx⟩ := ih h
        exact ⟨hd, hs.trans (List.suffix_cons p below), hx⟩
      · cases h

theorem serving_found {s : Store H} {c d : Scope} {k : Key} (h : s.serving c k = .found d) :
    ∃ x, s.context? d = some x ∧ x.provider.contains k = true := (servingAt_found h).2.2

theorem depth_of_serving {s : Store H} {c d : Scope} {k : Key} (h : s.serving c k = .found d) :
    d = c ∨ d.depth < c.depth := by
  obtain ⟨hb, hs, -⟩ := servingAt_found h
  rcases Nat.lt_or_eq_of_le hs.length_le with hl | hl
  · exact .inr hl
  · have : d.layers = c.layers := hs.eq_of_length hl
    exact .inl (by cases c; cases d; simp_all)

/-- Joining a resolution changes no context, or it invokes the factory. -/
theorem join_cases (s : Store H) (c : Scope) (k : Key) :
    SameContexts s (s.join c k) ∧ ((s.slot? c k).isSome ∨
      ∀ x, s.context? c = some x → x.provider.contains k = false) ∨
    ∃ x f, s.context? c = some x ∧ s.slot? c k = none ∧ x.provider.factory? k = some f ∧
      s.join c k = (s.record (.invokingFactory k)).setSlot c k
        (.running (.run (f.program ⟨c, x.signal, k⟩))) := by
  unfold join
  cases hx : s.context? c with
  | none => exact .inl ⟨.refl s, .inr fun _ h => nomatch h⟩
  | some x =>
    have hs : s.slot? c k = x.slots.get? k := slot?_of_context? hx k
    by_cases hc : x.slots.contains k = true
    · simp only [hc, if_true]
      refine .inl ⟨sameContexts_record .., .inl ?_⟩
      rw [hs, OrderedMap.get?_isSome, hc]
    · have hn : s.slot? c k = none := by
        rw [hs, ← Option.not_isSome_iff_eq_none, OrderedMap.get?_isSome]
        exact hc
      simp only [hc, Bool.false_eq_true, if_false]
      cases hf : x.provider.factory? k with
      | none =>
        refine .inl ⟨.refl s, .inr fun y hy => ?_⟩
        cases hy
        have hf : x.provider.bindings.get? k = none := hf
        rw [Provider.contains, ← OrderedMap.get?_isSome, hf]
        rfl
      | some f => exact .inr ⟨x, f, rfl, hn, hf, rfl⟩

theorem graph_join (s : Store H) (c d : Scope) (k : Key) : (s.join c k).graph d = s.graph d := by
  rcases join_cases s c k with ⟨h, -⟩ | ⟨x, f, -, -, -, h⟩
  · exact h.graph d
  · rw [h, graph_setSlot]
    rfl

theorem slot?_join_of_some {s : Store H} {d : Scope} {j : Key} {x : Slot H}
    (h : s.slot? d j = some x) (c : Scope) (k : Key) : (s.join c k).slot? d j = some x := by
  rcases join_cases s c k with ⟨h', -⟩ | ⟨y, f, hy, hn, -, h'⟩
  · rw [h'.slot? d j, h]
  · have hy : (s.record (.invokingFactory k)).context? c = some y := hy
    rw [h', slot?_setSlot hy, if_neg]
    · exact h
    · rintro ⟨rfl, rfl⟩
      rw [hn] at h
      cases h

theorem slot?_of_join {s : Store H} {c d : Scope} {k j : Key} {x : Slot H}
    (h : (s.join c k).slot? d j = some x) :
    s.slot? d j = some x ∨ d = c ∧ j = k ∧ s.slot? c k = none ∧
      ∃ y f, s.context? c = some y ∧ y.provider.factory? k = some f ∧
        x = .running (.run (f.program ⟨c, y.signal, k⟩)) := by
  rcases join_cases s c k with ⟨h', -⟩ | ⟨y, f, hy, hn, hf, h'⟩
  · exact .inl (by rw [← h'.slot? d j, h])
  · have hy' : (s.record (.invokingFactory k)).context? c = some y := hy
    rw [h', slot?_setSlot hy'] at h
    split at h
    · rename_i hd
      cases h
      exact .inr ⟨hd.1, hd.2, hn, y, f, hy, hf, rfl⟩
    · exact .inl h

def countWait (s : Store H) (c : Scope) (a b : Key) : Store H :=
  s.changeContext c fun x => { x with waiting := x.waiting.add a b }

theorem slot?_countWait (s : Store H) (c d : Scope) (a b k : Key) :
    (s.countWait c a b).slot? d k = s.slot? d k :=
  slot?_changeContext (f := fun x => { x with waiting := x.waiting.add a b }) (fun _ => rfl) s c d k

theorem graph_countWait {s : Store H} {c : Scope} {x : Context H} (h : s.context? c = some x)
    (d : Scope) (a b : Key) :
    (s.countWait c a b).graph d = if d = c then (s.graph d).add a b else s.graph d := by
  unfold graph countWait
  rw [context?_changeContext]
  by_cases hd : d = c
  · subst hd; simp [h]
  · simp [hd]

end Store

/-- The context through which an instance is requested. -/
def Access.scope : Access → Scope
  | .context c => c
  | .resolver r => r.scope

/-- The key whose factory makes a request, when it is made through a resolver. -/
def Access.requester : Access → Option Key
  | .context _ => none
  | .resolver r => some r.key

namespace Store

variable {H : Host} {s s' : Store H} {via : Access} {key : Key}

/-- What a request that waits has done: it is counted when it is served by the context of its own
resolver, and it has joined the resolution. -/
inductive Admitted (s : Store H) (via : Access) (key : Key) : Wait → Store H → Prop
  | counted {a : Key} (hs : s.serving via.scope key = .found via.scope) (ha : via.requester = some a)
      (hc : (s.graph via.scope).cycleThrough a key = none) :
      Admitted s via key ⟨via.scope, key, some a⟩ ((s.countWait via.scope a key).join via.scope key)
  | plain {d : Scope} (hs : s.serving via.scope key = .found d)
      (ha : d = via.scope → via.requester = none) : Admitted s via key ⟨d, key, none⟩ (s.join d key)

theorem enlist_waiting {c : Scope} {a : Option Key} {w : Wait} {x : Context H}
    (hx : s.context? c = some x) (h : s.enlist c key a = (.waiting w, s')) :
    (a = none ∧ w = ⟨c, key, none⟩ ∧ s' = s.join c key) ∨
      ∃ b, a = some b ∧ (s.graph c).cycleThrough b key = none ∧ w = ⟨c, key, some b⟩ ∧
        s' = (s.countWait c b key).join c key := by
  unfold enlist at h
  cases a with
  | none =>
    cases h
    exact .inl ⟨rfl, rfl, rfl⟩
  | some b =>
    have hg : s.graph c = x.waiting := by simp [graph, hx]
    simp only [hx] at h
    cases hc : x.waiting.cycleThrough b key with
    | some cycle => simp [hc] at h
    | none =>
      simp only [hc] at h
      cases h
      exact .inr ⟨b, rfl, hg ▸ hc, rfl, rfl⟩

theorem resolve_waiting {c : Scope} {a : Option Key} {w : Wait}
    (h : s.resolve c key a = (.waiting w, s')) :
    ∃ d, s.serving c key = .found d ∧
      (((d = c → a = none) ∧ w = ⟨d, key, none⟩ ∧ s' = s.join d key) ∨
        ∃ b, d = c ∧ a = some b ∧ (s.graph c).cycleThrough b key = none ∧ w = ⟨c, key, some b⟩ ∧
          s' = (s.countWait c b key).join c key) := by
  unfold resolve at h
  cases hs : s.serving c key with
  | unbound => simp [hs] at h
  | gone => simp [hs] at h
  | found d =>
    simp only [hs] at h
    obtain ⟨x, hx, -⟩ := serving_found hs
    refine ⟨d, rfl, ?_⟩
    rcases enlist_waiting hx h with ⟨ha, hw, he⟩ | ⟨b, ha, hc, hw, he⟩
    · exact .inl ⟨fun hd => by rwa [if_pos hd] at ha, hw, he⟩
    · by_cases hd : d = c
      · subst hd
        rw [if_pos rfl] at ha
        exact .inr ⟨b, rfl, ha, hc, hw, he⟩
      · rw [if_neg hd] at ha
        cases ha

theorem request_waiting {w : Wait} (h : s.request via key = (.waiting w, s')) :
    Admitted s via key w s' := by
  have admitted : s.resolve via.scope key via.requester = (.waiting w, s') →
      Admitted s via key w s' := by
    intro h
    obtain ⟨d, hs, ⟨ha, rfl, rfl⟩ | ⟨b, rfl, ha, hc, rfl, rfl⟩⟩ := resolve_waiting h
    · exact .plain hs ha
    · exact .counted hs ha hc
  cases via with
  | context c => exact admitted h
  | resolver r =>
    unfold request at h
    by_cases hl : s.lives r.scope = true
    · simp only [hl, if_true] at h
      exact admitted h
    · simp [hl] at h

inductive Refused (s : Store H) (via : Access) (key : Key) : Failure H → Prop
  | circular {a : Key} {cycle : List Key} (hs : s.serving via.scope key = .found via.scope)
      (ha : via.requester = some a)
      (hc : (s.graph via.scope).cycleThrough a key = some cycle) :
      Refused s via key (.circularDependency cycle)
  | unbound (hs : s.serving via.scope key = .unbound) : Refused s via key (.tokenNotProvided key)
  | gone (hs : s.serving via.scope key = .gone) : Refused s via key .aborted
  | dead {r : Resolver} (hr : via = .resolver r) (hl : s.lives r.scope = false) :
      Refused s via key .aborted

theorem resolve_refused {c : Scope} {a : Option Key} {f : Failure H}
    (h : s.resolve c key a = (.refused f, s')) :
    SameContexts s s' ∧
      ((∃ b cycle, s.serving c key = .found c ∧ a = some b ∧
          (s.graph c).cycleThrough b key = some cycle ∧ f = .circularDependency cycle) ∨
        s.serving c key = .unbound ∧ f = .tokenNotProvided key ∨
        s.serving c key = .gone ∧ f = .aborted) := by
  unfold resolve at h
  cases hs : s.serving c key with
  | unbound =>
    simp only [hs] at h
    cases h
    exact ⟨.refl s, .inr (.inl ⟨rfl, rfl⟩)⟩
  | gone =>
    simp only [hs] at h
    cases h
    exact ⟨.refl s, .inr (.inr ⟨rfl, rfl⟩)⟩
  | found d =>
    obtain ⟨x, hx, -⟩ := serving_found hs
    have hg : s.graph d = x.waiting := by simp [graph, hx]
    simp only [hs, enlist, hx] at h
    by_cases hd : d = c
    · subst hd
      rw [if_pos rfl] at h
      cases a with
      | none => simp at h
      | some b =>
        cases hc : x.waiting.cycleThrough b key with
        | none => simp [hc] at h
        | some cycle =>
          simp only [hc] at h
          cases h
          exact ⟨sameContexts_record .., .inl ⟨b, cycle, rfl, rfl, hg ▸ hc, rfl⟩⟩
    · simp [hd] at h

theorem request_refused {f : Failure H} (h : s.request via key = (.refused f, s')) :
    SameContexts s s' ∧ Refused s via key f := by
  have refused : s.resolve via.scope key via.requester = (.refused f, s') →
      SameContexts s s' ∧ Refused s via key f := by
    intro h
    obtain ⟨same, ⟨b, cycle, hs, ha, hc, rfl⟩ | ⟨hs, rfl⟩ | ⟨hs, rfl⟩⟩ := resolve_refused h
    · exact ⟨same, .circular hs ha hc⟩
    · exact ⟨same, .unbound hs⟩
    · exact ⟨same, .gone hs⟩
  cases via with
  | context c => exact refused h
  | resolver r =>
    unfold request at h
    by_cases hl : s.lives r.scope = true
    · simp only [hl, if_true] at h
      exact refused h
    · simp only [hl, Bool.false_eq_true, if_false] at h
      cases h
      exact ⟨.refl s, .dead rfl (by simpa using hl)⟩

end Store

end ScopedEffects
