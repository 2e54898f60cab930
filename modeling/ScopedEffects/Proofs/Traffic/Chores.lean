import ScopedEffects.Proofs.Execution.Chores
import ScopedEffects.Proofs.Traffic.Polls

/-! What is left to do in a task, and for the resolutions of a store. A resolution that has begun has
its task, and one that has not has its factory, which was a chore of the context from the start. A
task that moves has fewer chores left, together with the resolutions that it drives. -/

namespace ScopedEffects

variable {H : Host} {s s' : Store H}

/-! Tasks -/

namespace Task

def chores : Task H → Multiset (Chore H)
  | run p => {.run p}
  | sleeping _ next => {.resume next}
  | watching _ next => {.resume next}
  | waiting _ next => {.answer next}
  | both l r _ next => .join next ::ₘ (l.chores + r.chores)
  | first l r _ next => .pick next ::ₘ (l.chores + r.chores)

theorem exists_chore (t : Task H) : ∃ c, c ∈ t.chores := by
  cases t with
  | both | first => exact ⟨_, Multiset.mem_cons_self ..⟩
  | _ => exact ⟨_, Multiset.mem_singleton_self _⟩

end Task

/-! Stores -/

namespace Store

/-- What is left to do for the resolution of a place: its task, or its factory is yet to be invoked. -/
def choresAt (s : Store H) (p : Place) : Multiset (Chore H) :=
  match s.slot? p.1 p.2 with
  | some (.running t) => t.chores
  | some (.settled _) => 0
  | none =>
    match (s.context? p.1).bind fun x => x.provider.factory? p.2 with
    | some f => {.invoke f}
    | none => 0

def bound (s : Store H) : List Place :=
  s.contexts.entries.flatMap fun e => (e.2.slots.keys ++ e.2.provider.keys).map fun k => (e.1, k)

/-- What is left to do for the resolutions, those in `busy` apart. -/
def chores (s : Store H) (busy : List Place) : Multiset (Chore H) :=
  ∑ p ∈ s.bound.toFinset with p ∉ busy, s.choresAt p

variable {p : Place} {busy : List Place}

theorem choresAt_running {t : Task H} (h : s.slot? p.1 p.2 = some (.running t)) :
    s.choresAt p = t.chores := by
  unfold choresAt
  rw [h]

theorem choresAt_settled {o : Except (Failure H) (AnyInstance H)}
    (h : s.slot? p.1 p.2 = some (.settled o)) : s.choresAt p = 0 := by
  unfold choresAt
  rw [h]

theorem choresAt_congr (hs : s'.slot? p.1 p.2 = s.slot? p.1 p.2) (hc : s.Fixed s' p.1) :
    s'.choresAt p = s.choresAt p := by
  have bind : ∀ o : Option (Context H), (o.bind fun x => x.provider.factory? p.2) =
      (o.map fun x => (x.provider, x.signal)).bind fun y => y.1.factory? p.2 := by
    intro o
    cases o <;> rfl
  unfold choresAt
  unfold Fixed at hc
  rw [hs, bind, hc, ← bind]

theorem mem_bound_of_context? {x : Context H} (hx : s.context? p.1 = some x)
    (h : p.2 ∈ x.slots.keys ∨ p.2 ∈ x.provider.keys) : p ∈ s.bound := by
  unfold context? OrderedMap.get? at hx
  obtain ⟨⟨c, y⟩, hf, he⟩ := Option.map_eq_some_iff.1 hx
  have hc : c = p.1 := by simpa using List.find?_some hf
  have hy : y = x := he
  subst hy
  have entry : (c, y) ∈ s.contexts.entries := List.mem_of_find?_eq_some hf
  exact List.mem_flatMap.2 ⟨(c, y), entry, List.mem_map.2 ⟨p.2, List.mem_append.2 h, Prod.ext hc rfl⟩⟩

theorem choresAt_eq_zero (h : p ∉ s.bound) : s.choresAt p = 0 := by
  unfold choresAt
  split
  · rename_i hs
    obtain ⟨x, hx, hk⟩ := exists_context?_of_slot? hs
    exact absurd (mem_bound_of_context? hx (.inl (OrderedMap.mem_keys_iff.2 ⟨_, hk⟩))) h
  · rfl
  · split
    · rename_i hf
      obtain ⟨x, hx, hk⟩ := Option.bind_eq_some_iff.1 hf
      exact absurd (mem_bound_of_context? hx (.inr (OrderedMap.mem_keys_iff.2 ⟨_, hk⟩))) h
    · rfl

theorem chores_eq_sum {places : Finset Place} (h : s.bound.toFinset ⊆ places) (busy : List Place) :
    s.chores busy = ∑ p ∈ places with p ∉ busy, s.choresAt p := by
  refine Finset.sum_subset (Finset.filter_subset_filter _ h) fun p hp hn => choresAt_eq_zero ?_
  intro inside
  exact hn (Finset.mem_filter.2 ⟨List.mem_toFinset.2 inside, (Finset.mem_filter.1 hp).2⟩)

/-- Both are sums over the same places. -/
theorem exists_chores_eq_sum (s s' : Store H) (busy : List Place) : ∃ places : Finset Place,
    s.chores busy = ∑ p ∈ places with p ∉ busy, s.choresAt p ∧
      s'.chores busy = ∑ p ∈ places with p ∉ busy, s'.choresAt p :=
  ⟨s.bound.toFinset ∪ s'.bound.toFinset, chores_eq_sum Finset.subset_union_left busy,
    chores_eq_sum Finset.subset_union_right busy⟩

/-- One resolution, and the others. -/
theorem chores_eq_add (h : p ∉ busy) (s : Store H) :
    s.chores busy = s.choresAt p + s.chores (p :: busy) := by
  have split : {q ∈ insert p s.bound.toFinset | q ∉ busy} =
      insert p {q ∈ s.bound.toFinset | q ∉ p :: busy} := by
    ext q
    simp only [Finset.mem_filter, Finset.mem_insert, List.mem_cons, not_or]
    by_cases hq : q = p
    · simp [hq, h]
    · simp [hq]
  have apart : p ∉ {q ∈ s.bound.toFinset | q ∉ p :: busy} := fun hp =>
    (Finset.mem_filter.1 hp).2 List.mem_cons_self
  rw [chores_eq_sum (Finset.subset_insert p _), split, Finset.sum_insert apart]
  rfl

theorem chores_noHeavier (h : ∀ p, NoHeavier (s'.choresAt p) (s.choresAt p)) (busy : List Place) :
    NoHeavier (s'.chores busy) (s.chores busy) := by
  obtain ⟨places, before, after⟩ := exists_chores_eq_sum s s' busy
  rw [before, after]
  exact Finset.sum_hom_rel (NoHeavier.refl 0) fun q _ _ rest => (h q).add rest

theorem chores_congr (h : ∀ p, p ∉ busy → s'.choresAt p = s.choresAt p) :
    s'.chores busy = s.chores busy := by
  obtain ⟨places, before, after⟩ := exists_chores_eq_sum s s' busy
  rw [before, after]
  exact Finset.sum_congr rfl fun q hq => h q (Finset.mem_filter.1 hq).2

theorem SameContexts.chores (h : s.SameContexts s') (busy : List Place) :
    s'.chores busy = s.chores busy :=
  chores_congr fun p _ => choresAt_congr (h.slot? p.1 p.2) (h.fixed p.1)

theorem chores_finishWait (s : Store H) (w : Wait) (busy : List Place) :
    (s.finishWait w).chores busy = s.chores busy :=
  chores_congr fun p _ => choresAt_congr (slot?_finishWait s w p.1 p.2) (fixed_finishWait s w p.1)

theorem chores_finishWaits (ws : List Wait) (s : Store H) (busy : List Place) :
    (ws.foldl finishWait s).chores busy = s.chores busy :=
  chores_congr fun p _ => choresAt_congr (slot?_finishWaits ws s p.1 p.2) (fixed_finishWaits ws s p.1)

/-- What a resolution becomes is of no concern to the others. -/
theorem chores_setSlot (hp : p ∉ busy) (s : Store H) (x : Slot H) :
    (s.setSlot p.1 p.2 x).chores busy =
      (s.setSlot p.1 p.2 x).choresAt p + s.chores (p :: busy) := by
  have others : (s.setSlot p.1 p.2 x).chores (p :: busy) = s.chores (p :: busy) := by
    refine chores_congr fun q hq => ?_
    have other : q ≠ p := fun he => hq (he ▸ List.mem_cons_self)
    exact choresAt_congr (slot?_setSlot_ne other s x) (fixed_setSlot s p.1 q.1 p.2 x)
  rw [chores_eq_add hp, others]

/-- A request may invoke a factory. -/
theorem Admitted.chores {via : Access} {key : Key} {w : Wait} (h : Admitted s via key w s')
    (busy : List Place) : NoHeavier (s'.chores busy) (s.chores busy) := by
  refine chores_noHeavier (fun p => ?_) busy
  cases hx : s'.slot? p.1 p.2 with
  | none =>
    have none : s.slot? p.1 p.2 = none := by
      by_contra some
      obtain ⟨x, there⟩ := Option.ne_none_iff_exists'.1 some
      rw [h.slot?_of_some there] at hx
      cases hx
    rw [choresAt_congr (hx.trans none.symm) (h.fixed p.1)]
    exact .refl _
  | some x =>
    rcases h.begins hx with old | ⟨-, new, y, f, hy, hf, rfl⟩
    · rw [choresAt_congr (hx.trans old.symm) (h.fixed p.1)]
      exact .refl _
    · have before : s.choresAt p = {.invoke f} := by
        unfold choresAt
        rw [new, hy]
        dsimp only [Option.bind_some]
        rw [hf]
      rw [choresAt_running hx, before]
      refine (Lighter.of_under fun c hc => ?_).noHeavier
      rw [Multiset.mem_singleton.1 hc]
      exact .invoke

theorem chores_request {via : Access} {key : Key} {w : Wait} (h : s.request via key = (.waiting w, s'))
    (busy : List Place) : NoHeavier (s'.chores busy) (s.chores busy) :=
  (request_waiting h).chores busy

/-- A layer brings the factories of its provider. -/
theorem chores_layer (s : Store H) (c : Scope) (p : Provider H) (busy : List Place) :
    ∃ more, (s.layer c p).2.chores busy = more + s.chores busy ∧
      ∀ a ∈ more, ∃ f, a = Chore.invoke f := by
  rcases s.layer_cases c p with same | ⟨new, below, -, opened⟩
  · exact ⟨0, by rw [same, zero_add], fun _ ha => absurd ha (Multiset.notMem_zero _)⟩
  · generalize (s.layer c p).2 = s' at opened
    -- in the layer there are the factories alone, and elsewhere all is as it was
    let more : Place → Multiset (Chore H) := fun q =>
      if q.1 = c.push p.identity then s'.choresAt q else 0
    have split : ∀ q, s'.choresAt q = more q + s.choresAt q := by
      intro q
      by_cases hq : q.1 = c.push p.identity
      · have nothing : s.choresAt q = 0 := by
          unfold choresAt slot?
          rw [hq, new]
          rfl
        show _ = (if _ then _ else _) + _
        rw [if_pos hq, nothing, add_zero]
      · have same : s'.context? q.1 = s.context? q.1 := by rw [opened, if_neg hq]
        have unchanged : s'.choresAt q = s.choresAt q := by
          unfold choresAt slot?
          rw [same]
        show _ = (if _ then _ else _) + _
        rw [if_neg hq, zero_add, unchanged]
    obtain ⟨places, before, after⟩ := exists_chores_eq_sum s s' busy
    refine ⟨∑ q ∈ places with q ∉ busy, more q, ?_, fun a ha => ?_⟩
    · rw [before, after, ← Finset.sum_add_distrib]
      exact Finset.sum_congr rfl fun q _ => split q
    · obtain ⟨q, -, hq⟩ := Multiset.mem_sum.1 ha
      have hq : a ∈ if q.1 = c.push p.identity then s'.choresAt q else 0 := hq
      split at hq
      · rename_i layer
        have fresh : s'.slot? q.1 q.2 = none := by
          unfold slot?
          rw [opened, if_pos layer]
          rfl
        unfold choresAt at hq
        rw [fresh] at hq
        dsimp only at hq
        split at hq
        · exact ⟨_, Multiset.mem_singleton.1 hq⟩
        · exact absurd hq (Multiset.notMem_zero _)
      · exact absurd hq (Multiset.notMem_zero _)

end Store

/-! Moves of tasks -/

namespace Task

variable {policy : Policy} {depth : Nat} {t t' : Task H} {busy : List Place}

theorem lighter_of_advance {p : Program H} (h : advance s p = some (t', s')) :
    Lighter (t'.chores + s'.chores busy) ({.run p} + s.chores busy) := by
  -- one chore is left, and the contexts stay what they are
  have alone : ∀ {c : Chore H} {s' : Store H}, c.Under (.run p) → s.SameContexts s' →
      Lighter ({c} + s'.chores busy) ({.run p} + s.chores busy) := by
    intro c s' under same
    rw [same.chores]
    exact (Lighter.of_under fun d hd => Multiset.mem_singleton.1 hd ▸ under).add_right _
  cases p with
  | done | panic => cases h
  | act => cases h; exact alone .act ⟨rfl, rfl⟩
  | fire => cases h; exact alone .fire (s.sameContexts_fire _)
  | isFired => cases h; exact alone .isFired (.refl s)
  | record => cases h; exact alone .record (s.sameContexts_record _)
  | sleep => cases h; exact alone .sleep (.refl s)
  | awaitSignal => cases h; exact alone .watch (.refl s)
  | get via key next =>
    unfold advance at h
    rcases hr : s.request via key with ⟨f | w, s₁⟩
    · simp only [hr] at h
      cases h
      exact alone .refuse (Store.request_refused hr).1
    · simp only [hr] at h
      cases h
      have one : Lighter {Chore.answer next} {.run (.get via key next)} :=
        .of_under fun d hd => Multiset.mem_singleton.1 hd ▸ .get
      exact one.add_noHeavier (Store.chores_request hr busy)
  | both l r next =>
    cases h
    refine (Lighter.of_under fun d hd => ?_).add_right _
    rcases Multiset.mem_cons.1 hd with rfl | hd
    · exact .join
    · rcases Multiset.mem_add.1 hd with hd | hd
      · exact Multiset.mem_singleton.1 hd ▸ .bothLeft
      · exact Multiset.mem_singleton.1 hd ▸ .bothRight
  | first l r next =>
    cases h
    refine (Lighter.of_under fun d hd => ?_).add_right _
    rcases Multiset.mem_cons.1 hd with rfl | hd
    · exact .pick
    · rcases Multiset.mem_add.1 hd with hd | hd
      · exact Multiset.mem_singleton.1 hd ▸ .firstLeft
      · exact Multiset.mem_singleton.1 hd ▸ .firstRight

/-- A task moves to fewer chores if whatever it drives does. -/
theorem lighter_of_move {d : Driving H}
    (driven : ∀ {policy depth w s s'}, d.move policy depth w s = some s' →
      Lighter (s'.chores busy) (s.chores busy))
    (h : t.move policy d depth s = some (t', s')) :
    Lighter (t'.chores + s'.chores busy) (t.chores + s.chores busy) := by
  induction t generalizing policy depth s s' t' with
  | run p => exact lighter_of_advance h
  | sleeping till next =>
    unfold move at h
    split at h
    · cases h
      exact (Lighter.of_under fun d hd => Multiset.mem_singleton.1 hd ▸ .resume).add_right _
    · cases h
  | watching g next =>
    unfold move at h
    split at h
    · cases h
      exact (Lighter.of_under fun d hd => Multiset.mem_singleton.1 hd ▸ .resume).add_right _
    · cases h
  | waiting w next =>
    unfold move at h
    cases ha : s.answer? w with
    | some o =>
      simp only [ha] at h
      cases h
      rw [Store.chores_finishWait]
      exact (Lighter.of_under fun d hd => Multiset.mem_singleton.1 hd ▸ .answer).add_right _
    | none =>
      simp only [ha] at h
      obtain ⟨s₁, hm, he⟩ := Option.map_eq_some_iff.1 h
      cases he
      exact (driven hm).add_left _
  | both l r poll next ihl ihr =>
    -- a panic leaves nothing of the pair
    have panics : ∀ (u : Task H) p, Lighter ({.run (.panic p)} + (u.drop s).chores busy)
        ((both l r poll next).chores + s.chores busy) := by
      intro u p
      rw [drop, Store.chores_finishWaits]
      exact (Lighter.of_under_cons
        (fun d hd => Multiset.mem_singleton.1 hd ▸ .joinPanic) _).add_right _
    unfold move at h
    split at h
    · cases h
      exact panics r _
    · cases h
      exact panics l _
    · cases h
      exact (Lighter.of_under_cons (fun d hd => Multiset.mem_singleton.1 hd ▸ .joined) _).add_right _
    · dsimp only at h
      split at h
      · obtain ⟨⟨u, s₁⟩, hm, he⟩ := Option.map_eq_some_iff.1 h
        cases he
        exact (ihl hm).left _ _
      · obtain ⟨⟨u, s₁⟩, hm, he⟩ := Option.map_eq_some_iff.1 h
        cases he
        exact (ihr hm).right _ _
      · cases h
  | first l r poll next ihl ihr =>
    have drops : ∀ (u : Task H) (p : Program H), Chore.Under (.run p) (.pick next) →
        Lighter ({.run p} + (u.drop s).chores busy)
          ((first l r poll next).chores + s.chores busy) := by
      intro u p under
      rw [drop, Store.chores_finishWaits]
      exact (Lighter.of_under_cons (fun d hd => Multiset.mem_singleton.1 hd ▸ under) _).add_right _
    unfold move at h
    split at h
    · cases h
      exact drops r _ .picked
    · cases h
      exact drops r _ .pickPanic
    · cases h
      exact drops l _ .picked
    · cases h
      exact drops l _ .pickPanic
    · dsimp only at h
      split at h
      · obtain ⟨⟨u, s₁⟩, hm, he⟩ := Option.map_eq_some_iff.1 h
        cases he
        exact (ihl hm).left _ _
      · obtain ⟨⟨u, s₁⟩, hm, he⟩ := Option.map_eq_some_iff.1 h
        cases he
        exact (ihr hm).right _ _
      · cases h

end Task

theorem Store.lighter_of_moveSlot {policy : Policy} {fuel depth : Nat} {busy : List Place} {w : Wait}
    (h : s.moveSlot fuel busy policy depth w = some s') :
    Lighter (s'.chores busy) (s.chores busy) := by
  induction fuel generalizing busy policy depth w s s' with
  | zero => cases h
  | succ fuel ih =>
    unfold moveSlot at h
    split at h
    · cases h
    · rename_i free
      have free : w.place ∉ busy := by simpa using free
      split at h
      · rename_i t ht
        have here : s.slot? w.place.1 w.place.2 = some (.running t) := ht
        rw [chores_eq_add free s, choresAt_running here]
        split at h
        · rename_i o _
          cases h
          have settled : (s.setSlot w.place.1 w.place.2 (.settled (s.slotOutcome w o))).chores busy =
              0 + s.chores (w.place :: busy) := by
            rw [chores_setSlot free s, choresAt_settled (slot?_setSlot_self here _)]
          obtain ⟨c, hc⟩ := t.exists_chore
          exact settled ▸ (lighter_zero hc).add_right _
        · obtain ⟨⟨u, s₁⟩, hm, he⟩ := Option.map_eq_some_iff.1 h
          cases he
          -- the place is busy while its task moves, so its slot is still there
          have there : s₁.slot? w.place.1 w.place.2 = some (.running t) := by
            have explained : t.Explained (w.place :: busy) s s₁ u :=
              Task.move_explained moveSlot_driven hm
            cases explained with
            | itself acts => exact acts.effect.slot?_of_some here
            | others driven => exact driven.slot?_of_busy List.mem_cons_self here
          have moved : (s₁.setSlot w.place.1 w.place.2 (.running u)).chores busy =
              u.chores + s₁.chores (w.place :: busy) := by
            rw [chores_setSlot free s₁, choresAt_running (slot?_setSlot_self there _)]
          exact moved ▸ Task.lighter_of_move ih hm
      · cases h

theorem Task.lighter_of_step {policy : Policy} {depth : Nat} {t t' : Task H}
    (h : t.step policy depth s = some (t', s')) :
    Lighter (t'.chores + s'.chores []) (t.chores + s.chores []) :=
  Task.lighter_of_move Store.lighter_of_moveSlot h

end ScopedEffects
