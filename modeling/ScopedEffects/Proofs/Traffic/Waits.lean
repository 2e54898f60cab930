import ScopedEffects.Proofs.Traffic.Deadlock
import ScopedEffects.Proofs.Traffic.Lifetimes

/-! The graph of a context that lives counts the requests that are under way in it, each of them once
and no others. Requests are under way in clients and in unfinished factories; those that are dropped
are taken from the count at once, and so are those that a factory leaves behind when it ends. -/

namespace ScopedEffects

variable {H : Host} {s s' : Store H} {w : Wait}

namespace Store

/-- The requests that the factory of a place has under way. -/
def waitsAt (s : Store H) (p : Place) : List Wait :=
  match s.slot? p.1 p.2 with
  | some (.running t) => t.waits
  | _ => []

/-- How many requests like `w` the factories have under way. -/
def underWay (s : Store H) (w : Wait) : Nat := ∑ p ∈ s.places.toFinset, (s.waitsAt p).count w

theorem waitsAt_of_running {p : Place} {t : Task H} (h : s.slot? p.1 p.2 = some (.running t)) :
    s.waitsAt p = t.waits := by
  unfold waitsAt
  rw [h]

theorem waitsAt_of_none {p : Place} (h : s.slot? p.1 p.2 = none) : s.waitsAt p = [] := by
  unfold waitsAt
  rw [h]

theorem waitsAt_congr {p : Place} (h : s'.slot? p.1 p.2 = s.slot? p.1 p.2) :
    s'.waitsAt p = s.waitsAt p := by
  unfold waitsAt
  rw [h]

/-- Places without a slot have nothing under way. -/
theorem underWay_eq_sum {places : Finset Place} (h : s.places.toFinset ⊆ places) (w : Wait) :
    s.underWay w = ∑ p ∈ places, (s.waitsAt p).count w := by
  refine Finset.sum_subset h fun p _ hp => ?_
  have none : s.slot? p.1 p.2 = none := by
    by_contra some
    obtain ⟨x, hx⟩ := Option.ne_none_iff_exists'.1 some
    exact hp (List.mem_toFinset.2 (mem_places hx))
  rw [waitsAt_of_none none]
  rfl

/-- What changes at one place alone changes the sum by as much. -/
theorem underWay_change {p : Place} (h : ∀ q, q ≠ p → s'.waitsAt q = s.waitsAt q) (w : Wait) :
    s'.underWay w + (s.waitsAt p).count w = s.underWay w + (s'.waitsAt p).count w := by
  let all := insert p (s.places.toFinset ∪ s'.places.toFinset)
  have before : s.places.toFinset ⊆ all := fun q hq =>
    Finset.mem_insert_of_mem (Finset.mem_union_left _ hq)
  have after : s'.places.toFinset ⊆ all := fun q hq =>
    Finset.mem_insert_of_mem (Finset.mem_union_right _ hq)
  have here : p ∈ all := Finset.mem_insert_self _ _
  have others : ∑ q ∈ all.erase p, (s'.waitsAt q).count w =
      ∑ q ∈ all.erase p, (s.waitsAt q).count w := by
    refine Finset.sum_congr rfl fun q hq => ?_
    rw [h q (Finset.ne_of_mem_erase hq)]
  rw [underWay_eq_sum before, underWay_eq_sum after, ← Finset.add_sum_erase _ _ here,
    ← Finset.add_sum_erase _ _ here, others]
  omega

theorem underWay_congr (h : ∀ p, s'.waitsAt p = s.waitsAt p) (w : Wait) :
    s'.underWay w = s.underWay w := by
  have change := underWay_change (p := w.place) (fun q _ => h q) w
  rw [h] at change
  exact Nat.add_right_cancel change

theorem underWay_pos_iff : 0 < s.underWay w ↔ ∃ p, w ∈ s.waitsAt p := by
  constructor
  · intro h
    obtain ⟨p, -, hp⟩ := Finset.exists_ne_zero_of_sum_ne_zero h.ne'
    exact ⟨p, List.count_pos_iff.1 (Nat.pos_of_ne_zero hp)⟩
  · rintro ⟨p, hp⟩
    have there : p ∈ s.places.toFinset := by
      cases hx : s.slot? p.1 p.2 with
      | none =>
        rw [waitsAt_of_none hx] at hp
        cases hp
      | some x => exact List.mem_toFinset.2 (mem_places hx)
    have one : 0 < (s.waitsAt p).count w := List.count_pos_iff.2 hp
    exact one.trans_le (Finset.single_le_sum (f := fun q => (s.waitsAt q).count w)
      (fun _ _ => Nat.zero_le _) there)

/-! The end of requests in a context that lives -/

theorem graph_finishWait_of_lives {a : Key} (hl : s.lives w.scope = true)
    (ha : w.requester = some a) (c : Scope) :
    (s.finishWait w).graph c =
      if c = w.scope then (s.graph c).remove a w.key else s.graph c := by
  simp only [finishWait, ha, hl, if_true]
  unfold graph
  rw [context?_changeContext]
  by_cases hc : c = w.scope
  · rw [if_pos hc, if_pos hc]
    cases s.context? c <;> rfl
  · rw [if_neg hc, if_neg hc]

theorem count_finishWait (s : Store H) (w : Wait) {c : Scope} (hl : s.lives c = true) (a b : Key) :
    ((s.finishWait w).graph c).count a b =
      (s.graph c).count a b - [w].count ⟨c, b, some a⟩ := by
  have other (hw : w ≠ ⟨c, b, some a⟩) : [w].count ⟨c, b, some a⟩ = 0 := by
    rw [List.count_singleton, if_neg]
    simpa using hw
  cases ha : w.requester with
  | none =>
    have unnamed : w ≠ ⟨c, b, some a⟩ := by
      rintro rfl
      cases ha
    rw [other unnamed, finishWait_none ha]
    rfl
  | some a' =>
    by_cases hc : c = w.scope
    · rw [graph_finishWait_of_lives (hc ▸ hl) ha, if_pos hc, WaitGraph.count_remove]
      by_cases hab : a = a' ∧ b = w.key
      · have same : w = ⟨c, b, some a⟩ := by
          cases w
          simp_all
        rw [if_pos hab, same, List.count_singleton_self]
      · have ne : w ≠ ⟨c, b, some a⟩ := by
          rintro rfl
          exact hab ⟨Option.some.inj ha, rfl⟩
        rw [if_neg hab, other ne]
    · have ne : w ≠ ⟨c, b, some a⟩ := by
        rintro rfl
        exact hc rfl
      rw [other ne]
      rcases graph_finishWait s w c with same | ⟨-, -, here, -⟩
      · rw [same]
        rfl
      · exact absurd here hc

theorem count_finishWaits_of_lives (ws : List Wait) {c : Scope} (hl : s.lives c = true)
    (a b : Key) :
    ((ws.foldl finishWait s).graph c).count a b =
      (s.graph c).count a b - ws.count ⟨c, b, some a⟩ := by
  induction ws generalizing s with
  | nil => rfl
  | cons w rest ih =>
    have lives : (s.finishWait w).lives c = true := by
      rw [lives_congr (sameHandles_finishWait s w), hl]
    rw [List.foldl_cons, ih lives, count_finishWait s w hl]
    simp only [List.count_cons, List.count_nil]
    omega

end Store

namespace Deed.Effect

variable {d : Deed H}

/-- The graph of a context that lives counts what begins and what is over. -/
theorem count_of_lives (h : d.Effect s s') {c : Scope} (hl : s.lives c = true) (a b : Key) :
    (s'.graph c).count a b =
      (s.graph c).count a b + d.started.count ⟨c, b, some a⟩ -
        d.ended.count ⟨c, b, some a⟩ := by
  cases d with
  | quiet => rw [Store.SameContexts.graph h]; rfl
  | begun => exact (Store.request_waiting h.1).count c a b
  | refused => rw [(Store.request_refused h).1.graph]; rfl
  | answered w => rw [h.2]; exact Store.count_finishWaits_of_lives [w] hl a b
  | dropped ws => rw [h]; exact Store.count_finishWaits_of_lives ws hl a b

/-- A factory that has just been invoked has nothing under way. -/
theorem waitsAt (h : d.Effect s s') (p : Place) : s'.waitsAt p = s.waitsAt p := by
  cases hx : s.slot? p.1 p.2 with
  | some x => exact Store.waitsAt_congr ((h.slot?_of_some hx).trans hx.symm)
  | none =>
    rw [Store.waitsAt_of_none hx]
    cases hy : s'.slot? p.1 p.2 with
    | none => exact Store.waitsAt_of_none hy
    | some y =>
      rcases h.begins hy with old | ⟨-, -, begins⟩
      · rw [hx] at old
        cases old
      · obtain ⟨f, r, -, rfl⟩ := Store.begins_iff.1 begins
        exact Store.waitsAt_of_running hy

/-- A request that begins has a slot to wait for. -/
theorem slot?_of_started (h : d.Effect s s') (hw : w ∈ d.started) :
    (s'.slot? w.scope w.key).isSome := by
  cases d with
  | begun via key v invokes =>
    rw [List.mem_singleton.1 hw]
    obtain ⟨x, hx⟩ := (Store.request_waiting h.1).exists_slot?
    rw [hx]
    rfl
  | quiet | refused | answered | dropped => cases hw

end Deed.Effect

/-- The requests that begin to wait in a happening. -/
def Happening.began : Happening H → List Wait
  | .acted _ d => d.started
  | _ => []

/-- Nothing is done by a task, and none is dropped. -/
def Happening.Idle : Happening H → Prop
  | .acted .. | .settled .. | .left _ => False
  | _ => True

namespace Traffic

/-- How many requests like `w` clients and factories have under way. -/
def pending (σ : Traffic H) (w : Wait) : Nat :=
  (σ.clients.flatMap Task.waits).count w + σ.store.underWay w

/-- Some client or some unfinished factory waits for `w`. -/
def Pending (σ : Traffic H) (w : Wait) : Prop :=
  (∃ t ∈ σ.clients, w ∈ t.waits) ∨ ∃ p, w ∈ σ.store.waitsAt p

theorem pending_pos_iff {σ : Traffic H} : 0 < σ.pending w ↔ σ.Pending w := by
  have clients : 0 < (σ.clients.flatMap Task.waits).count w ↔ ∃ t ∈ σ.clients, w ∈ t.waits := by
    rw [List.count_pos_iff, List.mem_flatMap]
  unfold pending Pending
  rw [← clients, ← Store.underWay_pos_iff]
  omega

/-- The requests that are over in a happening: one that was answered, or those of a task that was
dropped, be it the loser of a pair or a client that leaves. -/
def ceased (σ : Traffic H) : Happening H → List Wait
  | .acted _ d => d.ended
  | .left i => (σ.clients[i]?.map Task.waits).getD []
  | _ => []

/-- The one client that changes, and those around it. -/
theorem count_clients {cs : List (Task H)} {i : Nat} {t : Task H} (ht : cs[i]? = some t)
    (t' : Task H) (w : Wait) :
    ((cs.set i t').flatMap Task.waits).count w + t.waits.count w =
        (cs.flatMap Task.waits).count w + t'.waits.count w ∧
      ((cs.eraseIdx i).flatMap Task.waits).count w + t.waits.count w =
        (cs.flatMap Task.waits).count w := by
  induction cs generalizing i with
  | nil => cases ht
  | cons u rest ih =>
    cases i with
    | zero =>
      cases ht
      simp only [List.set_cons_zero, List.eraseIdx_cons_zero, List.flatMap_cons, List.count_append]
      omega
    | succ i =>
      obtain ⟨set, erase⟩ := ih (i := i) ht
      simp only [List.set_cons_succ, List.eraseIdx_cons_succ, List.flatMap_cons, List.count_append]
      omega

variable {σ τ : Traffic H} {e : Happening H} {L : List (Happening H)}

theorem no_waits_of_idle (σ : Traffic H) (h : e.Idle) : e.began = [] ∧ σ.ceased e = [] := by
  cases e with
  | acted | settled | left => cases h
  | _ => exact ⟨rfl, rfl⟩

/-- What begins and what is over in one step, as far as pending requests and graphs can tell. -/
structure Step.Balance (σ τ : Traffic H) (began ceased : List Wait) : Prop where
  pending : ∀ w, τ.pending w + ceased.count w = σ.pending w + began.count w
  graph : ∀ c a b, τ.store.lives c = true → (τ.store.graph c).count a b =
    (σ.store.graph c).count a b + began.count ⟨c, b, some a⟩ - ceased.count ⟨c, b, some a⟩
  served : ∀ w ∈ began, (τ.store.slot? w.scope w.key).isSome

/-- A step that leaves all tasks and all graphs as they are. -/
theorem Step.Balance.of_same (clients : ∀ w, (τ.clients.flatMap Task.waits).count w =
      (σ.clients.flatMap Task.waits).count w)
    (slots : ∀ p, τ.store.waitsAt p = σ.store.waitsAt p)
    (graphs : ∀ c, τ.store.graph c = σ.store.graph c) : Step.Balance σ τ [] [] where
  pending w := by
    unfold Traffic.pending
    rw [clients, Store.underWay_congr slots]
  graph c a b _ := by
    rw [graphs]
    rfl
  served w hw := by cases hw

theorem graph_of_context?_none {c : Scope} (h : s.context? c = none) : s.graph c = {} := by
  simp [Store.graph, h]

/-- A context that has just been opened has no waits, as if it were not there. -/
theorem graph_opened {c : Scope} {x : Context H} (hw : x.waiting = {}) (hn : s.context? c = none)
    (hc : ∀ d, s'.context? d = if d = c then some x else s.context? d) (d : Scope) :
    s'.graph d = s.graph d := by
  by_cases hd : d = c
  · rw [hd, graph_of_context?_none hn]
    have there : s'.context? c = some x := by rw [hc, if_pos rfl]
    simp [Store.graph, there, hw]
  · unfold Store.graph
    rw [hc, if_neg hd]

theorem Step.graph_eq (hs : Step σ e τ) (hn : σ.store.Numbered) (he : e.Idle) (c : Scope) :
    τ.store.graph c = σ.store.graph c := by
  cases hs with
  | client | factory | settle | leave => cases he
  | arrive => rfl
  | @openBase s cs p g =>
    refine graph_opened rfl ?_ (Store.context?_openBase s p g) c
    by_contra some
    obtain ⟨x, hx⟩ := Option.ne_none_iff_exists'.1 some
    exact (hn _ x hx).false
  | @openLayer s cs d p =>
    show (s.layer d p).2.graph c = s.graph c
    rcases Store.layer_cases s d p with same | ⟨free, below, -, new⟩
    · rw [same]
    · exact graph_opened rfl free new c
  | hold => exact Store.graph_changeHandles _ _ c (· + 1)
  | release => exact Store.graph_changeHandles _ _ c (· - 1)
  | elsewhere h => exact h.graph c

theorem Step.balance (hs : Step σ e τ) (hn : σ.store.Numbered) :
    Step.Balance σ τ e.began (σ.ceased e) := by
  by_cases idle : e.Idle
  · have outer : ¬ e.Inner := fun inner => by cases e <;> trivial
    obtain ⟨began, ceased⟩ := no_waits_of_idle σ idle
    rw [began, ceased]
    refine .of_same (fun w => ?_)
      (fun p => Store.waitsAt_congr (hs.slot?_eq hn outer p)) (hs.graph_eq hn idle)
    cases hs with
    | arrive => simp [List.flatMap_append, Task.waits]
    | client | factory | settle | leave => cases idle
    | _ => rfl
  cases hs with
  | @client s cs i t d s' t' ht h =>
    have effect := h.effect
    refine ⟨?_, fun c a b hl => ?_, fun w => effect.slot?_of_started⟩
    · intro w
      have change := (count_clients ht t' w).1
      have moved := h.count_waits w
      have slots := Store.underWay_congr effect.waitsAt w
      simp only [Traffic.pending, Happening.began, ceased]
      omega
    · have lives : s.lives c = true := by rwa [Store.lives_congr effect.sameHandles] at hl
      exact effect.count_of_lives lives a b
  | @factory s cs p t d s' t' ht h =>
    have effect := h.effect
    have kept := effect.slot?_of_some ht
    have handles : ∀ c, s'.SameHandles (s'.setSlot p.1 p.2 (.running t')) c := fun c =>
      Store.sameHandles_setSlot ..
    refine ⟨?_, fun c a b hl => ?_, fun w hw => ?_⟩
    · intro w
      have others : ∀ q, q ≠ p → (s'.setSlot p.1 p.2 (.running t')).waitsAt q = s.waitsAt q :=
        fun q hq => (Store.waitsAt_congr (Store.slot?_setSlot_ne hq _ _)).trans (effect.waitsAt q)
      have change := Store.underWay_change others w
      have moved := h.count_waits w
      rw [Store.waitsAt_of_running ht,
        Store.waitsAt_of_running (Store.slot?_setSlot_self kept _)] at change
      simp only [Traffic.pending, Happening.began, ceased]
      omega
    · have lives : s.lives c = true := by
        rwa [Store.lives_congr handles, Store.lives_congr effect.sameHandles] at hl
      show ((s'.setSlot p.1 p.2 (.running t')).graph c).count a b = _
      rw [Store.graph_setSlot]
      exact effect.count_of_lives lives a b
    · have there := effect.slot?_of_started hw
      by_cases hq : w.place = p
      · subst hq
        have here := Store.slot?_setSlot_self kept (.running t')
        exact Option.isSome_iff_exists.2 ⟨_, here⟩
      · have same := Store.slot?_setSlot_ne hq s' (.running t')
        exact (congrArg Option.isSome same).trans there
  | @settle s cs p t o w ht ho hw =>
    refine .of_same (fun _ => rfl) (fun q => ?_) fun c => Store.graph_setSlot ..
    by_cases hq : q = p
    · subst hq
      have settled := Store.slot?_setSlot_self ht (.settled (s.slotOutcome w o))
      show (s.setSlot q.1 q.2 _).waitsAt q = s.waitsAt q
      rw [Store.waitsAt_of_running ht, Task.waits_of_outcome? ho, Store.waitsAt, settled]
    · exact Store.waitsAt_congr (Store.slot?_setSlot_ne hq _ _)
  | @leave s cs i t ht =>
    have own : ceased ⟨s, cs⟩ (.left i) = t.waits := by simp [ceased, ht]
    rw [own]
    refine ⟨?_, fun c a b hl => ?_, fun w hw => absurd hw List.not_mem_nil⟩
    · intro w
      have change := (count_clients ht t w).2
      have slots : ∀ p, (t.drop s).waitsAt p = s.waitsAt p := fun p =>
        Store.waitsAt_congr (Store.slot?_finishWaits t.waits s p.1 p.2)
      have same := Store.underWay_congr slots w
      simp only [Traffic.pending, Happening.began, List.count_nil]
      omega
    · have lives : s.lives c = true := by rwa [Store.lives_congr (sameHandles_drop t s)] at hl
      exact Store.count_finishWaits_of_lives t.waits lives a b
  | _ => exact absurd trivial idle

theorem Step.stable (hs : Step σ e τ) (hn : σ.store.Numbered) {P : WaitGraph → Prop}
    (stable : WaitGraph.Stable P) (h : ∀ c, P (σ.store.graph c)) (c : Scope) :
    P (τ.store.graph c) := by
  by_cases idle : e.Idle
  · rw [hs.graph_eq hn idle]
    exact h c
  cases hs with
  | client _ h' => exact h'.effect.stable stable h c
  | @factory s cs p t d s' t' _ h' =>
    show P ((s'.setSlot p.1 p.2 (.running t')).graph c)
    rw [Store.graph_setSlot]
    exact h'.effect.stable stable h c
  | @settle s cs p t o w =>
    show P ((s.setSlot p.1 p.2 (.settled (s.slotOutcome w o))).graph c)
    rw [Store.graph_setSlot]
    exact h c
  | @leave s cs i t => exact Store.stable_finishWaits t.waits stable h c
  | _ => exact absurd trivial idle

/-- A slot that is there stays there. -/
theorem Step.isSome_slot? (hs : Step σ e τ) (hn : σ.store.Numbered) {p : Place}
    (h : (σ.store.slot? p.1 p.2).isSome) : (τ.store.slot? p.1 p.2).isSome := by
  obtain ⟨x, hx⟩ := Option.isSome_iff_exists.1 h
  have set : ∀ {s : Store H} {q : Place} {y z}, s.slot? q.1 q.2 = some y →
      (s.slot? p.1 p.2).isSome → ((s.setSlot q.1 q.2 z).slot? p.1 p.2).isSome := by
    intro s q y z hy there
    by_cases hp : p = q
    · subst hp
      rw [Store.slot?_setSlot_self hy]
      rfl
    · rwa [Store.slot?_setSlot_ne hp]
  by_cases inner : e.Inner
  · cases hs with
    | client _ h' =>
      rw [h'.effect.slot?_of_some hx]
      rfl
    | factory ht h' =>
      exact set (h'.effect.slot?_of_some ht) (by rw [h'.effect.slot?_of_some hx]; rfl)
    | settle ht => exact set ht h
    | _ => cases inner
  · rwa [hs.slot?_eq hn inner]

/-- What is counted in the graphs is what is under way, and there is a slot for it. -/
structure Counted (σ : Traffic H) : Prop where
  founded : σ.Founded
  tight : ∀ c, (σ.store.graph c).Tight
  served : ∀ w, σ.Pending w → (σ.store.slot? w.scope w.key).isSome
  exact : ∀ c a b, σ.store.lives c = true →
    (σ.store.graph c).count a b = σ.pending ⟨c, b, some a⟩

theorem Counted.empty {s : Store H} (h : s.contexts = .empty) : Counted ⟨s, []⟩ := by
  have none : ∀ c, s.context? c = none := fun c => by rw [Store.context?, h]; rfl
  have slots : ∀ p : Place, s.slot? p.1 p.2 = .none := fun p => by
    rw [Store.slot?, none p.1]
    rfl
  refine ⟨.empty h _, fun c => ?_, fun w hw => ?_, fun c a b hl => ?_⟩
  · show (s.graph c).Tight
    rw [graph_of_context?_none (none c)]
    exact WaitGraph.tight_empty
  · rcases hw with ⟨t, ht, -⟩ | ⟨p, hp⟩
    · cases ht
    · have hp : w ∈ s.waitsAt p := hp
      rw [Store.waitsAt_of_none (slots p)] at hp
      cases hp
  · have there := Store.isSome_of_lives hl
    have there : (s.context? c).isSome := there
    rw [none c] at there
    cases there

theorem Counted.step (h : σ.Counted) (hs : Step σ e τ) (he : e.Feasible σ) : τ.Counted := by
  have founded := h.founded
  have balance := hs.balance founded.numbered
  refine ⟨founded.step hs, hs.stable founded.numbered WaitGraph.stable_tight h.tight,
    fun w hw => ?_, fun c a b hl => ?_⟩
  · by_cases new : w ∈ e.began
    · exact balance.served w new
    · have change := balance.pending w
      have now := pending_pos_iff.2 hw
      rw [List.count_eq_zero.2 new] at change
      have before : σ.Pending w := pending_pos_iff.1 (by omega)
      exact hs.isSome_slot? founded.numbered (p := w.place) (h.served w before)
  · have change := balance.pending ⟨c, b, some a⟩
    have counted := balance.graph c a b hl
    -- a context that was not there before had no waits, and none was under way in it
    have exact_before : (σ.store.graph c).count a b = σ.pending ⟨c, b, some a⟩ := by
      cases hx : σ.store.context? c with
      | some x =>
        have there : (σ.store.context? c).isSome := by rw [hx]; rfl
        exact h.exact c a b (hs.lives_of_lives founded he there hl)
      | none =>
        have nothing : ¬ σ.Pending ⟨c, b, some a⟩ := fun hw => by
          have there := h.served _ hw
          rw [Store.slot?, hx] at there
          cases there
        rw [graph_of_context?_none hx, Nat.eq_zero_of_not_pos (mt pending_pos_iff.1 nothing)]
        rfl
    omega

theorem Counted.run (h : σ.Counted) (run : FeasibleRun σ L τ) : τ.Counted := by
  induction run with
  | nil => exact h
  | snoc _ step feasible ih => exact ih.step step feasible

/-- In a context that lives, the edges of the graph are the requests under way. -/
theorem Counted.edge_iff (h : σ.Counted) {c : Scope} (hl : σ.store.lives c = true) {a b : Key} :
    (σ.store.graph c).Edge a b ↔ σ.Pending ⟨c, b, some a⟩ := by
  rw [(h.tight c).edge_iff, h.exact c a b hl, pending_pos_iff]

end Traffic

end ScopedEffects
