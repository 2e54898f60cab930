import ScopedEffects.Proofs.Traffic.Basic
import ScopedEffects.Proofs.WaitGraph.Search

/-! What a deed does to the contexts of a store. It opens none, and keeps the provider of each; a
slot that is there stays as it is, and a new one holds the program of its factory; the graphs of
waits count the requests that begin and those that are over, and no deed closes a cycle. -/

namespace ScopedEffects

variable {H : Host} {s s' : Store H} {via : Access} {key : Key} {w : Wait} {d : Deed H}

/-- The slot of a key whose factory is invoked: the factory's program, about to run. -/
def Store.Begins (s : Store H) (p : Place) (x : Slot H) : Prop :=
  ∃ y f, s.context? p.1 = some y ∧ y.provider.factory? p.2 = some f ∧
    x = .running (.run (f.program ⟨p.1, y.signal, p.2⟩))

def Store.Fixed (s s' : Store H) (c : Scope) : Prop :=
  (s'.context? c).map (fun x => (x.provider, x.signal)) =
    (s.context? c).map fun x => (x.provider, x.signal)

namespace Store

theorem fixed_changeContext {f : Context H → Context H}
    (hf : ∀ x, ((f x).provider, (f x).signal) = (x.provider, x.signal)) (s : Store H)
    (c d : Scope) :
    s.Fixed (s.changeContext c f) d := by
  unfold Fixed
  rw [context?_changeContext]
  split
  · cases s.context? d with
    | none => rfl
    | some x => simpa using hf x
  · rfl

theorem SameContexts.fixed (h : SameContexts s s') (c : Scope) : s.Fixed s' c := by
  unfold Fixed
  rw [h.context? c]

theorem Fixed.symm {c : Scope} (h : s.Fixed s' c) : s'.Fixed s c := Eq.symm h

theorem Fixed.trans {s'' : Store H} {c : Scope} (h : s.Fixed s' c) (h' : s'.Fixed s'' c) :
    s.Fixed s'' c := Eq.trans h' h

theorem Fixed.begins {p : Place} {x : Slot H} (h : s.Fixed s' p.1) (hx : s.Begins p x) :
    s'.Begins p x := by
  obtain ⟨y, f, hy, hf, rfl⟩ := hx
  unfold Fixed at h
  rw [hy] at h
  obtain ⟨z, hz, he⟩ := Option.map_eq_some_iff.1 h
  obtain ⟨hp, hg⟩ := Prod.mk.inj he
  exact ⟨z, f, hz, hp ▸ hf, hg ▸ rfl⟩

theorem fixed_setSlot (s : Store H) (c d : Scope) (k : Key) (x : Slot H) :
    s.Fixed (s.setSlot c k x) d :=
  fixed_changeContext (f := fun y => { y with slots := y.slots.set k x }) (fun _ => rfl) s c d

theorem fixed_changeHandles (s : Store H) (c d : Scope) (f : Nat → Nat) :
    s.Fixed (s.changeHandles c f) d :=
  fixed_changeContext (f := fun x => { x with handles := f x.handles }) (fun _ => rfl) s c d

theorem fixed_countWait (s : Store H) (c d : Scope) (a b : Key) :
    s.Fixed (s.countWait c a b) d :=
  fixed_changeContext (f := fun x => { x with waiting := x.waiting.add a b }) (fun _ => rfl) s c d

theorem fixed_join (s : Store H) (c d : Scope) (k : Key) : s.Fixed (s.join c k) d := by
  rcases join_cases s c k with ⟨h, -⟩ | ⟨x, f, -, -, -, h⟩
  · exact h.fixed d
  · rw [h]
    exact fixed_setSlot (s.record _) c d k _

theorem fixed_finishWait (s : Store H) (w : Wait) (d : Scope) : s.Fixed (s.finishWait w) d := by
  unfold Fixed
  rcases context?_finishWait s w d with h | ⟨a, -, -, h⟩
  · rw [h]
  · rw [h]
    cases s.context? d <;> rfl

end Store

namespace Store.Admitted

theorem key_eq (h : Admitted s via key w s') : w.key = key := by
  cases h <;> rfl

theorem serving (h : Admitted s via key w s') : s.serving via.scope key = .found w.scope := by
  cases h <;> assumption

theorem fixed (h : Admitted s via key w s') (c : Scope) : s.Fixed s' c := by
  cases h with
  | counted => exact (fixed_countWait ..).trans (fixed_join ..)
  | plain => exact fixed_join ..

theorem slot?_of_some (h : Admitted s via key w s') {p : Place} {x : Slot H}
    (hx : s.slot? p.1 p.2 = some x) : s'.slot? p.1 p.2 = some x := by
  cases h with
  | counted => exact slot?_join_of_some (by rwa [slot?_countWait]) _ _
  | plain => exact slot?_join_of_some hx _ _

theorem begins (h : Admitted s via key w s') {p : Place} {x : Slot H}
    (hx : s'.slot? p.1 p.2 = some x) :
    s.slot? p.1 p.2 = some x ∨ w.place = p ∧ s.slot? p.1 p.2 = none ∧ s.Begins p x := by
  cases h with
  | @counted a =>
    rcases slot?_of_join hx with hx | ⟨hd, hj, hn, y, f, hy, hf, he⟩
    · exact .inl (by rwa [slot?_countWait] at hx)
    · rw [slot?_countWait] at hn
      have hb : s.Begins p x := by
        refine Fixed.begins (Fixed.symm (fixed_countWait s via.scope p.1 a key)) ?_
        exact ⟨y, f, hd ▸ hy, hj ▸ hf, by rw [he, hd, hj]⟩
      exact .inr ⟨by rw [Wait.place, ← hd, ← hj], by rw [hd, hj]; exact hn, hb⟩
  | plain =>
    rcases slot?_of_join hx with hx | ⟨hd, hj, hn, y, f, hy, hf, he⟩
    · exact .inl hx
    · refine .inr ⟨by rw [Wait.place, ← hd, ← hj], by rw [hd, hj]; exact hn, ?_⟩
      exact ⟨y, f, hd ▸ hy, hj ▸ hf, by rw [he, hd, hj]⟩

theorem stable (h : Admitted s via key w s') {P : WaitGraph → Prop} (stable : WaitGraph.Stable P)
    (hg : ∀ c, P (s.graph c)) (c : Scope) : P (s'.graph c) := by
  cases h with
  | counted hs ha hc =>
    obtain ⟨x, hx, -⟩ := serving_found hs
    rw [graph_join, graph_countWait hx]
    split
    · rename_i hd
      subst hd
      exact stable.add (hg _) hc
    · exact hg c
  | plain => rw [graph_join]; exact hg c

theorem count (h : Admitted s via key w s') (c : Scope) (a b : Key) :
    (s'.graph c).count a b = (s.graph c).count a b + [w].count ⟨c, b, some a⟩ := by
  cases h with
  | @counted a' hs ha hc =>
    obtain ⟨x, hx, -⟩ := serving_found hs
    rw [graph_join, graph_countWait hx]
    -- the one pair that is counted once more is the wait's own
    by_cases hd : c = via.scope
    · subst hd
      rw [if_pos rfl, WaitGraph.count_add, List.count_singleton]
      by_cases hab : a = a' ∧ b = key
      · obtain ⟨rfl, rfl⟩ := hab; simp
      · rw [if_neg hab, if_neg]
        simp only [beq_iff_eq, Wait.mk.injEq, Option.some.injEq, true_and]
        exact fun h => hab ⟨h.2.symm, h.1.symm⟩
    · rw [if_neg hd, List.count_singleton, if_neg]
      · rfl
      · simp only [beq_iff_eq, Wait.mk.injEq]
        exact fun h => hd h.1.symm
  | plain => rw [graph_join, List.count_singleton]; simp

end Store.Admitted

/-! The end of several requests -/

namespace Store

theorem slot?_finishWaits (ws : List Wait) (s : Store H) (c : Scope) (k : Key) :
    (ws.foldl finishWait s).slot? c k = s.slot? c k := by
  induction ws generalizing s with
  | nil => rfl
  | cons w rest ih => rw [List.foldl_cons, ih, slot?_finishWait]

theorem fixed_finishWaits (ws : List Wait) (s : Store H) (c : Scope) :
    s.Fixed (ws.foldl finishWait s) c := by
  induction ws generalizing s with
  | nil => rfl
  | cons w rest ih => exact (fixed_finishWait s w c).trans (ih (s.finishWait w))

theorem bases_finishWaits (ws : List Wait) (s : Store H) :
    (ws.foldl finishWait s).bases = s.bases := by
  induction ws generalizing s with
  | nil => rfl
  | cons w rest ih => rw [List.foldl_cons, ih, bases_finishWait]

theorem finishWaits_of_none {ws : List Wait} (h : ∀ w ∈ ws, w.requester = none) (s : Store H) :
    ws.foldl finishWait s = s := by
  induction ws with
  | nil => rfl
  | cons w rest ih =>
    rw [List.foldl_cons, finishWait_none (h w List.mem_cons_self)]
    exact ih fun v hv => h v (List.mem_cons_of_mem _ hv)

theorem stable_finishWaits (ws : List Wait) {s : Store H} {P : WaitGraph → Prop}
    (stable : WaitGraph.Stable P) (h : ∀ c, P (s.graph c)) (c : Scope) :
    P ((ws.foldl finishWait s).graph c) := by
  induction ws generalizing s with
  | nil => exact h c
  | cons w rest ih =>
    refine ih fun c => ?_
    rcases graph_finishWait s w c with hg | ⟨a, -, -, hg⟩
    · rw [hg]; exact h c
    · rw [hg]; exact stable.remove a w.key (h c)

/-- Each request that is over takes away one wait of its own pair at most. -/
theorem count_finishWaits (ws : List Wait) (s : Store H) (c : Scope) (a b : Key) :
    (s.graph c).count a b ≤
      ((ws.foldl finishWait s).graph c).count a b + ws.count ⟨c, b, some a⟩ := by
  induction ws generalizing s with
  | nil => exact Nat.le_refl _
  | cons w rest ih =>
    have one : (s.graph c).count a b ≤
        ((s.finishWait w).graph c).count a b + [w].count ⟨c, b, some a⟩ := by
      rcases graph_finishWait s w c with hg | ⟨a', ha, hc, hg⟩
      · rw [hg]; exact Nat.le_add_right ..
      · rw [hg, WaitGraph.count_remove]
        by_cases hab : a = a' ∧ b = w.key
        · obtain ⟨rfl, rfl⟩ := hab
          have hw : w = ⟨c, w.key, some a⟩ := by rw [hc, ← ha]
          rw [if_pos ⟨rfl, rfl⟩, ← hw, List.count_singleton_self]
          omega
        · rw [if_neg hab]
          omega
    have := ih (s.finishWait w)
    rw [List.foldl_cons, List.count_cons]
    rw [List.count_singleton] at one
    omega

end Store

/-! Deeds -/

namespace Deed.Effect

open Store

theorem slot?_of_some (h : d.Effect s s') {p : Place} {x : Slot H}
    (hx : s.slot? p.1 p.2 = some x) : s'.slot? p.1 p.2 = some x := by
  cases d with
  | quiet => rw [SameContexts.slot? h, hx]
  | begun => exact (request_waiting h.1).slot?_of_some hx
  | refused => rw [(request_refused h).1.slot?, hx]
  | answered => rw [h.2, slot?_finishWait, hx]
  | dropped => rw [h, slot?_finishWaits, hx]

theorem fixed (h : d.Effect s s') (c : Scope) : s.Fixed s' c := by
  cases d with
  | quiet => exact SameContexts.fixed h c
  | begun => exact (request_waiting h.1).fixed c
  | refused => exact (request_refused h).1.fixed c
  | answered => rw [h.2]; exact fixed_finishWait ..
  | dropped => rw [h]; exact fixed_finishWaits ..

/-- A new slot belongs to the request that has invoked its factory. -/
theorem begins (h : d.Effect s s') {p : Place} {x : Slot H} (hx : s'.slot? p.1 p.2 = some x) :
    s.slot? p.1 p.2 = some x ∨
      (∃ via key w, d = .begun via key w true ∧ w.place = p) ∧ s.slot? p.1 p.2 = none ∧
        s.Begins p x := by
  cases d with
  | quiet => exact .inl (by rwa [SameContexts.slot? h] at hx)
  | begun via key w invokes =>
    obtain ⟨hr, hi⟩ := h
    rcases (request_waiting hr).begins hx with hx | ⟨rfl, hn, hb⟩
    · exact .inl hx
    · refine .inr ⟨⟨via, key, w, ?_, rfl⟩, hn, hb⟩
      have hn : s.slot? w.scope w.key = none := hn
      rw [hi, hn]
      rfl
  | refused => exact .inl (by rwa [(request_refused h).1.slot?] at hx)
  | answered => exact .inl (by rwa [h.2, slot?_finishWait] at hx)
  | dropped => exact .inl (by rwa [h, slot?_finishWaits] at hx)

theorem stable (h : d.Effect s s') {P : WaitGraph → Prop} (stable : WaitGraph.Stable P)
    (hg : ∀ c, P (s.graph c)) (c : Scope) : P (s'.graph c) := by
  cases d with
  | quiet => rw [SameContexts.graph h]; exact hg c
  | begun => exact (request_waiting h.1).stable stable hg c
  | refused => rw [(request_refused h).1.graph]; exact hg c
  | answered w => rw [h.2]; exact stable_finishWaits [w] stable hg c
  | dropped ws => rw [h]; exact stable_finishWaits ws stable hg c

theorem count (h : d.Effect s s') (c : Scope) (a b : Key) :
    (s.graph c).count a b + d.started.count ⟨c, b, some a⟩ ≤
      (s'.graph c).count a b + d.ended.count ⟨c, b, some a⟩ := by
  cases d with
  | quiet => rw [SameContexts.graph h]; exact Nat.le_refl _
  | begun =>
    rw [(request_waiting h.1).count c a b]
    exact Nat.le_refl _
  | refused => rw [(request_refused h).1.graph]; exact Nat.le_refl _
  | answered w => rw [h.2]; exact count_finishWaits [w] s c a b
  | dropped ws => rw [h]; exact count_finishWaits ws s c a b

end Deed.Effect

end ScopedEffects
