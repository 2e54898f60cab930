import ScopedEffects.Proofs.Traffic.Polls

/-! What becomes of slots. A slot is installed by the request that invokes the factory, and from
then on it changes only when that factory does something or settles: no request, no dropped wait and
no layer that is opened again touches it. -/

namespace ScopedEffects

variable {H : Host}

def Resolver.place (r : Resolver) : Place := (r.scope, r.key)

/-- What a factory's invocation comes to when its program has ended so. A panic is an unexpected
failure. -/
def Factory.outcome (r : Resolver) (f : Factory H) :
    Except Panic (Exit H) → Except (Failure H) (AnyInstance H)
  | .error p => .error (.ofPanic p)
  | .ok e => f.instance r e

/-- The context of the place binds it to the factory `f`, which is handed the resolver `r`. -/
def Store.Binds (s : Store H) (p : Place) (f : Factory H) (r : Resolver) : Prop :=
  ∃ x, s.context? p.1 = some x ∧ x.provider.factory? p.2 = some f ∧ r = ⟨p.1, x.signal, p.2⟩

namespace Happening

def invokes (p : Place) : Happening H → Bool
  | .acted _ (.begun _ _ w invoked) => invoked && w.place == p
  | _ => false

def moves (p : Place) : Happening H → Bool
  | .acted (.factory q) _ => q == p
  | .settled q _ => q == p
  | _ => false

end Happening

namespace Factory

/-- What becomes of the slot of an invocation in one happening. -/
inductive Goes (f : Factory H) (r : Resolver) : Slot H → Happening H → Slot H → Prop
  | still {x e} (h : e.moves r.place = false) : Goes f r x e x
  | acts {s t d s' t'} (h : Task.Acts s t d s' t') :
      Goes f r (.running t) (.acted (.factory r.place) d) (.running t')
  | settles {t o} (h : Task.outcome? t = some o) :
      Goes f r (.running t) (.settled r.place (f.outcome r o)) (.settled (f.outcome r o))

inductive GoesOn (f : Factory H) (r : Resolver) : Slot H → List (Happening H) → Slot H → Prop
  | nil (x) : GoesOn f r x [] x
  | snoc {x L y e z} (before : GoesOn f r x L y) (next : Goes f r y e z) : GoesOn f r x (L ++ [e]) z

variable {f : Factory H} {r : Resolver} {x y : Slot H} {e : Happening H} {L : List (Happening H)}

theorem Goes.settled {o : Except (Failure H) (AnyInstance H)} (h : f.Goes r (.settled o) e y) :
    y = .settled o := by
  cases h
  rfl

end Factory

namespace Store

variable {s s' : Store H} {p : Place} {f : Factory H} {r : Resolver} {x : Slot H}

theorem Binds.place_eq (h : s.Binds p f r) : r.place = p := by
  obtain ⟨y, -, -, rfl⟩ := h
  rfl

theorem begins_iff : s.Begins p x ↔ ∃ f r, s.Binds p f r ∧ x = .running (.run (f.program r)) := by
  constructor
  · rintro ⟨y, f, hy, hf, rfl⟩
    exact ⟨f, _, ⟨y, hy, hf, rfl⟩, rfl⟩
  · rintro ⟨f, r, ⟨y, hy, hf, rfl⟩, rfl⟩
    exact ⟨y, f, hy, hf, rfl⟩

theorem Fixed.binds (h : s.Fixed s' p.1) (hb : s.Binds p f r) : s'.Binds p f r := by
  obtain ⟨y, hy, hf, rfl⟩ := hb
  unfold Fixed at h
  rw [hy] at h
  obtain ⟨z, hz, he⟩ := Option.map_eq_some_iff.1 h
  obtain ⟨hp, hg⟩ := Prod.mk.inj he
  exact ⟨z, hz, hp ▸ hf, hg ▸ rfl⟩

theorem Binds.slotOutcome (h : s.Binds p f r) {w : Wait} (hw : w.place = p)
    (o : Except Panic (Exit H)) : s.slotOutcome w o = f.outcome r o := by
  obtain ⟨y, hy, hf, rfl⟩ := h
  subst hw
  have hy : s.context? w.scope = some y := hy
  have hf : y.provider.factory? w.key = some f := hf
  cases o with
  | error p => rfl
  | ok e => simp [Store.slotOutcome, Factory.outcome, hy, hf, Wait.place]

def Numbered (s : Store H) : Prop := ∀ c x, s.context? c = some x → c.base < s.bases.next

theorem Numbered.of_fixed (h : s.Numbered) (hf : ∀ c, s.Fixed s' c) (hb : s'.bases = s.bases) :
    s'.Numbered := by
  intro c x hx
  have hc := hf c
  unfold Fixed at hc
  rw [hx] at hc
  obtain ⟨y, hy, -⟩ := Option.map_eq_some_iff.1 hc.symm
  rw [hb]
  exact h c y hy

/-- A slot is there once a request that it serves has joined it. -/
theorem exists_slot?_join {c : Scope} {k : Key} {y : Context H} (hy : s.context? c = some y)
    (hk : y.provider.contains k = true) : ∃ x, (s.join c k).slot? c k = some x := by
  rcases join_cases s c k with ⟨same, hs⟩ | ⟨z, f, hz, -, -, hj⟩
  · rcases hs with hs | hn
    · obtain ⟨x, hx⟩ := Option.isSome_iff_exists.1 hs
      exact ⟨x, by rw [same.slot?, hx]⟩
    · rw [hn y hy] at hk
      cases hk
  · have hz : (s.record (.invokingFactory k)).context? c = some z := hz
    exact ⟨_, by rw [hj, slot?_setSlot hz, if_pos ⟨rfl, rfl⟩]⟩

theorem bases_join (s : Store H) (c : Scope) (k : Key) : (s.join c k).bases = s.bases := by
  rcases join_cases s c k with ⟨same, -⟩ | ⟨x, f, -, -, -, hj⟩
  · exact same.bases
  · rw [hj]
    rfl

namespace Admitted

variable {via : Access} {key : Key} {w : Wait}

theorem bases (h : Admitted s via key w s') : s'.bases = s.bases := by
  cases h <;> exact bases_join ..

theorem exists_slot? (h : Admitted s via key w s') : ∃ x, s'.slot? w.scope w.key = some x := by
  cases h with
  | @counted a hs =>
    obtain ⟨y, hy, hk⟩ := serving_found hs
    have hy : (s.countWait via.scope a key).context? via.scope =
        some { y with waiting := y.waiting.add a key } := by
      rw [countWait, context?_changeContext, if_pos rfl, hy]
      rfl
    exact exists_slot?_join hy hk
  | plain hs =>
    obtain ⟨y, hy, hk⟩ := serving_found hs
    exact exists_slot?_join hy hk

end Admitted

end Store

/-- A request that some context serves waits there, with a slot to wait for, or it is circular. -/
theorem Store.request_served {s : Store H} {via : Access} {key : Key} {d : Scope}
    (hs : s.serving via.scope key = .found d)
    (hl : ∀ r, via = .resolver r → s.lives r.scope = true) :
    (∃ cycle s', s.request via key = (.refused (.circularDependency cycle), s') ∧
        s.SameContexts s') ∨
      ∃ w s' x, s.request via key = (.waiting w, s') ∧ w.place = (d, key) ∧
        s'.slot? d key = some x := by
  rcases hr : s.request via key with ⟨f | w, s'⟩
  · obtain ⟨same, why⟩ := request_refused hr
    cases why with
    | circular => exact .inl ⟨_, s', rfl, same⟩
    | unbound hn | gone hn => rw [hs] at hn; cases hn
    | dead he hd => rw [hl _ he] at hd; cases hd
  · have admitted := request_waiting hr
    have scope : w.scope = d := by
      have found := admitted.serving
      rw [hs] at found
      cases found
      rfl
    obtain ⟨x, hx⟩ := admitted.exists_slot?
    rw [scope, admitted.key_eq] at hx
    exact .inr ⟨w, s', x, rfl, Prod.ext scope admitted.key_eq, hx⟩

theorem Deed.Effect.bases {s s' : Store H} {d : Deed H} (h : d.Effect s s') :
    s'.bases = s.bases := by
  cases d with
  | quiet => exact Store.SameContexts.bases h
  | begun => exact (Store.request_waiting h.1).bases
  | refused => exact (Store.request_refused h).1.bases
  | answered => rw [h.2, Store.bases_finishWait]
  | dropped => rw [h, Store.bases_finishWaits]

/-- A deed invokes the factories of those places that have no slot before it and one after it. -/
theorem Deed.Effect.slot?_of_none {s s' : Store H} {d : Deed H} {p : Place} (h : d.Effect s s')
    (hn : s.slot? p.1 p.2 = none) (who : Actor) :
    s'.slot? p.1 p.2 = none ∧ (Happening.acted who d).invokes p = false ∨
      ∃ x, s'.slot? p.1 p.2 = some x ∧ (Happening.acted who d).invokes p = true ∧ s.Begins p x := by
  cases hx : s'.slot? p.1 p.2 with
  | some x =>
    rcases h.begins hx with hs | ⟨⟨via, key, w, rfl, rfl⟩, -, hb⟩
    · rw [hn] at hs
      cases hs
    · exact .inr ⟨x, rfl, by simp [Happening.invokes], hb⟩
  | none =>
    refine .inl ⟨rfl, ?_⟩
    cases d with
    | begun via key w invoked =>
      obtain ⟨x, hw⟩ := (Store.request_waiting h.1).exists_slot?
      have other : w.place ≠ p := by
        rintro rfl
        rw [Wait.place] at hx
        rw [hw] at hx
        cases hx
      simp [Happening.invokes, other]
    | quiet | refused | answered | dropped => rfl

theorem Deed.Effect.not_invokes {s s' : Store H} {d : Deed H} {p : Place} {x : Slot H}
    (h : d.Effect s s') (hx : s.slot? p.1 p.2 = some x) (who : Actor) :
    (Happening.acted who d).invokes p = false := by
  cases d with
  | begun via key w invoked =>
    obtain ⟨-, hi⟩ := h
    by_cases hw : w.place = p
    · subst hw
      have hx : s.slot? w.scope w.key = some x := hx
      rw [hx] at hi
      subst hi
      rfl
    · simp [Happening.invokes, hw]
  | quiet | refused | answered | dropped => rfl

namespace Traffic

variable {σ τ : Traffic H} {e : Happening H} {p : Place} {f : Factory H} {r : Resolver}

/-- What is opened is opened under a scope that no context has. -/
theorem Step.fixed (hs : Step σ e τ) (hn : σ.store.Numbered) {c : Scope} {x : Context H}
    (hx : σ.store.context? c = some x) : σ.store.Fixed τ.store c := by
  cases hs with
  | client _ h => exact h.effect.fixed c
  | factory _ h => exact (h.effect.fixed c).trans (Store.fixed_setSlot ..)
  | settle => exact Store.fixed_setSlot ..
  | arrive => rfl
  | @leave s cs i t => exact Store.fixed_finishWaits t.waits s c
  | @openBase s cs p g =>
    -- the number of the new context was not handed out before
    have old : c ≠ ⟨s.bases.next, []⟩ := by
      rintro rfl
      exact (hn _ x hx).false
    unfold Store.Fixed
    rw [Store.context?_openBase, if_neg old]
  | @openLayer s cs d p =>
    rcases Store.layer_cases s d p with same | ⟨free, below, -, new⟩
    · show s.Fixed (s.layer d p).2 c
      rw [same]
      rfl
    · have old : c ≠ d.push p.identity := by
        rintro rfl
        rw [free] at hx
        cases hx
      unfold Store.Fixed
      rw [new, if_neg old]
  | hold => exact Store.fixed_changeHandles _ _ c (· + 1)
  | release => exact Store.fixed_changeHandles _ _ c (· - 1)
  | elsewhere h => exact h.fixed c

theorem Step.numbered (hs : Step σ e τ) (hn : σ.store.Numbered) : τ.store.Numbered := by
  cases hs with
  | client _ h => exact hn.of_fixed h.effect.fixed h.effect.bases
  | factory _ h =>
    refine hn.of_fixed (fun c => (h.effect.fixed c).trans (Store.fixed_setSlot ..)) ?_
    exact h.effect.bases
  | settle => exact hn.of_fixed (fun c => Store.fixed_setSlot ..) rfl
  | arrive => exact hn
  | @leave s cs i t =>
    exact hn.of_fixed (Store.fixed_finishWaits t.waits s) (Store.bases_finishWaits ..)
  | @openBase s cs p g =>
    intro c x hx
    have next : (s.openBase p g).2.bases.next = s.bases.next + 1 := rfl
    show c.base < (s.openBase p g).2.bases.next
    have hx : (s.openBase p g).2.context? c = some x := hx
    rw [Store.context?_openBase] at hx
    rw [next]
    split at hx
    · rename_i hc
      rw [hc]
      exact Nat.lt_succ_self _
    · exact (hn c x hx).trans (Nat.lt_succ_self _)
  | @openLayer s cs d p =>
    intro c x hx
    have hx : (s.layer d p).2.context? c = some x := hx
    show c.base < (s.layer d p).2.bases.next
    rw [Store.bases_layer]
    rcases Store.layer_cases s d p with same | ⟨-, below, hb, new⟩
    · rw [same] at hx
      exact hn c x hx
    · rw [new] at hx
      split at hx
      · rename_i hc
        rw [hc]
        exact hn d below hb
      · exact hn c x hx
  | hold => exact hn.of_fixed (fun d => Store.fixed_changeHandles _ _ d (· + 1)) rfl
  | release => exact hn.of_fixed (fun d => Store.fixed_changeHandles _ _ d (· - 1)) rfl
  | elsewhere h => exact hn.of_fixed h.fixed h.bases

/-- What opens or changes contexts, but for their slots, changes no slot. -/
theorem Step.slot?_eq (hs : Step σ e τ) (hn : σ.store.Numbered)
    (he : ¬ e.Inner) (p : Place) : τ.store.slot? p.1 p.2 = σ.store.slot? p.1 p.2 := by
  cases hs with
  | client | factory | settle => exact absurd trivial he
  | arrive => rfl
  | @leave s cs i t => exact Store.slot?_finishWaits t.waits s p.1 p.2
  | @openBase s cs q g =>
    show (s.openBase q g).2.slot? p.1 p.2 = s.slot? p.1 p.2
    unfold Store.slot?
    rw [Store.context?_openBase]
    split
    · rename_i hc
      cases hx : s.context? p.1 with
      | none => rfl
      | some x => exact absurd (hn p.1 x hx) (by rw [hc]; exact lt_irrefl _)
    · rfl
  | @openLayer s cs d q =>
    show (s.layer d q).2.slot? p.1 p.2 = s.slot? p.1 p.2
    rcases Store.layer_cases s d q with same | ⟨free, below, -, new⟩
    · rw [same]
    · unfold Store.slot?
      rw [new]
      split
      · rename_i hc
        rw [hc, free]
        rfl
      · rfl
  | hold => exact Store.slot?_changeHandles _ _ p.1 (· + 1) p.2
  | release => exact Store.slot?_changeHandles _ _ p.1 (· - 1) p.2
  | elsewhere h => exact h.slot? p.1 p.2

theorem not_moves_of_not_inner (he : ¬ e.Inner) (p : Place) :
    e.moves p = false ∧ e.invokes p = false := by
  cases e with
  | acted | settled => exact absurd trivial he
  | _ => exact ⟨rfl, rfl⟩

/-- A slot that is there goes on as its factory does, and no one else invokes the factory. -/
theorem Step.goes (hs : Step σ e τ) (hn : σ.store.Numbered) (hb : σ.store.Binds p f r) {x : Slot H}
    (hx : σ.store.slot? p.1 p.2 = some x) :
    e.invokes p = false ∧ ∃ y, τ.store.slot? p.1 p.2 = some y ∧ f.Goes r x e y := by
  have place := hb.place_eq
  -- besides the factory itself and its settlement, nothing touches the slot
  by_cases he : e.Inner
  · cases hs with
    | client _ h =>
      exact ⟨h.effect.not_invokes hx _, x, h.effect.slot?_of_some hx, .still rfl⟩
    | @factory s cs q t d s' t' ht h =>
      refine ⟨h.effect.not_invokes hx _, ?_⟩
      have kept := h.effect.slot?_of_some hx
      by_cases hq : p = q
      · subst hq
        have hx : s.slot? p.1 p.2 = some x := hx
        rw [ht] at hx
        cases hx
        exact ⟨_, Store.slot?_setSlot_self kept _, place ▸ .acts h⟩
      · refine ⟨x, (Store.slot?_setSlot_ne hq _ _).trans kept, .still ?_⟩
        simpa [Happening.moves, place] using Ne.symm hq
    | @settle s cs q t o w ht ho hw =>
      refine ⟨rfl, ?_⟩
      by_cases hq : p = q
      · subst hq
        have hx : s.slot? p.1 p.2 = some x := hx
        rw [ht] at hx
        cases hx
        rw [hb.slotOutcome hw]
        exact ⟨_, Store.slot?_setSlot_self ht _, place ▸ .settles ho⟩
      · refine ⟨x, (Store.slot?_setSlot_ne hq _ _).trans hx, .still ?_⟩
        simpa [Happening.moves, place] using Ne.symm hq
    | _ => cases he
  · obtain ⟨moves, invokes⟩ := not_moves_of_not_inner he p
    exact ⟨invokes, x, (hs.slot?_eq hn he p).trans hx, .still (place ▸ moves)⟩

/-- A slot comes to be as the slot of an invocation that is about to run. -/
theorem Step.begins (hs : Step σ e τ) (hn : σ.store.Numbered)
    (hx : σ.store.slot? p.1 p.2 = none) :
    τ.store.slot? p.1 p.2 = none ∧ e.invokes p = false ∨
      ∃ f r, e.invokes p = true ∧ τ.store.Binds p f r ∧
        τ.store.slot? p.1 p.2 = some (.running (.run (f.program r))) := by
  by_cases he : e.Inner
  · cases hs with
    | @client s cs i t d s' t' _ h =>
      rcases h.effect.slot?_of_none hx (.client i) with none | ⟨x, hx', invokes, hb⟩
      · exact .inl none
      · obtain ⟨f, r, bound, rfl⟩ := Store.begins_iff.1 hb
        exact .inr ⟨f, r, invokes, (h.effect.fixed p.1).binds bound, hx'⟩
    | @factory s cs q t d s' t' ht h =>
      have other : p ≠ q := by
        rintro rfl
        have hx : s.slot? p.1 p.2 = none := hx
        rw [ht] at hx
        cases hx
      have kept := Store.slot?_setSlot_ne other s' (.running t')
      rcases h.effect.slot?_of_none hx (.factory q) with ⟨none, invokes⟩ | ⟨x, hx', invokes, hb⟩
      · exact .inl ⟨kept.trans none, invokes⟩
      · obtain ⟨f, r, bound, rfl⟩ := Store.begins_iff.1 hb
        have fixed := (h.effect.fixed p.1).trans (Store.fixed_setSlot s' q.1 p.1 q.2 (.running t'))
        exact .inr ⟨f, r, invokes, fixed.binds bound, kept.trans hx'⟩
    | @settle s cs q t o w ht ho hw =>
      have other : p ≠ q := by
        rintro rfl
        have hx : s.slot? p.1 p.2 = none := hx
        rw [ht] at hx
        cases hx
      exact .inl ⟨(Store.slot?_setSlot_ne other _ _).trans hx, rfl⟩
    | _ => cases he
  · exact .inl ⟨(hs.slot?_eq hn he p).trans hx, (not_moves_of_not_inner he p).2⟩

end Traffic

end ScopedEffects
