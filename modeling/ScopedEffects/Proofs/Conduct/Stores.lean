import ScopedEffects.Proofs.Conduct.Programs
import ScopedEffects.Proofs.Execution.Provision

/-! Rules for factories. A tree of contexts keeps to the rules when its base is held, its providers
bind factories that keep to them, and so do all its resolutions. Whatever the tasks of a run do, the
tree of that run goes on keeping to the rules; other trees may do as they like. -/

namespace ScopedEffects

variable {H : Host} {R : Rules H} {b : Nat} {s s' s'' : Store H}

/-- A factory makes requests in its own context alone, and what it settles with may be made. -/
def Factory.Follows (R : Rules H) (key : Key) (f : Factory H) : Prop :=
  ∀ r : Resolver, r.key = key →
    (f.program r).Follows R (· = r.scope) fun e => R.Answered key (f.instance r e)

def Provider.Follows (R : Rules H) (p : Provider H) : Prop :=
  ∀ key f, p.factory? key = some f → f.Follows R key

def Slot.Follows (R : Rules H) (b : Nat) (f : Factory H) (r : Resolver) : Slot H → Prop
  | .running t => t.Follows R b (· = r.scope) fun e => R.Answered r.key (f.instance r e)
  | .settled o => R.Answered r.key o

namespace Store

/-- The context is there, over the base `b`. -/
def Opens (s : Store H) (b : Nat) (c : Scope) : Prop := c.base = b ∧ (s.context? c).isSome

theorem Opens.kept {c : Scope} (h : s.Opens b c) (keeps : s.Keeps s') : s'.Opens b c :=
  ⟨h.1, keeps.providers.isSome h.2⟩

/-- The tree of contexts over the base `b` keeps to the rules, and has one signal. -/
structure Follows (R : Rules H) (b : Nat) (s : Store H) : Prop where
  state : R.state s.user
  grounded : s.Grounded
  base : s.lives ⟨b, []⟩ = true
  providers : ∀ c x, c.base = b → s.context? c = some x → x.provider.Follows R
  signals : ∀ c x y, c.base = b → s.context? c = some x → s.context? ⟨b, []⟩ = some y →
    x.signal = y.signal
  slots : ∀ p x, p.1.base = b → s.slot? p.1 p.2 = some x →
    ∃ f r, s.Binds p f r ∧ x.Follows R b f r

/-- What programs that keep to the rules make of a store. -/
structure Evolves (R : Rules H) (b : Nat) (s s' : Store H) : Prop where
  follows : s'.Follows R b
  allows : R.Allows s s'
  keeps : s.Keeps s'

theorem Follows.evolves (h : s.Follows R b) : s.Evolves R b s := ⟨h, .refl s, .refl s⟩

theorem Evolves.trans (h : s.Evolves R b s') (h' : s'.Evolves R b s'') : s.Evolves R b s'' :=
  ⟨h'.follows, h.allows.trans h'.allows, h.keeps.trans h'.keeps⟩

/-! Requests -/

theorem Binds.key_eq {p : Place} {f : Factory H} {r : Resolver} (h : s.Binds p f r) :
    r.key = p.2 := congrArg Prod.snd h.place_eq

theorem Binds.scope_eq {p : Place} {f : Factory H} {r : Resolver} (h : s.Binds p f r) :
    r.scope = p.1 := congrArg Prod.fst h.place_eq

namespace Follows

theorem answered (h : s.Follows R b) {w : Wait} (hw : w.scope.base = b)
    {o : Except (Failure H) (AnyInstance H)} (ho : s.answer? w = some o) : R.Answered w.key o := by
  unfold answer? at ho
  split at ho
  · rename_i hx
    cases ho
    obtain ⟨f, r, bound, follows⟩ := h.slots w.place _ hw hx
    have key : r.key = w.key := bound.key_eq
    exact key ▸ follows
  · cases ho

/-- In a tree whose base is held no request fails because a context is gone. -/
theorem refused (h : s.Follows R b) {via : Access} {key : Key} {f : Failure H}
    (hc : s.Opens b via.scope) (hf : s.Refused via key f) : R.failure f := by
  obtain ⟨base, there⟩ := hc
  have lives : s.lives via.scope = true := by
    generalize via.scope = c at base there
    cases c
    cases base
    exact lives_of_base h.grounded h.base there
  cases hf with
  | circular => exact R.circular _
  | unbound => exact R.unbound _
  | gone gone =>
    generalize via.scope = c at base there gone
    cases c
    cases base
    exact absurd gone (serving_ne_gone h.grounded h.base there key)
  | dead hr dead =>
    subst hr
    have dead : s.lives (Access.scope (.resolver _)) = false := dead
    rw [lives] at dead
    cases dead

/-! What goes on among the tasks -/

theorem begins (h : s.Follows R b) {p : Place} {x : Slot H} (hp : p.1.base = b)
    (hx : s.Begins p x) : ∃ f r, s.Binds p f r ∧ x.Follows R b f r := by
  obtain ⟨f, r, bound, rfl⟩ := begins_iff.1 hx
  refine ⟨f, r, bound, ?_⟩
  obtain ⟨y, hy, hf, rfl⟩ := bound
  exact h.providers p.1 y hp hy p.2 f hf _ rfl

theorem providers_of_extends (h : s.Follows R b) (earlier : s'.Extends s) (c : Scope)
    (x : Context H) (hc : c.base = b) (hx : s'.context? c = some x) : x.provider.Follows R := by
  obtain ⟨y, hy, same, -⟩ := earlier.context? hx
  rw [← same]
  exact h.providers c y hc hy

theorem signals_of_extends (h : s.Follows R b) (earlier : s'.Extends s) (c : Scope)
    (x y : Context H) (hc : c.base = b) (hx : s'.context? c = some x)
    (hy : s'.context? ⟨b, []⟩ = some y) : x.signal = y.signal := by
  obtain ⟨x', hx', -, ofx⟩ := earlier.context? hx
  obtain ⟨y', hy', -, ofy⟩ := earlier.context? hy
  rw [← ofx, ← ofy]
  exact h.signals c x' y' hc hx' hy'

/-- What changes no context, but for new slots and the requests under way, keeps to the rules. -/
theorem carried (h : s.Follows R b) (state : R.state s'.user) (fixed : ∀ c, s.Fixed s' c)
    (handles : ∀ c, s.SameHandles s' c)
    (slots : ∀ p x, s'.slot? p.1 p.2 = some x → s.slot? p.1 p.2 = some x ∨ s.Begins p x) :
    s'.Follows R b := by
  have earlier : s'.Extends s := extends_of_fixed fun c => (fixed c).symm
  refine ⟨state, h.grounded.congr handles, (lives_congr handles _).trans h.base,
    h.providers_of_extends earlier, h.signals_of_extends earlier, fun p x hp hx => ?_⟩
  have before : ∃ f r, s.Binds p f r ∧ x.Follows R b f r := by
    rcases slots p x hx with old | new
    · exact h.slots p x hp old
    · exact h.begins hp new
  obtain ⟨f, r, bound, follows⟩ := before
  exact ⟨f, r, (fixed p.1).binds bound, follows⟩

theorem of_sameContexts (h : s.Follows R b) (same : s.SameContexts s') (state : R.state s'.user) :
    s'.Follows R b := by
  refine h.carried state same.fixed same.sameHandles fun p x hx => .inl ?_
  rwa [same.slot?] at hx

theorem of_allows (h : s.Follows R b) (same : s.SameContexts s') (allows : R.Allows s s') :
    s.Evolves R b s' :=
  ⟨h.of_sameContexts same (allows.state h.state), allows, same.keeps⟩

theorem finishWaits (h : s.Follows R b) (ws : List Wait) :
    s.Evolves R b (ws.foldl finishWait s) := by
  have allows : R.Allows s (ws.foldl finishWait s) :=
    Rules.allows_of_sameRest (sameRest_finishWaits ws s)
  refine ⟨h.carried (allows.state h.state) (fixed_finishWaits ws s) (sameHandles_finishWaits ws s)
    fun p x hx => .inl ?_, allows, keeps_finishWaits ws s⟩
  rwa [slot?_finishWaits] at hx

variable {ok : Scope → Prop} {E : Exit H → Prop} {t t' : Task H}

theorem acts (h : s.Follows R b) (opens : ∀ c, ok c → s.Opens b c) (ht : t.Follows R b ok E)
    {d : Deed H} (acts : t.Acts s d s' t') : t'.Follows R b ok E ∧ s.Evolves R b s' := by
  obtain ⟨follows, allows⟩ := acts.follows ht h.state (fun c hc => (opens c hc).1)
    (fun _ _ hw ho => h.answered hw ho) (fun _ _ _ hc => h.refused (opens _ hc))
  have effect := acts.effect
  refine ⟨follows, h.carried (allows.state h.state) effect.fixed effect.sameHandles ?_, allows,
    extends_of_fixed effect.fixed, fun c _ => effect.sameHandles c⟩
  intro p x hx
  rcases effect.begins hx with old | ⟨-, -, new⟩
  · exact .inl old
  · exact .inr new

theorem setSlot (h : s.Follows R b) {p : Place} {f : Factory H} {r : Resolver} {y : Slot H}
    (bound : s.Binds p f r) (hy : y.Follows R b f r) : s.Evolves R b (s.setSlot p.1 p.2 y) := by
  have fixed := fun c => fixed_setSlot s p.1 c p.2 y
  have handles := fun c => sameHandles_setSlot s p.1 c p.2 y
  have allows : R.Allows s (s.setSlot p.1 p.2 y) :=
    Rules.allows_of_sameRest (sameRest_setSlot ..)
  have earlier : (s.setSlot p.1 p.2 y).Extends s := extends_of_fixed fun c => (fixed c).symm
  refine ⟨⟨h.state, h.grounded.congr handles, (lives_congr handles _).trans h.base,
    h.providers_of_extends earlier, h.signals_of_extends earlier, fun q z hq hz => ?_⟩, allows,
    extends_of_fixed fixed, fun c _ => handles c⟩
  by_cases here : q = p
  · subst here
    obtain ⟨x, hx, -⟩ := id bound
    rw [slot?_setSlot hx, if_pos ⟨rfl, rfl⟩] at hz
    cases hz
    exact ⟨f, r, (fixed q.1).binds bound, hy⟩
  · rw [slot?_setSlot_ne here] at hz
    obtain ⟨f, r, bound, follows⟩ := h.slots q z hq hz
    exact ⟨f, r, (fixed q.1).binds bound, follows⟩

/-- A task goes on keeping to the rules if whatever it drives does. -/
theorem moved (h : s.Follows R b) (opens : ∀ c, ok c → s.Opens b c) (ht : t.Follows R b ok E)
    {d : Task.Driving H} (drives : ∀ policy depth w s', w.scope.base = b →
      d.move policy depth w s = some s' → s.Evolves R b s')
    (hm : Task.Moved d s t s' t') : t'.Follows R b ok E ∧ s.Evolves R b s' := by
  cases hm with
  | itself acts => exact h.acts opens ht acts
  | @drives policy depth w _ hw driven quiet =>
    have evolves := drives policy depth w s' (ht.base_of_wait hw) driven
    have opens' : ∀ c, ok c → s'.Opens b c := fun c hc => (opens c hc).kept evolves.keeps
    exact ⟨(evolves.follows.acts opens' ht quiet).1, evolves⟩

theorem moveSlot (h : s.Follows R b) {policy : Policy} {fuel depth : Nat} {busy : List Place}
    {w : Wait} (hw : w.scope.base = b) (hm : s.moveSlot fuel busy policy depth w = some s') :
    s.Evolves R b s' := by
  -- a resolver drives others with less fuel, so the tasks that it waits for keep to the rules first
  induction fuel generalizing busy policy depth w s s' with
  | zero => cases hm
  | succ fuel ih =>
    unfold Store.moveSlot at hm
    split at hm
    · cases hm
    · split at hm
      · rename_i t ht
        obtain ⟨f, r, bound, follows⟩ := h.slots w.place _ hw ht
        split at hm
        · rename_i o ho
          cases hm
          rw [bound.slotOutcome rfl]
          refine h.setSlot (p := w.place) bound ?_
          have ends := Task.Follows.ends follows ho
          cases o with
          | ok => exact ends
          | error => exact ends
        · obtain ⟨⟨u, s₁⟩, moved, he⟩ := Option.map_eq_some_iff.1 hm
          cases he
          have opens : ∀ c, c = r.scope → s.Opens b c := by
            rintro c rfl
            rw [bound.scope_eq]
            obtain ⟨z, hz, -⟩ := bound
            exact ⟨hw, Option.isSome_of_eq_some hz⟩
          obtain ⟨follows', evolves⟩ := h.moved opens follows (fun _ _ _ _ hv hm => ih h hv hm)
            (Task.moved_of_move moved)
          have bound' := evolves.keeps.providers.binds bound
          exact evolves.trans (evolves.follows.setSlot (p := w.place) bound' follows')
      · cases hm

theorem step (h : s.Follows R b) (ht : t.Follows R b (s.Opens b) E) {policy : Policy} {depth : Nat}
    (hm : t.step policy depth s = some (t', s')) :
    t'.Follows R b (s'.Opens b) E ∧ s.Evolves R b s' := by
  obtain ⟨follows, evolves⟩ := h.moved (fun _ => id) ht
    (fun _ _ _ _ hw driven => h.moveSlot hw driven) (Task.moved_of_move hm)
  exact ⟨follows.mono (fun _ hc => hc.kept evolves.keeps) fun _ => id, evolves⟩

/-! New contexts -/

theorem layer (h : s.Follows R b) {p : Provider H} (hp : p.Follows R) {c : Scope}
    (hc : s.Opens b c) :
    s.Evolves R b (s.layer c p).2 ∧ (s.layer c p).2.Opens b (s.layer c p).1 := by
  obtain ⟨hb, there⟩ := hc
  obtain ⟨below, hbelow⟩ := Option.isSome_iff_exists.1 there
  cases hx : s.context? (c.push p.identity) with
  | some x =>
    have same : s.layer c p = (c.push p.identity, s) := by simp only [Store.layer, hx]
    rw [same]
    exact ⟨h.evolves, hb, Option.isSome_of_eq_some hx⟩
  | none =>
    have keeps := s.keeps_layer c p
    have opened : s.layer c p = (c.push p.identity, (s.layer c p).2) := by
      simp only [Store.layer, hx, hbelow]
    have rest : s.SameRest (s.layer c p).2 := by
      simp only [Store.layer, hx, hbelow]
      exact ⟨rfl, rfl, rfl⟩
    have context? : ∀ d, (s.layer c p).2.context? d =
        if d = c.push p.identity then some { provider := p, signal := below.signal }
        else s.context? d := fun d => by
      simp only [Store.layer, hx, hbelow]
      exact OrderedMap.get?_set ..
    generalize (s.layer c p).2 = s' at keeps opened rest context?
    rw [opened]
    have allows : R.Allows s s' := Rules.allows_of_sameRest rest
    refine ⟨⟨⟨allows.state h.state, ?_, keeps.lives h.base, ?_, ?_, ?_⟩, allows, keeps⟩, hb, ?_⟩
    · intro base q below hd
      rw [context?] at hd
      split at hd
      · rename_i here
        cases here
        exact keeps.providers.isSome there
      · exact keeps.providers.isSome (h.grounded base q below hd)
    · intro d x hd hx
      rw [context?] at hx
      split at hx
      · cases hx
        exact hp
      · exact h.providers d x hd hx
    · intro d x y hd hx hy
      rw [context?, if_neg (by simp [Scope.push])] at hy
      rw [context?] at hx
      split at hx
      · cases hx
        exact h.signals c below y hb hbelow hy
      · exact h.signals d x y hd hx hy
    · intro q x hq hx
      have old : s.slot? q.1 q.2 = some x := by
        unfold slot? at hx ⊢
        rw [context?] at hx
        split at hx
        · cases hx
        · exact hx
      obtain ⟨f, r, bound, follows⟩ := h.slots q x hq old
      exact ⟨f, r, keeps.providers.binds bound, follows⟩
    · show (s'.context? (c.push p.identity)).isSome
      rw [context?, if_pos rfl]
      rfl

end Follows

theorem follows_openBase {p : Provider H} (hp : p.Follows R) (g : Signal) (state : R.state s.user)
    (numbered : s.Numbered) (grounded : s.Grounded) :
    (s.openBase p g).2.Follows R s.bases.next := by
  have context? := fun d => context?_openBase s p g d
  have old : ∀ d x, s.context? d = some x → d.base ≠ s.bases.next := fun d x hx =>
    Nat.ne_of_lt (numbered d x hx)
  refine ⟨state, ?_, lives_openBase s p g, ?_, ?_, ?_⟩
  · intro base q below hd
    rw [context?, if_neg (by simp)] at hd
    have lower := grounded base q below hd
    rw [context?]
    split
    · rfl
    · exact lower
  · intro d x hd hx
    rw [context?] at hx
    split at hx
    · cases hx
      exact hp
    · exact absurd hd (old d x hx)
  · intro d x y hd hx hy
    rw [context?, if_pos rfl] at hy
    rw [context?] at hx
    split at hx
    · cases hx
      cases hy
      rfl
    · exact absurd hd (old d x hx)
  · intro q x hq hx
    obtain ⟨z, hz, -⟩ := exists_context?_of_slot? (slot?_of_openBase hx)
    exact absurd hq (old q.1 z hz)

end Store

end ScopedEffects
