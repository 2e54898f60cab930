import ScopedEffects.Proofs.Traffic.Scoping

/-! Who owns a context. A context owns the layers opened over it and the resolutions in its slots, a
resolution owns those that its factory awaits, and whatever holds a handle owns that handle's context.
Nothing points up: a layer does not own what it was opened over, and neither a resolver nor a wait
owns a context. So a tree of contexts is kept by its handles alone, whatever was left unfinished in
it, and once the last handle is gone its resolvers serve nothing for good. -/

namespace ScopedEffects

open Relation

variable {H : Host} {s s' : Store H} {base : Nat} {c d : Scope} {key : Key}

/-- Not all requests of the program avoid the context, so that whoever runs it holds a handle. -/
def Program.Captures (p : Program H) (c : Scope) : Prop := ¬ p.Asks (· ≠ .context c)

def Task.Captures (t : Task H) (c : Scope) : Prop := ¬ t.Asks (· ≠ .context c)

namespace Scope

theorem Reaches.base_eq (h : c.Reaches d) : d.base = c.base := by
  induction h with
  | refl => rfl
  | @tail d e _ step ih =>
    obtain ⟨_, layers⟩ := d
    cases layers with
    | nil => simp [parent?] at step
    | cons p below =>
      rw [parent?_eq_some.1 step]
      exact ih

end Scope

/-- What is owned: a context, or the resolution of a key in a context. -/
inductive Ownable where
  | context (c : Scope)
  | resolution (p : Place)

namespace Store

/-- The strong references among contexts and resolutions. Handles that are held outside of the tree
over `base` are counted by its contexts; those inside are captured by the programs of its
factories. -/
inductive Owns (s : Store H) (base : Nat) : Ownable → Ownable → Prop
  | layer {c d : Scope} (below : (s.context? c).isSome) (there : (s.context? d).isSome)
      (parent : d.parent? = some c) : Owns s base (.context c) (.context d)
  | slot {c : Scope} {key : Key} {x : Slot H} (slot : s.slot? c key = some x) :
      Owns s base (.context c) (.resolution (c, key))
  | awaited {p : Place} {t : Task H} {w : Wait} (running : s.slot? p.1 p.2 = some (.running t))
      (waits : w ∈ t.waits) : Owns s base (.resolution p) (.resolution w.place)
  | bound {p : Place} {f : Factory H} {r : Resolver} {d : Scope} (inside : p.1.base = base)
      (binds : s.Binds p f r) (captures : (f.program r).Captures d) :
      Owns s base (.context p.1) (.context d)
  | running {p : Place} {t : Task H} {d : Scope} (inside : p.1.base = base)
      (running : s.slot? p.1 p.2 = some (.running t)) (captures : t.Captures d) :
      Owns s base (.resolution p) (.context d)

/-- A context lives when it is held, or is there and one that it is layered over is held. -/
theorem lives_iff_held (grounded : s.Grounded) :
    s.lives c = true ↔ (s.context? c).isSome ∧ ∃ d, c.Reaches d ∧ s.Held d := by
  obtain ⟨base, layers⟩ := c
  constructor
  · intro alive
    refine ⟨isSome_of_lives alive, ?_⟩
    induction layers with
    | nil => exact ⟨_, .refl, (lives_nil s base).1 alive⟩
    | cons p below ih =>
      rcases (lives_cons s base p below).1 alive with held | ⟨-, alive⟩
      · exact ⟨_, .refl, held⟩
      · obtain ⟨d, way, held⟩ := ih alive
        exact ⟨d, Scope.reaches_cons.2 (.inr way), held⟩
  · rintro ⟨there, d, way, held⟩
    induction layers with
    | nil =>
      rw [Scope.reaches_nil.1 way] at held
      exact held.lives
    | cons p below ih =>
      rcases Scope.reaches_cons.1 way with rfl | way
      · exact held.lives
      · exact (lives_cons s base p below).2 (.inr ⟨there, ih (grounded _ _ _ there) way⟩)

/-- What a context is layered over owns it, step by step. -/
theorem owns_of_reaches (grounded : s.Grounded) (there : (s.context? c).isSome)
    (way : c.Reaches d) : ReflTransGen (s.Owns base) (.context d) (.context c) := by
  obtain ⟨_, layers⟩ := c
  induction layers with
  | nil =>
    rw [Scope.reaches_nil.1 way]
  | cons p below ih =>
    rcases Scope.reaches_cons.1 way with rfl | way
    · exact .refl
    · have lower := grounded _ _ _ there
      exact (ih lower way).tail (.layer lower there rfl)

/-- A request through a resolver is served as the tree has it: by the nearest context that binds the
key, or not at all where none binds it. Only a wait that would close a circle is refused. -/
inductive ServesAsUsual (s : Store H) (r : Resolver) (key : Key) : Prop
  | unbound (none : ∀ d, r.scope.Reaches d → ¬ s.BoundIn d key)
      (refused : s.request (.resolver r) key = (.refused (.tokenNotProvided key), s))
  | circular {cycle s'} (nearest : s.Nearest r.scope key r.scope)
      (closing : (s.graph r.scope).cycleThrough r.key key = some cycle)
      (refused : s.request (.resolver r) key = (.refused (.circularDependency cycle), s'))
  | served {w s' x} (nearest : s.Nearest r.scope key w.scope) (key_eq : w.key = key)
      (waits : s.request (.resolver r) key = (.waiting w, s'))
      (resolves : s'.slot? w.scope w.key = some x)

theorem servesAsUsual {r : Resolver} (grounded : s.Grounded)
    (alive : s.lives ⟨r.scope.base, []⟩ = true) (there : (s.context? r.scope).isSome) (key : Key) :
    s.ServesAsUsual r key := by
  have lives : s.lives r.scope = true := lives_of_base grounded alive there
  have kept : s.request (.resolver r) key = s.resolve r.scope key (some r.key) := if_pos lives
  rcases asked : s.request (.resolver r) key with ⟨f | w, s'⟩
  · cases (request_refused asked).2 with
    | circular served requester closing =>
      cases requester
      exact .circular (nearest_of_serving served) closing asked
    | unbound unserved =>
      refine .unbound ((unbound_iff grounded alive there).1 unserved) ?_
      have unserved : s.serving r.scope key = .unbound := unserved
      rw [kept, resolve, unserved]
    | gone lost => exact absurd lost (serving_ne_gone grounded alive there key)
    | @dead r' same dead =>
      cases same
      rw [lives] at dead
      cases dead
  · have admitted := request_waiting asked
    obtain ⟨x, slot⟩ := admitted.exists_slot?
    exact .served (nearest_of_serving admitted.serving) admitted.key_eq asked slot

/-- No context of the tree is held. -/
def Abandoned (s : Store H) (base : Nat) : Prop := ∀ c, c.base = base → ¬ s.Held c

theorem Abandoned.lives (h : s.Abandoned base) (hc : c.base = base) : s.lives c = false := by
  obtain ⟨_, layers⟩ := c
  rw [← Bool.not_eq_true]
  intro alive
  induction layers with
  | nil => exact h _ hc ((lives_nil s _).1 alive)
  | cons p below ih =>
    rcases (lives_cons s _ p below).1 alive with held | ⟨-, alive⟩
    · exact h _ hc held
    · exact ih hc alive

theorem Abandoned.congr (h : s.Abandoned base) (same : ∀ c, s.SameHandles s' c) :
    s'.Abandoned base := fun c hc held => h c hc ((same c).held.1 held)

theorem Abandoned.request (h : s.Abandoned base) {r : Resolver} (hr : r.scope.base = base)
    (key : Key) : s.request (.resolver r) key = (.refused .aborted, s) := by
  rw [Store.request, h.lives hr]
  rfl

end Store

namespace Traffic

variable {σ τ ρ : Traffic H} {e : Happening H} {L M : List (Happening H)}

/-- What is owned from outside of the tree: contexts by their handles, and resolutions by the clients
that await them. -/
inductive Rooted (σ : Traffic H) : Ownable → Prop
  | held {c : Scope} (held : σ.store.Held c) : Rooted σ (.context c)
  | awaited {t : Task H} {w : Wait} (client : t ∈ σ.clients) (waits : w ∈ t.waits) :
      Rooted σ (.resolution w.place)

/-- Strong references lead to it from outside of the tree. -/
def Kept (σ : Traffic H) (base : Nat) (o : Ownable) : Prop :=
  ∃ root, σ.Rooted root ∧ ReflTransGen (σ.store.Owns base) root o

/-- The factories of the tree hold no handle. -/
def HandleFree (σ : Traffic H) (base : Nat) : Prop :=
  ∀ p f r c, p.1.base = base → σ.store.Binds p f r → ¬ (f.program r).Captures c

/-- What is under way in the tree holds no handle either. -/
theorem Logged.not_captures (h : Logged L σ) (free : σ.HandleFree base) {p : Place} {t : Task H}
    (inside : p.1.base = base) (running : σ.store.slot? p.1 p.2 = some (.running t)) :
    ¬ t.Captures c := by
  obtain ⟨f, r, since, binds, goes⟩ := h.invoked running
  refine not_not.2 (goes.asks (fun u hu => ?_) t rfl)
  cases hu
  exact not_not.1 (free p f r c inside binds)

/-- Ownership of contexts comes down to handles: a context is kept just as long as it lives. -/
theorem kept_iff_lives (founded : σ.Founded) (logged : Logged L σ) (free : σ.HandleFree base)
    (hc : c.base = base) : σ.Kept base (.context c) ↔ σ.store.lives c = true := by
  constructor
  · rintro ⟨root, rooted, path⟩
    -- a way to a context of the tree has come through contexts of the tree alone
    have lives : ∀ o, ReflTransGen (σ.store.Owns base) root o → ∀ d, o = .context d →
        d.base = base → σ.store.lives d = true := by
      intro o path
      induction path with
      | refl =>
        rintro d rfl -
        cases rooted with
        | held held => exact held.lives
      | tail _ owns ih =>
        rintro d rfl hd
        cases owns with
        | @layer c _ below there parent =>
          have down : d.Reaches c := .single parent
          have alive := ih c rfl (down.base_eq.trans hd)
          obtain ⟨-, a, way, held⟩ := (Store.lives_iff_held founded.grounded).1 alive
          exact (Store.lives_iff_held founded.grounded).2 ⟨there, a, .head parent way, held⟩
        | bound inside binds captures => exact absurd captures (free _ _ _ d inside binds)
        | running inside running captures =>
          exact absurd captures (logged.not_captures free inside running)
    exact lives _ path c rfl hc
  · intro alive
    obtain ⟨there, d, way, held⟩ := (Store.lives_iff_held founded.grounded).1 alive
    exact ⟨_, .held held, Store.owns_of_reaches founded.grounded there way⟩

/-- Nothing that happens holds a context of an abandoned tree again. -/
theorem Step.abandoned (hs : Step σ e τ) (founded : σ.Founded) (feasible : e.Feasible σ)
    (opened : (σ.store.context? ⟨base, []⟩).isSome) (h : σ.store.Abandoned base) :
    τ.store.Abandoned base := by
  cases hs with
  | client _ acts => exact h.congr acts.effect.sameHandles
  | factory _ acts =>
    exact (h.congr acts.effect.sameHandles).congr fun c => Store.sameHandles_setSlot ..
  | settle => exact h.congr fun c => Store.sameHandles_setSlot ..
  | arrive => exact h
  | @leave s cs i t => exact h.congr (sameHandles_drop t s)
  | elsewhere same => exact h.congr same.sameHandles
  | @openBase s cs p g =>
    rintro c hc ⟨x, hx, handles⟩
    rw [Store.context?_openBase] at hx
    split at hx
    · rename_i new
      -- the new base has a number that was free
      obtain ⟨y, hy⟩ := Option.isSome_iff_exists.1 opened
      have fresh : base < s.bases.next := founded.numbered _ y hy
      rw [new] at hc
      exact absurd hc (Nat.ne_of_gt fresh)
    · exact h c hc ⟨x, hx, handles⟩
  | @openLayer s cs d p =>
    rcases Store.layer_cases s d p with same | ⟨-, y, -, new⟩
    · have h : (s.layer d p).2.Abandoned base := by
        rw [same]
        exact h
      exact h
    · rintro c hc ⟨x, hx, handles⟩
      have hx : (s.layer d p).2.context? c = some x := hx
      rw [new] at hx
      split at hx
      · cases hx
        exact absurd handles (Nat.lt_irrefl 0)
      · exact h c hc ⟨x, hx, handles⟩
  | @hold s cs d =>
    rintro c hc ⟨x, hx, handles⟩
    have hx : (s.retain d).context? c = some x := hx
    rw [Store.retain, Store.context?_changeContext] at hx
    split at hx
    · rename_i here
      have alive : s.lives d = true := feasible
      rw [← here, h.lives hc] at alive
      cases alive
    · exact h c hc ⟨x, hx, handles⟩
  | @release s cs d =>
    rintro c hc ⟨x, hx, handles⟩
    have hx : (s.release d).context? c = some x := hx
    rw [Store.release, Store.context?_changeContext] at hx
    split at hx
    · obtain ⟨y, hy, rfl⟩ := Option.map_eq_some_iff.1 hx
      exact h c hc ⟨y, hy, Nat.lt_of_lt_of_le handles (Nat.sub_le y.handles 1)⟩
    · exact h c hc ⟨x, hx, handles⟩

theorem FeasibleRun.abandoned (run : FeasibleRun σ L τ) (founded : σ.Founded)
    (opened : (σ.store.context? ⟨base, []⟩).isSome) (h : σ.store.Abandoned base) :
    τ.store.Abandoned base := by
  induction run with
  | nil => exact h
  | snoc before step feasible ih =>
    exact step.abandoned (founded.run before.run) feasible
      ((founded.extends before.run).isSome opened) ih

/-- What is requested through a resolver of an abandoned tree is refused at once, and no resolution is
touched, but the one that the request is part of. -/
theorem Step.refused_of_abandoned {who : Actor} {deed : Deed H} {r : Resolver}
    (hs : Step σ (.acted who deed) τ) (h : σ.store.Abandoned base) (hr : r.scope.base = base)
    (made : deed.request? = some (.resolver r, key)) :
    deed = .refused (.resolver r) key .aborted ∧
      ∀ p, who ≠ .factory p → τ.store.slot? p.1 p.2 = σ.store.slot? p.1 p.2 := by
  have aborted := h.request hr key
  have refused : ∀ s', deed.Effect σ.store s' →
      deed = .refused (.resolver r) key .aborted ∧ s' = σ.store := by
    intro s' effect
    cases deed with
    | begun via key' w invokes =>
      cases made
      cases aborted.symm.trans effect.1
    | refused via key' f =>
      cases made
      cases aborted.symm.trans effect
      exact ⟨rfl, rfl⟩
    | _ => cases made
  cases hs with
  | client _ acts =>
    obtain ⟨deed_eq, rfl⟩ := refused _ acts.effect
    exact ⟨deed_eq, fun _ _ => rfl⟩
  | factory running acts =>
    obtain ⟨deed_eq, rfl⟩ := refused _ acts.effect
    refine ⟨deed_eq, fun q other => ?_⟩
    obtain ⟨z, hz, -⟩ := Store.exists_context?_of_slot? running
    rw [Store.slot?_setSlot hz, if_neg]
    rintro ⟨hd, hj⟩
    exact other (congrArg Actor.factory (Prod.ext hd.symm hj.symm))

/-- A tree of contexts is kept by its handles alone. A context lives when it or one that it is layered
over is held, and that is when strong references lead to it, unless factories of the tree capture
handles. While the base is held, all resolvers of the tree serve as usual. Once no context of the
tree is held, none lives any more, and all requests through its resolvers abort at once: whatever
happens, they begin no wait, invoke no factory and leave all resolutions as they are. -/
theorem contexts_live_by_handles {s₀ : Store H} (h₀ : s₀.contexts = .empty)
    (run : FeasibleRun ⟨s₀, []⟩ L σ) (base : Nat) :
    (∀ c, c.base = base →
      (σ.store.lives c = true ↔
        (σ.store.context? c).isSome ∧ ∃ d, c.Reaches d ∧ σ.store.Held d) ∧
      (σ.HandleFree base → (σ.Kept base (.context c) ↔ σ.store.lives c = true))) ∧
    (σ.store.Held ⟨base, []⟩ → ∀ (r : Resolver) key, r.scope.base = base →
      (σ.store.context? r.scope).isSome → σ.store.ServesAsUsual r key) ∧
    ((σ.store.context? ⟨base, []⟩).isSome → σ.store.Abandoned base →
      ∀ M τ, FeasibleRun σ M τ →
        (∀ c, c.base = base → τ.store.lives c = false ∧
          (τ.HandleFree base → ¬ τ.Kept base (.context c))) ∧
        ∀ (r : Resolver) key, r.scope.base = base →
          τ.store.request (.resolver r) key = (.refused .aborted, τ.store) ∧
          (∀ policy driving depth next,
            Task.move policy driving depth τ.store (.run (.get (.resolver r) key next)) =
              some (.run (next (.error .aborted)), τ.store)) ∧
          ∀ who deed ρ, Step τ (.acted who deed) ρ → deed.request? = some (.resolver r, key) →
            deed = .refused (.resolver r) key .aborted ∧
            ∀ p, who ≠ .factory p → ρ.store.slot? p.1 p.2 = τ.store.slot? p.1 p.2) := by
  have founded : ∀ {L τ}, FeasibleRun ⟨s₀, []⟩ L τ → τ.Founded := fun whole =>
    (Founded.empty h₀ []).run whole.run
  have logged : ∀ {L τ}, FeasibleRun ⟨s₀, []⟩ L τ → Logged ([] ++ L) τ := fun whole =>
    (Logged.empty h₀).run whole.run
  refine ⟨fun c hc => ⟨Store.lives_iff_held (founded run).grounded, fun free =>
    kept_iff_lives (founded run) (logged run) free hc⟩, ?_, ?_⟩
  · rintro held r key rfl there
    exact Store.servesAsUsual (founded run).grounded held.lives there key
  · intro opened abandoned M τ more
    have later := more.abandoned (founded run) opened abandoned
    have whole := run.append more
    refine ⟨fun c hc => ⟨later.lives hc, fun free kept => ?_⟩, fun r key hr =>
      ⟨later.request hr key, fun policy driving depth next => ?_, fun who deed ρ step made =>
        step.refused_of_abandoned later hr made⟩⟩
    · have alive := (kept_iff_lives (founded whole) (logged whole) free hc).1 kept
      rw [later.lives hc] at alive
      cases alive
    · rw [Task.move, Task.advance, later.request hr key]

/-! A number whose making is given up -/

def requestOfM : Program Host.counting :=
  .get (.context ⟨0, []⟩) "M" fun _ => .done (.ok ⟨.unit, ()⟩)

theorem abandoned_of_single {s : Store H} {x : Context H} (single : s.contexts.values = [x])
    (unheld : x.handles = 0) (base : Nat) : s.Abandoned base := by
  rintro c - ⟨y, hy, handles⟩
  have mem := OrderedMap.mem_values_of_get? hy
  rw [single] at mem
  cases List.mem_singleton.1 mem
  exact absurd unheld (Nat.ne_of_gt handles)

theorem handleFree_of_single {σ : Traffic Host.counting} {x : Context Host.counting}
    (single : σ.store.contexts.values = [x]) (provider : x.provider = lowerProvider) (base : Nat) :
    σ.HandleFree base := by
  rintro p f r c - ⟨y, hy, hf, -⟩
  have mem := OrderedMap.mem_values_of_get? hy
  rw [single] at mem
  cases List.mem_singleton.1 mem
  have hf : lowerProvider.bindings.get? p.2 = some f := provider ▸ hf
  rw [lowerProvider, OrderedMap.get?_set, OrderedMap.get?_set] at hf
  refine not_not.2 ?_
  split at hf
  · cases hf
    exact Task.asks_iff (t := .run _).2 (requests_derived Access.noConfusion)
  split at hf
  · cases hf
    trivial
  · cases hf

/-- Nobody waits any more for the number, nor for the one that it is made from, and both are
unfinished. The resolver that is left of them serves as long as the context is held. -/
theorem resolver_outlives_context : ∃ (L : List (Happening Host.counting))
    (σ τ : Traffic Host.counting), FeasibleRun ⟨{ user := (0 : ℕ) }, []⟩ L σ ∧
      σ.store.Unfinished (⟨0, []⟩, "M") ∧ σ.store.Unfinished (⟨0, []⟩, "N") ∧
      σ.store.ServesAsUsual ⟨⟨0, []⟩, .root 0, "M"⟩ "N" ∧
      Step σ (.released ⟨0, []⟩) τ ∧ τ.store.Unfinished (⟨0, []⟩, "M") ∧
      τ.store.request (.resolver ⟨⟨0, []⟩, .root 0, "M"⟩) "N" = (.refused .aborted, τ.store) ∧
      ¬ τ.Kept 0 (.context ⟨0, []⟩) := by
  have opened := (FeasibleRun.nil ⟨{ user := (0 : ℕ) }, []⟩).snoc
    (.openBase (p := lowerProvider) (g := .root 0)) trivial
  have arrived := opened.snoc (.arrive (p := requestOfM)) trivial
  have begun := arrived.snoc (.client (i := 0) rfl (.begin rfl)) trivial
  have awaiting := begun.snoc (.factory (p := (⟨0, []⟩, "M")) rfl (.begin rfl)) trivial
  have given_up := awaiting.snoc (.leave (i := 0) rfl) trivial
  have released := given_up.snoc (.release (c := ⟨0, []⟩)) trivial
  obtain ⟨-, serves, -⟩ := contexts_live_by_handles rfl given_up 0
  obtain ⟨-, -, gone⟩ := contexts_live_by_handles rfl released 0
  obtain ⟨dead, aborts⟩ := gone rfl (abandoned_of_single rfl rfl 0) _ _ (.nil _)
  exact ⟨_, _, _, given_up, ⟨_, rfl⟩, ⟨_, rfl⟩, serves ⟨_, rfl, Nat.zero_lt_one⟩ _ _ rfl rfl,
    .release, ⟨_, rfl⟩, (aborts _ _ rfl).1, (dead _ rfl).2 (handleFree_of_single rfl rfl 0)⟩

end Traffic

end ScopedEffects
