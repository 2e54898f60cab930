import ScopedEffects.Proofs.Traffic.Refinement

/-! The scoping of bindings. A key means what the nearest context binds it to, on the way from the
context where it is requested down its parents. The factory of that binding requests from its own
context down, whoever made it begin, so that a layer above can neither shadow what it needs nor
change what the others get. -/

namespace ScopedEffects

open Relation

variable {H : Host} {s s' : Store H} {c d a : Scope} {key : Key}

namespace Scope

/-- The way from the context `c` down its parents leads to `d`. -/
def Reaches : Scope → Scope → Prop := ReflTransGen fun c d => c.parent? = some d

theorem parent?_eq_some {base p : Nat} {below : List Nat} :
    (⟨base, p :: below⟩ : Scope).parent? = some d ↔ d = ⟨base, below⟩ := by
  simp [parent?, eq_comm]

theorem reaches_nil {base : Nat} : (⟨base, []⟩ : Scope).Reaches d ↔ d = ⟨base, []⟩ := by
  constructor
  · intro h
    rcases ReflTransGen.cases_head h with here | ⟨e, step, -⟩
    · exact here.symm
    · simp [parent?] at step
  · rintro rfl
    exact .refl

theorem reaches_cons {base p : Nat} {below : List Nat} :
    (⟨base, p :: below⟩ : Scope).Reaches d ↔
      d = ⟨base, p :: below⟩ ∨ (⟨base, below⟩ : Scope).Reaches d := by
  constructor
  · intro h
    rcases ReflTransGen.cases_head h with here | ⟨e, step, rest⟩
    · exact .inl here.symm
    · rw [parent?_eq_some.1 step] at rest
      exact .inr rest
  · rintro (rfl | h)
    · exact .refl
    · exact .head (parent?_eq_some.2 rfl) h

theorem Reaches.length_le (h : c.Reaches d) : d.layers.length ≤ c.layers.length := by
  induction h with
  | refl => exact le_rfl
  | @tail d e _ step ih =>
    obtain ⟨base, layers⟩ := d
    cases layers with
    | nil => simp [parent?] at step
    | cons p below =>
      rw [parent?_eq_some.1 step]
      exact (Nat.le_succ _).trans ih

end Scope

namespace Store

/-- The provider of the context binds the key. -/
def BoundIn (s : Store H) (c : Scope) (key : Key) : Prop :=
  ∃ x, s.context? c = some x ∧ x.provider.contains key = true

/-- On the way down from `c`, the context `a` is the first that binds the key. -/
structure Nearest (s : Store H) (c : Scope) (key : Key) (a : Scope) : Prop where
  reaches : c.Reaches a
  bound : s.BoundIn a key
  first : ∀ d, c.Reaches d → s.BoundIn d key → a.Reaches d

theorem boundIn_iff {base : Nat} {layers : List Nat} :
    servingAt.bound s base key layers = true ↔ s.BoundIn ⟨base, layers⟩ key := by
  unfold servingAt.bound BoundIn
  cases s.context? ⟨base, layers⟩ <;> simp

theorem Nearest.of_bound (h : s.BoundIn c key) : s.Nearest c key c :=
  ⟨.refl, h, fun _ way _ => way⟩

/-- A layer that does not bind the key is passed by. -/
theorem nearest_cons {base p : Nat} {below : List Nat}
    (free : ¬ s.BoundIn ⟨base, p :: below⟩ key) :
    s.Nearest ⟨base, p :: below⟩ key a ↔ s.Nearest ⟨base, below⟩ key a := by
  constructor
  · rintro ⟨way, bound, first⟩
    rcases Scope.reaches_cons.1 way with rfl | way
    · exact absurd bound free
    · exact ⟨way, bound, fun d hd => first d (Scope.reaches_cons.2 (.inr hd))⟩
  · rintro ⟨way, bound, first⟩
    refine ⟨Scope.reaches_cons.2 (.inr way), bound, fun d hd hb => ?_⟩
    rcases Scope.reaches_cons.1 hd with rfl | hd
    · exact absurd hb free
    · exact first d hd hb

/-- What serves a key is the nearest context that binds it. -/
theorem nearest_of_serving (h : s.serving c key = .found a) : s.Nearest c key a := by
  obtain ⟨base, layers⟩ := c
  induction layers with
  | nil =>
    rw [serving_nil] at h
    split at h
    · rename_i bound
      cases h
      exact .of_bound (boundIn_iff.1 bound)
    · cases h
  | cons p below ih =>
    rw [serving_cons] at h
    split at h
    · rename_i bound
      cases h
      exact .of_bound (boundIn_iff.1 bound)
    · rename_i free
      apply (nearest_cons (mt boundIn_iff.2 free)).2
      split at h
      · exact ih h
      · cases h

theorem unbound_of_serving (h : s.serving c key = .unbound) (way : c.Reaches d) :
    ¬ s.BoundIn d key := by
  obtain ⟨base, layers⟩ := c
  induction layers with
  | nil =>
    rw [serving_nil] at h
    split at h
    · cases h
    · rename_i free
      rw [Scope.reaches_nil.1 way]
      exact mt boundIn_iff.2 free
  | cons p below ih =>
    rw [serving_cons] at h
    split at h
    · cases h
    · rename_i free
      rcases Scope.reaches_cons.1 way with rfl | way
      · exact mt boundIn_iff.2 free
      · split at h
        · exact ih h way
        · cases h

theorem Nearest.unique (h : s.Nearest c key a) (h' : s.Nearest c key d) : a = d := by
  have down := h.first d h'.reaches h'.bound
  have up := h'.first a h.reaches h.bound
  rcases ReflTransGen.cases_head down with same | ⟨e, step, rest⟩
  · exact same
  · -- the way down gets shorter with each step, so that it does not come back
    have longer : e.layers.length < a.layers.length := by
      obtain ⟨base, layers⟩ := a
      cases layers with
      | nil => simp [Scope.parent?] at step
      | cons p below =>
        rw [Scope.parent?_eq_some.1 step]
        exact Nat.lt_succ_self _
    have rest : e.Reaches d := rest
    have := rest.length_le
    have := up.length_le
    omega

/-- In a tree that lives, a key is served by the nearest context that binds it, or by none. -/
theorem serving_cases (grounded : s.Grounded) (alive : s.lives ⟨c.base, []⟩ = true)
    (there : (s.context? c).isSome) (key : Key) :
    (∃ a, s.serving c key = .found a ∧ s.Nearest c key a) ∨
      s.serving c key = .unbound ∧ ∀ d, c.Reaches d → ¬ s.BoundIn d key := by
  cases h : s.serving c key with
  | found a => exact .inl ⟨a, rfl, nearest_of_serving h⟩
  | unbound => exact .inr ⟨rfl, fun d way => unbound_of_serving h way⟩
  | gone => exact absurd h (serving_ne_gone grounded alive there key)

theorem serving_iff_nearest (grounded : s.Grounded) (alive : s.lives ⟨c.base, []⟩ = true)
    (there : (s.context? c).isSome) : s.serving c key = .found a ↔ s.Nearest c key a := by
  refine ⟨nearest_of_serving, fun near => ?_⟩
  rcases serving_cases grounded alive there key with ⟨b, found, near'⟩ | ⟨-, none⟩
  · rw [found, near.unique near']
  · exact absurd near.bound (none a near.reaches)

theorem unbound_iff (grounded : s.Grounded) (alive : s.lives ⟨c.base, []⟩ = true)
    (there : (s.context? c).isSome) :
    s.serving c key = .unbound ↔ ∀ d, c.Reaches d → ¬ s.BoundIn d key := by
  refine ⟨fun h d way => unbound_of_serving h way, fun none => ?_⟩
  rcases serving_cases grounded alive there key with ⟨a, -, near⟩ | ⟨unbound, -⟩
  · exact absurd near.bound (none a near.reaches)
  · exact unbound

theorem provides_eq_false_iff (grounded : s.Grounded) (alive : s.lives ⟨c.base, []⟩ = true)
    (there : (s.context? c).isSome) : s.provides c key = false ↔ s.serving c key = .unbound := by
  rw [← Bool.not_eq_true, provides_iff]
  rcases serving_cases grounded alive there key with ⟨a, found, -⟩ | ⟨unbound, -⟩
  · simp [found]
  · simp [unbound]

/-- A request that falls through to `a` is what a request made at `a` is, for whoever makes it. -/
theorem request_of_serving (h : s.serving c key = .found a) :
    s.request (.context c) key = (.waiting ⟨a, key, none⟩, s.join a key) ∧
      ∀ r : Resolver, r.scope = c → s.lives c = true → a ≠ c →
        s.request (.resolver r) key = (.waiting ⟨a, key, none⟩, s.join a key) := by
  have enlisted : s.enlist a key none = (.waiting ⟨a, key, none⟩, s.join a key) := rfl
  constructor
  · simp [request, resolve, h, enlisted]
  · rintro r rfl lives other
    simp [request, resolve, h, lives, other, enlisted]

theorem request_unbound_iff :
    (∃ s', s.request (.context c) key = (.refused (.tokenNotProvided key), s')) ↔
      s.serving c key = .unbound := by
  constructor
  · rintro ⟨s', refused⟩
    cases (request_refused refused).2 with
    | unbound h => exact h
  · intro h
    exact ⟨s, by simp [request, resolve, h]⟩

/-- Layering over a context leaves the base of each tree as it was. -/
theorem lives_layer (s : Store H) (c : Scope) (p : Provider H) {base : Nat}
    (alive : s.lives ⟨base, []⟩ = true) : (s.layer c p).2.lives ⟨base, []⟩ = true := by
  rcases layer_cases s c p with same | ⟨-, below, -, new⟩
  · rwa [same]
  · obtain ⟨x, hx, held⟩ := (lives_nil s base).1 alive
    have other : (⟨base, []⟩ : Scope) ≠ c.push p.identity := by simp [Scope.push]
    apply (lives_nil _ base).2
    exact ⟨x, by rw [new, if_neg other, hx], held⟩

/-- A new layer shadows what its provider binds. All else passes through it. -/
theorem nearest_layer {p : Provider H} (there : (s.context? c).isSome)
    (fresh : s.context? (c.push p.identity) = none) :
    (p.contains key = true →
      (s.layer c p).2.Nearest (s.layer c p).1 key (s.layer c p).1) ∧
    (p.contains key = false → ((s.layer c p).2.Nearest (s.layer c p).1 key a ↔
      (s.layer c p).2.Nearest c key a)) := by
  have opened : ∃ x, (s.layer c p).2.context? (c.push p.identity) = some x ∧ x.provider = p := by
    obtain ⟨below, hb⟩ := Option.isSome_iff_exists.1 there
    have layer : s.layer c p = (c.push p.identity, { s.record (.openingLayer p.keys) with
        contexts := s.contexts.set (c.push p.identity)
          { provider := p, signal := below.signal } }) := by
      simp [Store.layer, hb, fresh, record]
    exact ⟨{ provider := p, signal := below.signal },
      by simp [layer, context?, OrderedMap.get?_set], rfl⟩
  obtain ⟨x, hx, rfl⟩ := opened
  rw [scope_layer]
  constructor
  · exact fun binds => .of_bound ⟨x, hx, binds⟩
  · intro free
    apply nearest_cons
    rintro ⟨y, hy, binds⟩
    cases hx.symm.trans hy
    rw [free] at binds
    cases binds

end Store

namespace Factory

variable {f : Factory H} {r : Resolver} {x y : Slot H} {L : List (Happening H)}
  {ok : Access → Prop}

/-- However far an invocation has come, it requests through nothing that its program does not. -/
theorem GoesOn.asks (h : f.GoesOn r x L y) (hx : ∀ t, x = .running t → t.Asks ok) :
    ∀ t, y = .running t → t.Asks ok := by
  induction h with
  | nil => exact hx
  | snoc _ next ih =>
    cases next with
    | still => exact ih
    | acts acts =>
      rintro t ⟨⟩
      exact acts.asks (ih _ rfl)
    | settles => rintro t ⟨⟩

end Factory

namespace Traffic

variable {σ τ : Traffic H} {L M : List (Happening H)} {p : Place} {base : Nat}

/-- The factory of the place requests through the resolver that it is handed alone. -/
def KeptAt (σ : Traffic H) (p : Place) : Prop :=
  ∀ f r, σ.store.Binds p f r → (f.program r).Asks (Access.Own p)

/-- What is under way or settled at a place has begun with an invocation of its factory. -/
theorem Logged.invoked (h : Logged L σ) {x : Slot H} (slot : σ.store.slot? p.1 p.2 = some x) :
    ∃ f r since, σ.store.Binds p f r ∧ f.GoesOn r (.running (.run (f.program r))) since x := by
  rcases h.recorded p with ⟨none, -⟩ | ⟨f, r, -, -, since, y, -, -, -, binds, slot', goes⟩
  · rw [none] at slot
    cases slot
  · rw [slot] at slot'
    cases slot'
    exact ⟨f, r, since, binds, goes⟩

theorem Logged.asks (h : Logged L σ) (kept : σ.KeptAt p) {t : Task H}
    (running : σ.store.slot? p.1 p.2 = some (.running t)) : t.Asks (Access.Own p) := by
  obtain ⟨f, r, since, binds, goes⟩ := h.invoked running
  refine goes.asks (fun u hu => ?_) t rfl
  cases hu
  exact kept f r binds

theorem FeasibleRun.nearest_iff (run : FeasibleRun σ M τ) (founded : σ.Founded)
    (alive : σ.store.lives ⟨base, []⟩ = true) (later : τ.store.lives ⟨base, []⟩ = true)
    {c a : Scope} (hc : c.base = base) (there : (σ.store.context? c).isSome) (key : Key) :
    τ.store.Nearest c key a ↔ σ.store.Nearest c key a := by
  subst hc
  have grown := founded.extends run.run
  have grounded := (founded.run run.run).grounded
  rw [← Store.serving_iff_nearest founded.grounded alive there,
    ← Store.serving_iff_nearest grounded later (grown.isSome there),
    grown.serving founded.grounded grounded alive later there key]

theorem Step.requests_of_factory {d : Deed H} (step : Step σ (.acted (.factory p) d) τ)
    (logged : Logged L σ) :
    (∃ s', d.Effect σ.store s') ∧ (σ.store.context? p.1).isSome ∧
      (σ.KeptAt p → ∀ via key, d.request? = some (via, key) → via.Own p) := by
  cases step with
  | @factory s cs p t d s' t' running acts =>
    obtain ⟨x, hx, -⟩ := Store.exists_context?_of_slot? running
    have there : s.context? p.1 = some x := hx
    refine ⟨⟨s', acts.effect⟩, by rw [there]; rfl, fun kept via key made => ?_⟩
    exact acts.asked (logged.asks kept running) made

/-- Bindings are scoped by the tree of contexts. Direct requests are served by the nearest context
that binds the key, in whatever way the contexts above it shadow other keys, and fail for want of a
binding exactly where the key is not provided; a factory's requests are served from its own context
down. All who are served at one place get the same outcome, later layers leave what the tree serves
as it was, and a new layer shadows what its provider binds and nothing else. -/
theorem bindings_are_scoped {s₀ : Store H} (h₀ : s₀.contexts = .empty)
    (run : FeasibleRun ⟨s₀, []⟩ L σ) (alive : σ.store.lives ⟨base, []⟩ = true) :
    (∀ c key, c.base = base → (σ.store.context? c).isSome →
      (∀ a, σ.store.Nearest c key a →
        σ.store.request (.context c) key = (.waiting ⟨a, key, none⟩, σ.store.join a key) ∧
        ∀ r : Resolver, r.scope = c →
          (a ≠ c →
            σ.store.request (.resolver r) key = (.waiting ⟨a, key, none⟩, σ.store.join a key)) ∧
          ((∃ cycle s', σ.store.request (.resolver r) key =
              (.refused (.circularDependency cycle), s')) ∨
            ∃ w s', σ.store.request (.resolver r) key = (.waiting w, s') ∧ w.place = (a, key))) ∧
      ((∃ a, σ.store.Nearest c key a) ↔ σ.store.provides c key = true) ∧
      ((∃ s', σ.store.request (.context c) key = (.refused (.tokenNotProvided key), s')) ↔
        σ.store.provides c key = false) ∧
      (σ.store.provides c key = false ↔ ∀ d, c.Reaches d → ¬ σ.store.BoundIn d key)) ∧
    (∀ (p : Place) x, σ.store.slot? p.1 p.2 = some x → ∃ f r since,
      σ.store.Binds p f r ∧ r.place = p ∧ f.GoesOn r (.running (.run (f.program r))) since x) ∧
    (∀ (p : Place) d τ, p.1.base = base → Step σ (.acted (.factory p) d) τ →
      (σ.KeptAt p →
        ∀ via key, d.request? = some (via, key) → ∃ r, via = .resolver r ∧ r.place = p) ∧
      (∀ r key w invokes, r.place = p → d = .begun (.resolver r) key w invokes →
        w.key = key ∧ σ.store.Nearest p.1 key w.scope) ∧
      ∀ r key f, r.place = p → d = .refused (.resolver r) key f →
        f = .tokenNotProvided key ∧ σ.store.provides p.1 key = false ∨
          (∃ cycle, f = .circularDependency cycle) ∧ σ.store.Nearest p.1 key p.1) ∧
    (∀ M τ, FeasibleRun σ M τ → τ.store.lives ⟨base, []⟩ = true →
      (∀ c key a, c.base = base → (σ.store.context? c).isSome →
        (τ.store.Nearest c key a ↔ σ.store.Nearest c key a)) ∧
      ∀ who who' w w' o o', .acted who (.answered w o) ∈ L ++ M →
        .acted who' (.answered w' o') ∈ L ++ M → w.place = w'.place → o = o') ∧
    ∀ c p, c.base = base → (σ.store.context? c).isSome →
      σ.store.context? (c.push p.identity) = none →
      ∀ key, let s := (σ.store.layer c p).2
        (p.contains key = true → s.Nearest (σ.store.layer c p).1 key (σ.store.layer c p).1) ∧
        (p.contains key = false → ∀ a,
          s.Nearest (σ.store.layer c p).1 key a ↔ σ.store.Nearest c key a) := by
  have founded : σ.Founded := (Founded.empty h₀ []).run run.run
  have logged : ∀ {M τ}, FeasibleRun σ M τ → Logged (L ++ M) τ := by
    intro M τ more
    have all := (Logged.empty h₀).run (run.append more).run
    rwa [List.nil_append] at all
  have now : Logged L σ := by
    have all := logged (.nil σ)
    rwa [List.append_nil] at all
  refine ⟨?_, ?_, ?_, ?_, ?_⟩
  · rintro c key rfl there
    refine ⟨fun a near => ?_, ?_, ?_, ?_⟩
    · have served := (Store.serving_iff_nearest founded.grounded alive there).2 near
      have lives := Store.lives_of_base founded.grounded alive there
      obtain ⟨direct, resolved⟩ := Store.request_of_serving served
      refine ⟨direct, fun r hr => ⟨resolved r hr lives, ?_⟩⟩
      subst hr
      have served : σ.store.serving (Access.resolver r).scope key = .found a := served
      have live : ∀ r', Access.resolver r = .resolver r' → σ.store.lives r'.scope = true := by
        rintro r' ⟨⟩
        exact lives
      rcases Store.request_served served live with
        ⟨cycle, s', refused, -⟩ | ⟨w, s', x, waits, place, -⟩
      · exact .inl ⟨cycle, s', refused⟩
      · exact .inr ⟨w, s', waits, place⟩
    · rw [Store.provides_iff]
      exact exists_congr fun a => (Store.serving_iff_nearest founded.grounded alive there).symm
    · rw [Store.request_unbound_iff, Store.provides_eq_false_iff founded.grounded alive there]
    · rw [Store.provides_eq_false_iff founded.grounded alive there]
      exact Store.unbound_iff founded.grounded alive there
  · intro p x slot
    obtain ⟨f, r, since, binds, goes⟩ := now.invoked slot
    exact ⟨f, r, since, binds, binds.place_eq, goes⟩
  · rintro p d τ rfl step
    obtain ⟨⟨s', effect⟩, there, own⟩ := step.requests_of_factory now
    refine ⟨fun kept via key made => ?_, ?_, ?_⟩
    · cases via with
      | context => exact (own kept _ key made).elim
      | resolver r => exact ⟨r, rfl, own kept _ key made⟩
    · rintro r key w invokes rfl rfl
      have admitted := Store.request_waiting effect.1
      exact ⟨admitted.key_eq, Store.nearest_of_serving admitted.serving⟩
    · rintro r key f rfl rfl
      cases (Store.request_refused effect).2 with
      | circular served => exact .inr ⟨⟨_, rfl⟩, Store.nearest_of_serving served⟩
      | unbound unserved =>
        exact .inl ⟨rfl, (Store.provides_eq_false_iff founded.grounded alive there).2 unserved⟩
      | gone lost => exact absurd lost (Store.serving_ne_gone founded.grounded alive there key)
      | @dead r' hr dead =>
        cases hr
        have lives : σ.store.lives r.scope = true :=
          Store.lives_of_base founded.grounded alive there
        rw [lives] at dead
        cases dead
  · intro M τ more later
    refine ⟨fun c key a hc there => more.nearest_iff founded alive later hc there key, ?_⟩
    intro who who' w w' o o' told told' same
    have settled : τ.store.slot? w.place.1 w.place.2 = _ := (logged more).answered who w o told
    have settled' := (logged more).answered who' w' o' told'
    rw [same] at settled
    cases settled.symm.trans settled'
    rfl
  · rintro c p rfl there fresh key
    have layered := (FeasibleRun.nil σ).snoc (.openLayer (c := c) (p := p)) trivial
    have later := Store.lives_layer σ.store c p alive
    refine ⟨(Store.nearest_layer (a := c) there fresh).1, fun free a => ?_⟩
    exact ((Store.nearest_layer there fresh).2 free).trans
      (layered.nearest_iff founded alive later rfl there key)

def requestOfIncreased : Program Host.counting :=
  .get (.context ⟨0, [1]⟩) "M" fun _ => .done (.ok ⟨.unit, ()⟩)

/-- The layer shadows the number that the one below it is made from. Whoever requests that one
through the layer is served below, and there it is made from the number below. -/
theorem increased_is_made_below : ∃ (L : List (Happening Host.counting))
    (σ τ : Traffic Host.counting),
    FeasibleRun ⟨{ user := (0 : ℕ) }, []⟩ L σ ∧
      Step σ (.acted (.factory (⟨0, []⟩, "M"))
        (.begun (.resolver ⟨⟨0, []⟩, .root 0, "M"⟩) "N"
          ⟨⟨0, []⟩, "N", some "M"⟩ true)) τ ∧
      σ.store.BoundIn ⟨0, [1]⟩ "N" ∧
      σ.store.request (.context ⟨0, [1]⟩) "M" =
        (.waiting ⟨⟨0, []⟩, "M", none⟩, σ.store.join ⟨0, []⟩ "M") ∧
      σ.store.Nearest ⟨0, []⟩ "N" ⟨0, []⟩ := by
  have opened := (FeasibleRun.nil ⟨{ user := (0 : ℕ) }, []⟩).snoc
    (.openBase (p := lowerProvider) (g := .root 0)) trivial
  have layered := opened.snoc (.openLayer (c := ⟨0, []⟩) (p := upperProvider)) trivial
  have arrived := layered.snoc (.arrive (p := requestOfIncreased)) trivial
  have invoked := arrived.snoc (.client (i := 0) rfl (.begin rfl)) trivial
  obtain ⟨direct, -, factories, -⟩ := bindings_are_scoped rfl invoked
    (show Store.lives _ ⟨0, []⟩ = true from rfl)
  refine ⟨_, _, _, invoked, .factory rfl (.begin rfl), ⟨_, rfl, rfl⟩, ?_, ?_⟩
  · exact ((direct ⟨0, [1]⟩ "M" rfl rfl).1 ⟨0, []⟩ (Store.nearest_of_serving rfl)).1
  · obtain ⟨-, begun, -⟩ := factories (⟨0, []⟩, "M") _ _ rfl (.factory rfl (.begin rfl))
    exact (begun _ _ _ _ rfl rfl).2

end Traffic
end ScopedEffects
