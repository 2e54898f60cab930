import ScopedEffects.Proofs.Program.Outcomes
import ScopedEffects.Proofs.Store.Liveness
import ScopedEffects.Proofs.Traffic.Orderly

/-! Evaluation by plain recursion. To evaluate a key, the factory that serves it runs alone, from one
end to the other, and whatever it requests is evaluated in the same way. Nothing is cached, and
nothing looks out for circles. Where the requests of factories go down in a well-founded order, and
their outcomes are settled by the answers, every key has one value. -/

namespace ScopedEffects

variable {H : Host} {s s' : Store H}

theorem Access.Own.scope_eq {via : Access} {p : Place} (h : via.Own p) : via.scope = p.1 := by
  cases via with
  | context => cases h
  | resolver r => exact congrArg Prod.fst h

namespace Store

/-- The factory that a context binds a key to, and the resolver that it is handed. -/
def factory? (s : Store H) (c : Scope) (key : Key) : Option (Factory H × Resolver) :=
  (s.context? c).bind fun x => (x.provider.factory? key).map fun f => (f, ⟨c, x.signal, key⟩)

theorem factory?_eq_some {p : Place} {f : Factory H} {r : Resolver} :
    s.factory? p.1 p.2 = some (f, r) ↔ s.Binds p f r := by
  simp only [factory?, Option.bind_eq_some_iff, Option.map_eq_some_iff, Prod.mk.injEq, Binds]
  constructor
  · rintro ⟨x, hx, g, hg, rfl, rfl⟩
    exact ⟨x, hx, hg, rfl⟩
  · rintro ⟨x, hx, hf, rfl⟩
    exact ⟨x, hx, f, hf, rfl, rfl⟩

/-- The value of a key for requests at the context `c`. The number bounds how deep the recursion
goes. -/
def evaluate :
    ℕ → Scope → Key → Store H → Option (Except (Failure H) (AnyInstance H) × Store H)
  | 0, _, _, _ => none
  | fuel + 1, c, key, s =>
    match s.serving c key with
    | .unbound => some (.error (.tokenNotProvided key), s)
    | .gone => some (.error .aborted, s)
    | .found d => (s.factory? d key).bind fun (f, r) =>
      ((f.program r).eval (fun via key => evaluate fuel via.scope key) s).bind fun (o, s) =>
        some (f.outcome r o, s)

/-- The evaluation comes to `o`, whatever the clock, the shared state and the signals are. -/
def Evaluates (s : Store H) (c : Scope) (key : Key) (o : Except (Failure H) (AnyInstance H)) :
    Prop :=
  ∀ s', s.SameContexts s' → s.Answers (fun fuel => s'.evaluate fuel c key) o

/-! What the evaluation depends on -/

theorem serving_congr (hf : ∀ c, s.Fixed s' c) (hl : ∀ c, s'.lives c = s.lives c) (c : Scope)
    (key : Key) : s'.serving c key = s.serving c key := by
  obtain ⟨base, layers⟩ := c
  have bound : ∀ layers, servingAt.bound s' base key layers =
      servingAt.bound s base key layers := by
    intro layers
    have here := hf ⟨base, layers⟩
    unfold Fixed at here
    unfold servingAt.bound
    cases hx : s.context? ⟨base, layers⟩ with
    | none =>
      rw [hx] at here
      rw [Option.map_eq_none_iff.1 here]
    | some x =>
      rw [hx] at here
      obtain ⟨y, hy, he⟩ := Option.map_eq_some_iff.1 here
      simp only [hy, (Prod.mk.inj he).1]
  induction layers with
  | nil => rw [serving_nil, serving_nil, bound]
  | cons p below ih => rw [serving_cons, serving_cons, bound, hl, ih]

theorem SameContexts.serving (h : s.SameContexts s') (c : Scope) (key : Key) :
    s'.serving c key = s.serving c key :=
  serving_congr h.fixed (lives_congr h.sameHandles) c key

theorem SameContexts.factory? (h : s.SameContexts s') (c : Scope) (key : Key) :
    s'.factory? c key = s.factory? c key := by
  unfold Store.factory?
  rw [h.context?]

theorem Answers.of_succ {α : Type} {run : ℕ → Option (α × Store H)} {a : α}
    (h : s.Answers (fun m => run (m + 1)) a) : s.Answers run a := by
  obtain ⟨n, s₁, same, hn⟩ := h
  refine ⟨n + 1, s₁, same, fun m hm => ?_⟩
  obtain ⟨k, rfl⟩ := Nat.exists_eq_add_of_le' (Nat.le_of_add_left_le hm)
  exact hn k (Nat.le_of_succ_le_succ hm)

/-! What a key evaluates to -/

variable {c d : Scope} {key : Key} {o o' : Except (Failure H) (AnyInstance H)}

theorem Evaluates.unique (h : s.Evaluates c key o) (h' : s.Evaluates c key o') : o = o' :=
  (h s (.refl s)).unique (h' s (.refl s))

theorem evaluates_of_unbound (h : s.serving c key = .unbound) :
    s.Evaluates c key (.error (.tokenNotProvided key)) := by
  intro s' same
  refine .of_succ ?_
  simp only [evaluate, same.serving, h]
  exact .pure same _

theorem evaluates_of_gone (h : s.serving c key = .gone) :
    s.Evaluates c key (.error .aborted) := by
  intro s' same
  refine .of_succ ?_
  simp only [evaluate, same.serving, h]
  exact .pure same _

theorem evaluates_iff_of_found (h : s.serving c key = .found d) :
    s.Evaluates c key o ↔ s.Evaluates d key o := by
  have same : ∀ s', s.SameContexts s' → ∀ fuel, s'.evaluate fuel c key = s'.evaluate fuel d key := by
    intro s' same fuel
    cases fuel with
    | zero => rfl
    | succ fuel => rw [evaluate, evaluate, same.serving, same.serving, h, serving_of_found h]
  constructor
  · intro ho s' hs
    simpa only [same s' hs] using ho s' hs
  · intro ho s' hs
    simpa only [same s' hs] using ho s' hs

theorem Binds.serving {p : Place} {f : Factory H} {r : Resolver} (h : s.Binds p f r) :
    s.serving p.1 p.2 = .found p.1 := by
  obtain ⟨x, hx, hf, -⟩ := h
  obtain ⟨⟨base, layers⟩, key⟩ := p
  have bound : servingAt.bound s base key layers = true := by
    have there : x.provider.bindings.get? key = some f := hf
    simp only [servingAt.bound, hx, Provider.contains, ← OrderedMap.get?_isSome, there,
      Option.isSome_some]
  cases layers with
  | nil => rw [serving_nil, if_pos bound]
  | cons q below => rw [serving_cons, if_pos bound]

theorem exists_binds_of_serving (h : s.serving c key = .found d) :
    ∃ f r, s.Binds (d, key) f r := by
  obtain ⟨x, hx, hk⟩ := serving_found h
  rw [Provider.contains, ← OrderedMap.get?_isSome] at hk
  obtain ⟨f, hf⟩ := Option.isSome_iff_exists.1 hk
  exact ⟨f, _, x, hx, hf, rfl⟩

/-- What the factory of `p` may request: through its own resolver, what is served below `p`. -/
def Below (s : Store H) (lt : Place → Place → Prop) (p : Place) (via : Access) (key : Key) : Prop :=
  via.Own p ∧ ∀ d, s.serving p.1 key = .found d → lt (d, key) p

/-- In the tree of contexts over a base, requests go down, and their answers settle all outcomes. -/
structure Stratified (s : Store H) (base : Nat) (lt : Place → Place → Prop) : Prop where
  wellFounded : WellFounded lt
  descends : ∀ p f r, p.1.base = base → s.Binds p f r → (f.program r).Requests (s.Below lt p)
  determinate : ∀ p f r, p.1.base = base → s.Binds p f r → (f.program r).Determinate

namespace Stratified

variable {base : Nat} {lt : Place → Place → Prop} {p : Place} {f : Factory H} {r : Resolver}

theorem congr (h : s.Stratified base lt) (hf : ∀ c, s.Fixed s' c)
    (hl : ∀ c, s'.lives c = s.lives c) : s'.Stratified base lt where
  wellFounded := h.wellFounded
  descends p f r hp hb := by
    have below : s'.Below lt p = s.Below lt p := by
      funext via key
      rw [Below, Below, serving_congr hf hl]
    rw [below]
    exact h.descends p f r hp ((hf p.1).symm.binds hb)
  determinate p f r hp hb := h.determinate p f r hp ((hf p.1).symm.binds hb)

/-- When what a factory may request has values, the factory comes to one outcome, under any schedule
and by evaluation. -/
theorem exists_outcome (h : s.Stratified base lt)
    (ans : Scope → Key → Except (Failure H) (AnyInstance H)) (hp : p.1.base = base)
    (hb : s.Binds p f r)
    (values : ∀ via key, s.Below lt p via key → s.Evaluates via.scope key (ans via.scope key)) :
    ∃ o, (f.program r).Yields ans o ∧ s.Evaluates p.1 p.2 (f.outcome r o) := by
  have run : ∀ s', s.SameContexts s' → ∃ o, (f.program r).Yields ans o ∧
      s.Answers (fun fuel => (f.program r).eval (fun via key => evaluate fuel via.scope key) s') o :=
    fun s' same => Program.exists_eval (h.descends p f r hp hb)
      (fun via key s₁ below same => values via key below s₁ same) same
  obtain ⟨o, yields, -⟩ := run s (.refl s)
  refine ⟨o, yields, fun s' same => .of_succ ?_⟩
  obtain ⟨o', yields', evaluated⟩ := run s' same
  rw [h.determinate p f r hp hb ans o o' yields yields']
  obtain ⟨s₁, same', go⟩ := evaluated.bind
  simp only [evaluate, same.serving, hb.serving, same.factory?, factory?_eq_some.2 hb,
    Option.bind_some]
  exact go (.pure same' _)

theorem evaluates_place (h : s.Stratified base lt) (hp : p.1.base = base) (hb : s.Binds p f r) :
    ∃ o, s.Evaluates p.1 p.2 o := by
  induction p using h.wellFounded.induction generalizing f r with
  | _ p ih =>
    have values : ∀ key, ∃ o, (∀ d, s.serving p.1 key = .found d → lt (d, key) p) →
        s.Evaluates p.1 key o := by
      intro key
      cases hs : s.serving p.1 key with
      | unbound => exact ⟨_, fun _ => evaluates_of_unbound hs⟩
      | gone => exact ⟨_, fun _ => evaluates_of_gone hs⟩
      | found d =>
        by_cases less : lt (d, key) p
        · obtain ⟨g, q, bound⟩ := exists_binds_of_serving hs
          obtain ⟨o, ho⟩ := ih (d, key) less ((servingAt_found hs).1.trans hp) bound
          exact ⟨o, fun _ => (evaluates_iff_of_found hs).2 ho⟩
        · exact ⟨.error .aborted, fun below => absurd (below d rfl) less⟩
    choose ans values using values
    obtain ⟨o, -, evaluated⟩ := h.exists_outcome (fun _ => ans) hp hb
      fun via key below => by
        rw [below.1.scope_eq]
        exact values key below.2
    exact ⟨_, evaluated⟩

/-- Every request in the tree has a value. -/
theorem exists_evaluates (h : s.Stratified base lt) (hc : c.base = base) (key : Key) :
    ∃ o, s.Evaluates c key o := by
  cases hs : s.serving c key with
  | unbound => exact ⟨_, evaluates_of_unbound hs⟩
  | gone => exact ⟨_, evaluates_of_gone hs⟩
  | found d =>
    obtain ⟨f, r, bound⟩ := exists_binds_of_serving hs
    obtain ⟨o, ho⟩ := h.evaluates_place (p := (d, key)) ((servingAt_found hs).1.trans hc) bound
    exact ⟨o, (evaluates_iff_of_found hs).2 ho⟩

end Stratified

end Store

end ScopedEffects
