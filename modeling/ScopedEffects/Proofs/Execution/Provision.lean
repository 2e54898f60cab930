import ScopedEffects.Proofs.Execution.Keeping
import ScopedEffects.Proofs.Execution.Stages
import ScopedEffects.Runner

/-! Where the nodes of an effect run. The nodes that are seen in an effect before it runs are
carried from its launch into all stages, attempts, branches, layers and fallbacks. What such a node
needs is provided in its context, and stays so. A run whose base provider lacks something that the
effect needs is refused, and nothing happens. -/

namespace ScopedEffects

variable {H : Host}

namespace Store

variable {s s' : Store H} {c : Scope} {n u : Node H} {p : Provider H}

/-- The context lives, and provides what the node needs. -/
def Hosts (s : Store H) (c : Scope) (n : Node H) : Prop :=
  s.lives c = true ∧ ∀ k, n.Needs k → s.provides c k = true

/-- A layer that is open under the provider's identity is one of this provider. -/
def Identifies (s : Store H) (c : Scope) (p : Provider H) : Prop :=
  ∀ x, s.context? (c.push p.identity) = some x → ∀ k, x.provider.contains k = p.contains k

theorem Hosts.kept (h : s.Hosts c n) (keeps : s.Keeps s') : s'.Hosts c n :=
  ⟨keeps.lives h.1, fun k hk => keeps.provides (h.2 k hk)⟩

theorem Hosts.inner (h : s.Hosts c n) (hu : u ∈ n.inner) : s.Hosts c u :=
  ⟨h.1, fun k hk => h.2 k (Node.needs_of_inner hu hk)⟩

theorem exists_layer (h : (s.context? c).isSome) (hp : s.Identifies c p) :
    ∃ x, (s.layer c p).2.context? (c.push p.identity) = some x ∧
      ∀ k, x.provider.contains k = p.contains k := by
  obtain ⟨below, hb⟩ := Option.isSome_iff_exists.1 h
  cases hx : s.context? (c.push p.identity) with
  | some x =>
    have same : (s.layer c p).2 = s := by simp [layer, hx]
    exact ⟨x, by rw [same, hx], hp x hx⟩
  | none =>
    refine ⟨{ provider := p, signal := below.signal }, ?_, fun _ => rfl⟩
    simp only [layer, hx, hb]
    exact (OrderedMap.get?_set ..).trans (if_pos rfl)

theorem Hosts.layer (h : s.Hosts c (.provide u p)) (hp : s.Identifies c p) :
    (s.layer c p).2.Hosts (c.push p.identity) u := by
  have keeps := s.keeps_layer c p
  obtain ⟨x, hx, binds⟩ := exists_layer (isSome_of_lives h.1) hp
  refine ⟨(lives_cons ..).2 (.inr ⟨by rw [← Scope.push, hx]; rfl, keeps.lives h.1⟩), fun k hk => ?_⟩
  refine (provides_cons ..).2 ?_
  cases hb : p.contains k with
  | true =>
    have hx : (s.layer c p).2.context? ⟨c.base, p.identity :: c.layers⟩ = some x := hx
    have bound : servingAt.bound (s.layer c p).2 c.base k (p.identity :: c.layers) = true := by
      simp [servingAt.bound, hx, binds, hb]
    exact .inl bound
  | false => exact .inr ⟨keeps.lives h.1, keeps.provides (h.2 k (.provide hk hb))⟩

theorem provides_openBase (s : Store H) (p : Provider H) (g : Signal) (key : Key) :
    (s.openBase p g).2.provides (s.openBase p g).1 key = p.contains key := by
  have opened := context?_openBase s p g ⟨s.bases.next, []⟩
  rw [if_pos rfl] at opened
  show providesAt.bound (s.openBase p g).2 s.bases.next key [] = p.contains key
  simp only [providesAt.bound, opened]

theorem lives_openBase (s : Store H) (p : Provider H) (g : Signal) :
    (s.openBase p g).2.lives (s.openBase p g).1 = true := by
  have opened := context?_openBase s p g ⟨s.bases.next, []⟩
  rw [if_pos rfl] at opened
  exact (lives_nil ..).2 ⟨_, opened, Nat.one_pos⟩

theorem slot?_of_openBase {p : Provider H} {g : Signal} {d : Scope} {key : Key} {x : Slot H}
    (h : (s.openBase p g).2.slot? d key = some x) : s.slot? d key = some x := by
  unfold slot? at h ⊢
  rw [context?_openBase] at h
  split at h
  · cases h
  · exact h

end Store

/-! Nodes carried along -/

namespace Story

variable [Tracing H]

/-- The part at an address makes a move of its own. -/
def Moves (r : Story H) (α : List Hop) (t : Nat) (x x' : Execution H) : Prop :=
  t < r.last ∧ r.part? α t = some x ∧ r.part? α (t + 1) = some x' ∧ ∃ policy depth,
    x.move policy depth (r.state t).store = some (x', (r.state (t + 1)).store)

/-- The nodes that a story carries from its launch: at an instant, the part at an address is a stage
of the node, in an environment. -/
inductive Carries (r : Story H) : Nat → List Hop → Node H → Env → Prop
  | launched {n env} (h : (r.state 0).execution = .enter n env) : Carries r 0 [] n env
  /-- The part is left alone. -/
  | rests {t α n env} (h : Carries r t α n env) (ht : t < r.last)
      (same : r.part? α (t + 1) = r.part? α t) : Carries r (t + 1) α n env
  /-- The part moves to another stage. -/
  | moves {t α n env x x'} (h : Carries r t α n env) (hm : r.Moves α t x x')
      (next : x'.Stage env n) : Carries r (t + 1) α n env
  /-- The part moves to another stage, and enters a node above it or in a branch. -/
  | enters {t α n env x x' hop u env'} (h : Carries r t α n env) (hm : r.Moves α t x x')
      (next : x'.Stage env n) (before : x.Vacant hop)
      (after : x'.part? hop = some (.enter u env')) : Carries r (t + 1) (α ++ [hop]) u env'
  /-- The part gives its place to the node in a layer, or to a fallback. -/
  | turns {t α n env x u env'} (h : Carries r t α n env) (ht : n.Turns)
      (hm : r.Moves α t x (.enter u env')) : Carries r (t + 1) α u env'

/-- Providers are told apart by their identities whenever one is about to be layered. -/
def Identifies (r : Story H) : Prop := ∀ t α u p env, t ≤ r.last →
  r.part? α t = some (.enter (.provide u p) env) → (r.state t).store.Identifies env.scope p

variable {r : Story H} {t : Nat} {α : List Hop} {n : Node H} {env : Env} {x : Execution H}

theorem Moves.keeps {x' : Execution H} (h : r.Moves α t x x') :
    (r.state t).store.Keeps (r.state (t + 1)).store := (r.step t h.1).keeps

/-- The context of a carried node hosts it. -/
theorem Carries.hosted (h : r.Carries t α n env) (identifies : r.Identifies)
    (first : ∀ n env, (r.state 0).execution = .enter n env →
      (r.state 0).store.Hosts env.scope n) :
    t ≤ r.last ∧ (r.state t).store.Hosts env.scope n ∧
      ∃ x, r.part? α t = some x ∧ x.Stage env n ∧ x.Staffed n.inner := by
  induction h with
  | launched h => exact ⟨Nat.zero_le _, first _ _ h, _, congrArg some h, .enter, trivial⟩
  | rests _ ht same ih =>
    obtain ⟨-, hosts, x, hx, stage, staffed⟩ := ih
    exact ⟨ht, hosts.kept (r.step _ ht).keeps, x, same.trans hx, stage, staffed⟩
  | moves _ hm next ih =>
    obtain ⟨-, hosts, x, hx, stage, staffed⟩ := ih
    have hosts := hosts.kept hm.keeps
    obtain ⟨ht, here, there, policy, depth, moved⟩ := hm
    cases hx.symm.trans here
    exact ⟨ht, hosts, _, there, next, (stage.move staffed moved next).1⟩
  | enters _ hm next before after ih =>
    obtain ⟨-, hosts, x, hx, stage, staffed⟩ := ih
    have hosts := hosts.kept hm.keeps
    obtain ⟨ht, here, there, policy, depth, moved⟩ := hm
    cases hx.symm.trans here
    obtain ⟨inner, scope⟩ := (stage.move staffed moved next).2 _ _ _ before after
    refine ⟨ht, ?_, _, ?_, .enter, trivial⟩
    · rw [scope]
      exact hosts.inner inner
    · unfold part? at there ⊢
      rw [Execution.at?_snoc, there]
      exact after
  | turns _ turns hm ih =>
    obtain ⟨before, hosts, x, hx, stage, -⟩ := ih
    have keeps := hm.keeps
    obtain ⟨ht, here, there, policy, depth, moved⟩ := hm
    cases hx.symm.trans here
    refine ⟨ht, ?_, _, there, .enter, trivial⟩
    rcases stage.turns turns moved with ⟨p, rfl, scope, store⟩ | ⟨inner, scope⟩
    · rw [scope, store]
      -- only the entry of a node with a provider is a stage of it
      cases stage with
      | enter => exact hosts.layer (identifies _ _ _ p _ before here)
      | frame hf => cases hf
    · rw [scope]
      exact (hosts.kept keeps).inner inner

end Story

/-! Runs -/

namespace Runner

variable {a : Shape H.Plain} {e : Effect H a} {signal : Signal} {s : Store H}

/-- The required keys that the base provider does not bind. -/
def lacking (r : Runner H) (e : Effect H a) : List Key :=
  e.requires.toList.filter fun k => !r.provider.contains k

/-- The store in which a run has its context. -/
def opened (r : Runner H) (signal : Signal) (s : Store H) : Scope × Store H :=
  (s.record (.runOpened r.settings.label)).openBase r.provider signal

theorem missing_opened (r : Runner H) (e : Effect H a) (signal : Signal) (s : Store H) :
    missing (r.opened signal s).2 (r.opened signal s).1 e = r.lacking e := by
  unfold missing lacking opened
  simp only [Store.provides_openBase]

theorem launch_of_lacking {r : Runner H} (h : r.lacking e ≠ []) :
    r.launch e signal s = (.error (.missingRequirements (r.lacking e)), (r.opened signal s).1,
      (r.opened signal s).2.record (.runRefused (r.lacking e))) := by
  have lacks : (r.lacking e).isEmpty = false := by simpa using h
  rw [← missing_opened r e signal s] at lacks ⊢
  unfold launch
  dsimp only
  exact if_neg (by rw [← opened]; simp [lacks])

theorem launch_of_complete {r : Runner H} (h : r.lacking e = []) :
    r.launch e signal s = (.ok (.enter (r.withDeadline e).node
        ⟨(r.opened signal s).1, signal, r.settings.defaultConcurrency⟩),
      (r.opened signal s).1, (r.opened signal s).2.record .runStarted) := by
  have complete : (r.lacking e).isEmpty = true := by simpa using h
  rw [← missing_opened r e signal s] at complete
  unfold launch
  dsimp only
  exact if_pos complete

theorem needs_withDeadline {r : Runner H} {k : Key} :
    (r.withDeadline e).node.Needs k ↔ e.node.Needs k := by
  unfold withDeadline
  split
  · simp [Effect.timeout]
  · exact Iff.rfl

theorem mem_lacking {r : Runner H} (built : e.Built) {k : Key} :
    k ∈ r.lacking e ↔ e.node.Needs k ∧ r.provider.contains k = false := by
  rw [← built.mem_requires_iff, KeySet.mem_def]
  simp [lacking]

theorem hosts_of_complete {r : Runner H} (built : e.Built) (h : r.lacking e = []) (signal : Signal)
    (s : Store H) :
    ((r.opened signal s).2.record .runStarted).Hosts (r.opened signal s).1
      (r.withDeadline e).node := by
  have keeps : (r.opened signal s).2.Keeps ((r.opened signal s).2.record .runStarted) :=
    (Store.sameContexts_record ..).keeps
  refine ⟨keeps.lives (Store.lives_openBase ..), fun k hk => keeps.provides ?_⟩
  unfold opened
  rw [Store.provides_openBase]
  by_contra unbound
  have lacks := (mem_lacking built).2 ⟨needs_withDeadline.1 hk, Bool.eq_false_iff.2 unbound⟩
  rw [h] at lacks
  cases lacks

variable [Tracing H]

theorem run_of_lacking {r : Runner H} (h : r.lacking e ≠ []) {e₂ : Effect H a}
    (same : e₂.requires = e.requires) (schedule : Schedule) (horizon : Clock) (fuel : Nat)
    (alarms : List Alarm) :
    r.run schedule horizon fuel e₂ signal alarms s =
      (some (.ok (.error (.missingRequirements (r.lacking e)))),
        ((r.opened signal s).2.record (.runRefused (r.lacking e))).release
          (r.opened signal s).1) := by
  have lacking : r.lacking e₂ = r.lacking e := by unfold Runner.lacking; rw [same]
  unfold run
  rw [launch_of_lacking (lacking ▸ h), lacking]

/-- What an effect requires is what its nodes need, in ascending order. When the base provider does
not bind all of it, a run is refused with the keys that it lacks, in ascending order, and nothing
else happens: the code of the effect does not matter, the state of user code stays as it is, and no
factory is invoked. Otherwise the run begins, and each node of the effect that is carried from its
launch, in whatever stage, attempt, branch, layer or fallback, has its needs provided in its context
from then on. -/
theorem requirements_are_exact_and_sound (r : Runner H) (e : Effect H a) (built : e.Built)
    (signal : Signal) (s : Store H) :
    e.requires.toList.Pairwise (· < ·) ∧ (∀ k, k ∈ e.requires.toList ↔ e.node.Needs k) ∧
    ((∃ k, e.node.Needs k ∧ r.provider.contains k = false) →
      ∃ ks s', ks.Pairwise (· < ·) ∧
        (∀ k, k ∈ ks ↔ e.node.Needs k ∧ r.provider.contains k = false) ∧
        (∀ schedule horizon fuel alarms (e₂ : Effect H a), e₂.requires = e.requires →
          r.run schedule horizon fuel e₂ signal alarms s =
            (some (.ok (.error (.missingRequirements ks))), s')) ∧
        s'.user = s.user ∧ s'.fired = s.fired ∧ s'.now = s.now ∧
        s'.trace = .runRefused ks :: .runOpened r.settings.label :: s.trace ∧
        ∀ c k x, s'.slot? c k = some x → s.slot? c k = some x) ∧
    ((∀ k, e.node.Needs k → r.provider.contains k = true) →
      ∃ env s', r.launch e signal s = (.ok (.enter (r.withDeadline e).node env), env.scope, s') ∧
        (∀ schedule horizon fuel alarms, ∃ y : Story H,
          y.state 0 = Machine.ring ⟨s', .enter (r.withDeadline e).node env, alarms⟩ ∧
          y.state y.last = (Machine.run schedule horizon fuel (y.state 0)).2) ∧
        ∀ (y : Story H) alarms,
          y.state 0 = Machine.ring ⟨s', .enter (r.withDeadline e).node env, alarms⟩ →
          y.Identifies → ∀ t α n envn, y.Carries t α n envn →
            t ≤ y.last ∧ (∃ x, y.part? α t = some x ∧ x.Stage envn n) ∧
              ∀ u, t ≤ u → u ≤ y.last → ∀ k, n.Needs k →
                (y.state u).store.provides envn.scope k = true) := by
  refine ⟨e.requires.ascending, fun k => built.mem_requires_iff, ?_, fun complete => ?_⟩
  · rintro ⟨k, needed, unbound⟩
    have lacks : r.lacking e ≠ [] :=
      List.ne_nil_of_mem ((mem_lacking built).2 ⟨needed, unbound⟩)
    refine ⟨r.lacking e, _, e.requires.ascending.sublist List.filter_sublist,
      fun k => mem_lacking built, fun schedule horizon fuel alarms e₂ same =>
        run_of_lacking lacks same schedule horizon fuel alarms, rfl, rfl, rfl, rfl, ?_⟩
    intro c k x hx
    have hx : ((r.opened signal s).2.changeHandles (r.opened signal s).1 (· - 1)).slot? c k =
      some x := hx
    rw [Store.slot?_changeHandles] at hx
    exact Store.slot?_of_openBase hx
  · have nothing : r.lacking e = [] := by
      rw [List.eq_nil_iff_forall_not_mem]
      intro k hk
      obtain ⟨needed, unbound⟩ := (mem_lacking built).1 hk
      rw [complete k needed] at unbound
      cases unbound
    refine ⟨_, _, launch_of_complete nothing, fun schedule horizon fuel alarms => ?_,
      fun y alarms first identifies t α n envn carried => ?_⟩
    · rcases hm : Machine.run schedule horizon fuel (Machine.ring
          ⟨(r.opened signal s).2.record .runStarted, .enter (r.withDeadline e).node
            ⟨(r.opened signal s).1, signal, r.settings.defaultConcurrency⟩, alarms⟩)
        with ⟨ending, m⟩
      obtain ⟨y, first, last⟩ := Story.exists_of_run hm
      exact ⟨y, first, by rw [last, first, hm]⟩
    · have hosted := hosts_of_complete built nothing signal s
      obtain ⟨ht, hosts, x, hx, stage, -⟩ := carried.hosted identifies fun m envm entered => by
        rw [first] at entered ⊢
        cases entered
        exact hosted.kept (Store.sameContexts_fireAll ..).keeps
      exact ⟨ht, ⟨x, hx, stage⟩,
        fun u htu hu k hk => (Story.keeps htu hu).provides (hosts.2 k hk)⟩

/-! A number that a layer provides -/

def numberToken : Token Host.counting := ⟨"N", .plain ()⟩

def number : Effect Host.counting (.shared (.plain ())) := .service numberToken

def bareRunner : Runner Host.counting := { provider := ⟨1, .empty⟩ }

def bareStore : Store Host.counting :=
  (bareRunner.opened (.root 0) { user := (0 : Nat) }).2.record .runStarted

def layeredEnv : Env := ⟨⟨0, [0]⟩, .root 0, none⟩

def numberStory : Story Host.counting where
  state
    | 0 => ⟨bareStore, .enter (.provide number.node Traffic.numberProvider)
        ⟨⟨0, []⟩, .root 0, none⟩, []⟩
    | 1 => ⟨(bareStore.layer ⟨0, []⟩ Traffic.numberProvider).2, .enter number.node layeredEnv, []⟩
    | _ => ⟨(bareStore.layer ⟨0, []⟩ Traffic.numberProvider).2,
        .ofProgram layeredEnv (Execution.serviceProgram layeredEnv numberToken fun i =>
          ⟨.shared (.plain ()), i⟩), []⟩
  last := 2
  step
    | 0, _ | 1, _ => @Machine.Step.moves _ _ _ .standard _ _ rfl
    | t + 2, h => absurd h (by omega)

/-- Over a provider that binds nothing, the number is refused. In a layer of the provider of
numbers, its request is made where the number is provided. -/
theorem number_is_provided :
    (∃ ks s', "N" ∈ ks ∧ bareRunner.run .standard 9 9 number (.root 0) [] { user := (0 : Nat) } =
      (some (.ok (.error (.missingRequirements ks))), s')) ∧
    numberStory.Carries 1 [] number.node layeredEnv ∧
    (numberStory.state 2).store.provides ⟨0, [0]⟩ "N" = true := by
  have service : number.Built := .service numberToken
  have carried : numberStory.Carries 1 [] number.node layeredEnv :=
    .turns (.launched rfl) trivial ⟨by decide, rfl, rfl, .standard, 0, rfl⟩
  have identifies : numberStory.Identifies := by
    intro t α u p env ht hx
    rcases t with _ | _ | t
    · cases α with
      | nil =>
        cases hx
        intro x hx
        cases hx
      | cons hop α => cases hop <;> cases hx
    · cases α with
      | nil => cases hx
      | cons hop α => cases hop <;> cases hx
    · cases α with
      | nil => cases hx
      | cons hop α => cases hop <;> cases hx
  refine ⟨?_, carried, ?_⟩
  · obtain ⟨-, -, refused, -⟩ := requirements_are_exact_and_sound bareRunner number service
      (.root 0) { user := (0 : Nat) }
    obtain ⟨ks, s', -, mem, run, -⟩ := refused ⟨"N", .service numberToken, rfl⟩
    exact ⟨ks, s', (mem "N").2 ⟨.service numberToken, rfl⟩, run .standard 9 9 [] number rfl⟩
  · obtain ⟨-, -, -, begun⟩ := requirements_are_exact_and_sound bareRunner
      (number.provide Traffic.numberProvider) (service.provide _) (.root 0) { user := (0 : Nat) }
    obtain ⟨env, s', launched, -, sound⟩ := begun fun k hk => by
      obtain ⟨needed, unbound⟩ := Node.needs_provide.1 hk
      cases Node.needs_service.1 needed
      cases unbound
    have here : bareRunner.launch (number.provide Traffic.numberProvider) (.root 0)
        { user := (0 : Nat) } = (.ok (.enter (.provide number.node Traffic.numberProvider)
          ⟨⟨0, []⟩, .root 0, none⟩), ⟨0, []⟩, bareStore) := rfl
    rw [here] at launched
    cases launched
    obtain ⟨-, -, provided⟩ := sound numberStory [] rfl identifies 1 [] _ _ carried
    exact provided 2 (by decide) (by decide) "N" (.service numberToken)

end Runner

end ScopedEffects
