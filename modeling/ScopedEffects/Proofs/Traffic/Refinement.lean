import ScopedEffects.Proofs.Store.Evaluation
import ScopedEffects.Proofs.Traffic.Waits

/-! Resolution against evaluation. While the tree of contexts over a base lives, and the requests of
its factories go down in a well-founded order, resolutions come to what evaluation by plain recursion
gives. What a factory has still to do can only come out as the whole program can; the waits of each
place go down, so that no circle is ever met; and whatever has settled is the value of its key. -/

namespace ScopedEffects

open Relation

variable {H : Host} {s s' : Store H}

/-! Stores of one run -/

/-- The tree over the base lives in `s`, as far as it is there, and in the later store `w`. -/
structure Store.Towards (s w : Store H) (base : Nat) : Prop where
  grounded : s.Grounded
  later : s.Extends w
  lives : (s.context? ⟨base, []⟩).isSome → s.lives ⟨base, []⟩ = true
  grounded_later : w.Grounded
  lives_later : w.lives ⟨base, []⟩ = true

namespace Store.Towards

variable {w : Store H} {base : Nat} {c : Scope} {key : Key}

theorem lives_base (h : s.Towards w base) (hc : c.base = base) (hx : (s.context? c).isSome) :
    s.lives ⟨base, []⟩ = true := by
  obtain ⟨_, layers⟩ := c
  subst hc
  exact h.lives (h.grounded.isSome_of_suffix hx List.nil_suffix)

theorem lives_context (h : s.Towards w base) (hc : c.base = base) (hx : (s.context? c).isSome) :
    s.lives c = true := by
  have alive := h.lives_base hc hx
  obtain ⟨_, layers⟩ := c
  subst hc
  exact lives_of_base h.grounded alive hx

theorem serving (h : s.Towards w base) (hc : c.base = base) (hx : (s.context? c).isSome)
    (key : Key) : w.serving c key = s.serving c key := by
  have alive := h.lives_base hc hx
  obtain ⟨_, layers⟩ := c
  subst hc
  exact h.later.serving h.grounded h.grounded_later alive h.lives_later hx key

theorem serving_ne_gone (h : s.Towards w base) (hc : c.base = base) (hx : (s.context? c).isSome)
    (key : Key) : s.serving c key ≠ .gone := by
  have alive := h.lives_base hc hx
  obtain ⟨_, layers⟩ := c
  subst hc
  exact Store.serving_ne_gone h.grounded alive hx key

theorem binds (h : s.Towards w base) {p : Place} {f : Factory H} {r : Resolver}
    (hb : w.Binds p f r) (hx : (s.context? p.1).isSome) : s.Binds p f r :=
  (h.later p.1 hx).symm.binds hb

end Store.Towards

theorem Traffic.FeasibleRun.towards {σ τ : Traffic H} {L : List (Happening H)} {base : Nat}
    (run : FeasibleRun σ L τ) (h : σ.Founded) (alive : τ.store.lives ⟨base, []⟩ = true) :
    σ.store.Towards τ.store base where
  grounded := h.grounded
  later := h.extends run.run
  lives hx := run.lives_of_lives h hx alive
  grounded_later := (h.run run.run).grounded
  lives_later := alive

/-! Slots on their way -/

/-- What the slot of `p` holds is on the way to the value of `p`. -/
def Store.Leads (w : Store H) (lt : Place → Place → Prop)
    (ans : Scope → Key → Except (Failure H) (AnyInstance H)) (p : Place) : Slot H → Prop
  | .running t => ∃ f r, w.Binds p f r ∧ t.Requests (w.Below lt p) ∧
      (∀ v ∈ t.waits, v.scope.base = p.1.base ∧ lt v.place p) ∧
      ∀ o, t.rest.Yields ans o → (f.program r).Yields ans o
  | .settled o => o = ans p.1 p.2

namespace Store

variable {w : Store H} {base : Nat} {lt : Place → Place → Prop}
  {ans : Scope → Key → Except (Failure H) (AnyInstance H)} {p : Place} {f : Factory H}
  {r : Resolver} {t t' : Task H} {d : Deed H}

/-- The values of all keys in the tree over a base. -/
def Values (w : Store H) (base : Nat) (ans : Scope → Key → Except (Failure H) (AnyInstance H)) :
    Prop := ∀ c key, c.base = base → w.Evaluates c key (ans c key)

theorem Stratified.leads_program (h : w.Stratified base lt) (hp : p.1.base = base)
    (hb : w.Binds p f r) : w.Leads lt ans p (.running (.run (f.program r))) :=
  ⟨f, r, hb, h.descends p f r hp hb, fun _ hv => (List.not_mem_nil hv).elim, fun _ ho => ho⟩

theorem Stratified.outcome_eq (h : w.Stratified base lt) (hp : p.1.base = base)
    (hans : w.Values base ans) (hb : w.Binds p f r) {o : Except Panic (Exit H)}
    (ho : (f.program r).Yields ans o) : f.outcome r o = ans p.1 p.2 := by
  have values : ∀ via key, w.Below lt p via key → w.Evaluates via.scope key (ans via.scope key) :=
    fun via key below => hans _ _ (by rw [below.1.scope_eq, hp])
  obtain ⟨o', yields, evaluates⟩ := h.exists_outcome _ hp hb values
  rw [h.determinate p f r hp hb ans o o' ho yields]
  exact evaluates.unique (hans p.1 p.2 hp)

/-- The request goes down, if the factory of a key makes it. -/
def Descends (w : Store H) (lt : Place → Place → Prop) (via : Access) (key : Key) : Prop :=
  ∀ a d, via.requester = some a → w.serving via.scope key = .found d → lt (d, key) (via.scope, a)

theorem Below.descends {via : Access} {key : Key} (h : w.Below lt p via key) :
    w.Descends lt via key := by
  obtain ⟨own, below⟩ := h
  intro a d ha served
  cases via with
  | context => cases ha
  | resolver r =>
    have own : (r.scope, r.key) = p := own
    cases ha
    subst own
    exact below d served

theorem Leads.acts (h : w.Leads lt ans p (.running t)) (ht : s.Towards w base)
    (hp : p.1.base = base) (hx : (s.context? p.1).isSome) (ha : Task.Acts s t d s' t')
    (hd : d.Faithful ans) : w.Leads lt ans p (.running t') := by
  obtain ⟨f, r, hb, requests, waits, yields⟩ := h
  refine ⟨f, r, hb, ha.requests requests, fun v hv => ?_, fun o ho => yields o (ha.yields hd ho)⟩
  rcases ha.mem_waits hv with old | new
  · exact waits v old
  · cases d with
    | begun via key u invokes =>
      cases List.mem_singleton.1 new
      have admitted := request_waiting ha.effect.1
      obtain ⟨own, below⟩ := ha.requested requests rfl
      have served := admitted.serving
      rw [own.scope_eq] at served
      have less : lt (v.scope, key) p := below _ ((ht.serving hp hx key).trans served)
      have place : v.place = (v.scope, key) := Prod.ext rfl admitted.key_eq
      exact ⟨(servingAt_found served).1, place ▸ less⟩
    | _ => cases new

end Store

namespace Traffic

variable {σ τ : Traffic H} {w : Store H} {base : Nat} {lt : Place → Place → Prop}
  {ans : Scope → Key → Except (Failure H) (AnyInstance H)} {p : Place} {e : Happening H}
  {d : Deed H} {via : Access} {key : Key} {L M : List (Happening H)}

/-- All slots in the tree over the base are on the way to their values. -/
def Tracks (w : Store H) (base : Nat) (lt : Place → Place → Prop)
    (ans : Scope → Key → Except (Failure H) (AnyInstance H)) (σ : Traffic H) : Prop :=
  ∀ (p : Place) x, p.1.base = base → σ.store.slot? p.1 p.2 = some x → w.Leads lt ans p x

/-- Requests under way in a context of the tree go down. -/
theorem Tracks.descends (h : Tracks w base lt ans σ) (ho : σ.Orderly) (hc : σ.Counted) {c : Scope}
    (hb : c.base = base) (hl : σ.store.lives c = true) {a b : Key}
    (edge : (σ.store.graph c).Edge a b) : lt (c, b) (c, a) := by
  rcases (hc.edge_iff hl).1 edge with ⟨t, ht, hw⟩ | ⟨q, hq⟩
  · have unnamed := ho.unnamed t ht _ hw
    cases unnamed
  · unfold Store.waitsAt at hq
    split at hq
    · rename_i t ht
      rcases ho.store.waits q t id ht _ hq with ⟨scope, owner⟩ | ⟨-, unnamed⟩
      · have here : q = (c, a) := Prod.ext scope.symm (Option.some.inj owner).symm
        subst here
        obtain ⟨-, -, -, -, waits, -⟩ := h (c, a) _ hb ht
        exact (waits _ hq).2
      · cases unnamed
    · cases hq

/-- A request that goes down closes no circle. -/
theorem Tracks.not_circular (h : Tracks w base lt ans σ) (hs : w.Stratified base lt)
    (ho : σ.Orderly) (hc : σ.Counted) (ht : σ.store.Towards w base) (hb : via.scope.base = base)
    (down : w.Descends lt via key) {cycle : List Key} {s' : Store H} :
    σ.store.request via key ≠ (.refused (.circularDependency cycle), s') := by
  intro refused
  cases (Store.request_refused refused).2 with
  | @circular a _ served requester closing =>
    obtain ⟨x, hx, -⟩ := Store.serving_found served
    have there : (σ.store.context? via.scope).isSome := by rw [hx]; rfl
    have alive := ht.lives_context hb there
    have first : lt (via.scope, key) (via.scope, a) :=
      down a via.scope requester ((ht.serving hb there key).trans served)
    have path : ReflTransGen (σ.store.graph via.scope).Edge key a :=
      WaitGraph.cycleThrough_isSome_iff.1 (Option.isSome_iff_exists.2 ⟨cycle, closing⟩)
    have falls := path.lift (p := Function.swap lt) (fun k => (via.scope, k))
      fun a b edge => h.descends ho hc hb alive edge
    have around := TransGen.tail' (reflTransGen_swap.1 falls) first
    exact hs.wellFounded.transGen.irrefl.irrefl _ around

theorem Tracks.faithful (h : Tracks w base lt ans σ) (hs : w.Stratified base lt)
    (hans : w.Values base ans) (ho : σ.Orderly) (hc : σ.Counted) (ht : σ.store.Towards w base)
    {s' : Store H} (effect : d.Effect σ.store s')
    (requests : ∀ via key, d.request? = some (via, key) → via.scope.base = base ∧
      (σ.store.context? via.scope).isSome ∧ w.Descends lt via key)
    (ended : ∀ v ∈ d.ended, v.scope.base = base) : d.Faithful ans := by
  cases d with
  | quiet | dropped => trivial
  | begun via key v invokes =>
    obtain ⟨hb, hx, -⟩ := requests via key rfl
    have admitted := Store.request_waiting effect.1
    have later := (ht.serving hb hx key).trans admitted.serving
    have value := (Store.evaluates_iff_of_found later).1 (hans via.scope key hb)
    have hv : v.scope.base = base := (Store.servingAt_found later).1.trans hb
    show ans via.scope key = ans v.scope v.key
    rw [admitted.key_eq]
    exact value.unique (hans v.scope key hv)
  | refused via key f =>
    obtain ⟨hb, hx, down⟩ := requests via key rfl
    have value := hans via.scope key hb
    show ans via.scope key = .error f
    cases (Store.request_refused effect).2 with
    | circular => exact absurd effect (h.not_circular hs ho hc ht hb down)
    | unbound unserved =>
      have later := (ht.serving hb hx key).trans unserved
      exact value.unique (Store.evaluates_of_unbound later)
    | gone lost => exact absurd lost (ht.serving_ne_gone hb hx key)
    | @dead r hr dead =>
      subst hr
      have alive : σ.store.lives r.scope = true := ht.lives_context hb hx
      rw [alive] at dead
      cases dead
  | answered v o =>
    have hv : v.scope.base = base := ended v List.mem_cons_self
    exact (h v.place _ hv (Logged.answer_settled effect.1)).symm

/-- A slot that is there after a deed was there before, or it begins. -/
theorem Tracks.effect (h : Tracks w base lt ans σ) (hs : w.Stratified base lt)
    (ht : σ.store.Towards w base) {s' : Store H} (effect : d.Effect σ.store s')
    (hp : p.1.base = base) {x : Slot H} (hx : s'.slot? p.1 p.2 = some x) :
    w.Leads lt ans p x := by
  rcases effect.begins hx with old | ⟨-, -, begins⟩
  · exact h p x hp old
  · obtain ⟨f, r, hb, rfl⟩ := Store.begins_iff.1 begins
    exact hs.leads_program hp (ht.later.binds hb)

theorem Tracks.step (h : Tracks w base lt ans σ) (hs : w.Stratified base lt)
    (hans : w.Values base ans) (ho : σ.Orderly) (hc : σ.Counted) (ht : σ.store.Towards w base)
    (step : Step σ e τ) : Tracks w base lt ans τ := by
  intro p x hp hx
  by_cases inner : e.Inner
  · cases step with
    | client _ ha => exact h.effect hs ht ha.effect hp hx
    | @factory s cs q t d s' t' running ha =>
      by_cases hq : p = q
      · subst hq
        have kept := ha.effect.slot?_of_some running
        have hx : (s'.setSlot p.1 p.2 (.running t')).slot? p.1 p.2 = some x := hx
        rw [Store.slot?_setSlot_self kept] at hx
        cases hx
        have leads := h p _ hp running
        obtain ⟨-, -, -, requests, waits, -⟩ := id leads
        obtain ⟨y, hy, -⟩ := Store.exists_context?_of_slot? running
        have there : (s.context? p.1).isSome := by rw [hy]; rfl
        refine leads.acts ht hp there ha (h.faithful hs hans ho hc ht ha.effect ?_ ?_)
        · intro via key hr
          have below := ha.requested requests hr
          rw [below.1.scope_eq]
          exact ⟨hp, there, below.descends⟩
        · exact fun v hv => (waits v (ha.mem_of_ended hv)).1.trans hp
      · have hx : (s'.setSlot q.1 q.2 (.running t')).slot? p.1 p.2 = some x := hx
        rw [Store.slot?_setSlot_ne hq] at hx
        exact h.effect hs ht ha.effect hp hx
    | @settle s cs q t o v running ended place =>
      have hx : (s.setSlot q.1 q.2 (.settled (s.slotOutcome v o))).slot? p.1 p.2 = some x := hx
      by_cases hq : p = q
      · subst hq
        rw [Store.slot?_setSlot_self running] at hx
        cases hx
        obtain ⟨f, r, hb, -, -, yields⟩ := h p _ hp running
        obtain ⟨y, hy, -⟩ := Store.exists_context?_of_slot? running
        have there : (s.context? p.1).isSome := by rw [hy]; rfl
        show s.slotOutcome v o = ans p.1 p.2
        rw [(ht.binds hb there).slotOutcome place]
        exact hs.outcome_eq hp hans hb (yields o (Task.rest_yields_of_outcome? ended))
      · rw [Store.slot?_setSlot_ne hq] at hx
        exact h p x hp hx
    | _ => cases inner
  · rw [step.slot?_eq hc.founded.numbered inner] at hx
    exact h p x hp hx

/-- At every instant of a run, as seen from its end. -/
theorem Tracks.run {σ₀ ρ : Traffic H} (before : FeasibleRun σ₀ L τ) (after : FeasibleRun τ M ρ)
    (h₀ : Tracks ρ.store base lt ans σ₀) (ho : σ₀.Orderly) (hc : σ₀.Counted)
    (lawful : ∀ e ∈ L, e.Lawful) (alive : ρ.store.lives ⟨base, []⟩ = true)
    (hs : ρ.store.Stratified base lt) (hans : ρ.store.Values base ans) :
    Tracks ρ.store base lt ans τ := by
  induction before generalizing M with
  | nil => exact h₀
  | @snoc L τ e υ before step feasible ih =>
    have rest := ((FeasibleRun.nil τ).snoc step feasible).append after
    have lawful : ∀ e ∈ L, e.Lawful := fun e he => lawful e (List.mem_append_left _ he)
    have counted := hc.run before
    exact (ih rest lawful).step hs hans (ho.run before.run lawful) counted
      (rest.towards counted.founded alive) step

theorem Tracks.requests (h : Tracks w base lt ans σ) (ho : σ.Orderly) {who : Actor}
    (step : Step σ (.acted who d) τ) : (∃ s', d.Effect σ.store s') ∧
      ∀ via key, d.request? = some (via, key) → via.scope.base = base → w.Descends lt via key := by
  cases step with
  | client ht ha =>
    refine ⟨⟨_, ha.effect⟩, fun via key hr hb => ?_⟩
    have direct := ha.asked (ho.direct _ (List.mem_of_getElem? ht)) hr
    intro a d requester
    cases via with
    | context => cases requester
    | resolver => cases direct
  | @factory s cs p t d s' t' running ha =>
    refine ⟨⟨_, ha.effect⟩, fun via key hr hb => ?_⟩
    have own := ha.asked (ho.store.own p t id running) hr
    have hp : p.1.base = base := by rw [← own.scope_eq, hb]
    obtain ⟨-, -, -, requests, -⟩ := h p _ hp running
    exact (ha.requested requests hr).descends

theorem Tracks.empty {s : Store H} (h : s.contexts = .empty) : Tracks w base lt ans ⟨s, []⟩ := by
  intro p x _ hx
  have none : s.context? p.1 = none := by rw [Store.context?, h]; rfl
  have hx : s.slot? p.1 p.2 = some x := hx
  rw [Store.slot?, none] at hx
  cases hx

/-- In a tree of contexts that lives to the end of the run, whose factories come out as the answers
to their requests say, and whose requests go down in a well-founded order: every key has one value by
plain recursive evaluation, from whatever clock, shared state and signals; and at every instant of the
run, no request is refused as circular, and each is answered or refused with the value of its key.
Polls go on with runs of this kind. -/
theorem resolution_refines_evaluation {s₀ : Store H} (h₀ : s₀.contexts = .empty)
    (before : FeasibleRun ⟨s₀, []⟩ L τ) (after : FeasibleRun τ M σ) (lawful : ∀ e ∈ L, e.Lawful)
    (alive : σ.store.lives ⟨base, []⟩ = true) (stratified : σ.store.Stratified base lt) :
    (∀ c key, c.base = base → ∃! o, σ.store.Evaluates c key o) ∧
    (∀ who via key f ρ, Step τ (.acted who (.refused via key f)) ρ → via.scope.base = base →
      (∀ cycle, f ≠ .circularDependency cycle) ∧
        ((τ.store.context? via.scope).isSome → σ.store.Evaluates via.scope key (.error f))) ∧
    (∀ who via key v invokes ρ, Step τ (.acted who (.begun via key v invokes)) ρ →
      via.scope.base = base → (τ.store.context? via.scope).isSome →
      ∀ o, σ.store.Evaluates via.scope key o ↔ σ.store.Evaluates v.scope v.key o) ∧
    (∀ who v o ρ, Step τ (.acted who (.answered v o)) ρ → v.scope.base = base →
      σ.store.Evaluates v.scope v.key o) ∧
    ∀ policy depth i t t' s', σ.clients[i]? = some t →
      t.step policy depth σ.store = some (t', s') →
      ∃ N, FeasibleRun σ N ⟨s', σ.clients.set i t'⟩ ∧ (∀ e ∈ N, e.Lawful) ∧
        s'.lives ⟨base, []⟩ = true ∧ s'.Stratified base lt := by
  have value : ∀ c key, ∃ o, c.base = base → σ.store.Evaluates c key o := by
    intro c key
    by_cases hc : c.base = base
    · obtain ⟨o, ho⟩ := stratified.exists_evaluates hc key
      exact ⟨o, fun _ => ho⟩
    · exact ⟨.error .aborted, fun here => absurd here hc⟩
  choose ans hans using value
  have orderly : τ.Orderly := (Orderly.empty h₀).run before.run lawful
  have counted : τ.Counted := (Counted.empty h₀).run before
  have towards := after.towards counted.founded alive
  have tracks : Tracks σ.store base lt ans τ :=
    .run before after (.empty h₀) (.empty h₀) (.empty h₀) lawful alive stratified hans
  refine ⟨?_, ?_, ?_, ?_, ?_⟩
  · intro c key hc
    exact ⟨ans c key, hans c key hc, fun o ho => ho.unique (hans c key hc)⟩
  · intro who via key f ρ step hb
    obtain ⟨⟨s', effect⟩, requests⟩ := tracks.requests orderly step
    have down := requests via key rfl hb
    refine ⟨?_, fun there => ?_⟩
    · rintro cycle rfl
      exact tracks.not_circular stratified orderly counted towards hb down effect
    · have faithful : ans via.scope key = .error f :=
        tracks.faithful stratified hans orderly counted towards effect
          (fun via' key' hr => by cases hr; exact ⟨hb, there, down⟩) fun v hv => nomatch hv
      exact faithful ▸ hans via.scope key hb
  · intro who via key v invokes ρ step hb there o
    obtain ⟨⟨s', effect⟩, -⟩ := tracks.requests orderly step
    have admitted := Store.request_waiting effect.1
    have served := (towards.serving hb there key).trans admitted.serving
    rw [admitted.key_eq]
    exact Store.evaluates_iff_of_found served
  · intro who v o ρ step hb
    obtain ⟨⟨s', effect⟩, -⟩ := tracks.requests orderly step
    have settled : o = ans v.scope v.key := tracks v.place _ hb (Logged.answer_settled effect.1)
    exact settled ▸ hans v.scope v.key hb
  · intro policy depth i t t' s' ht step
    obtain ⟨N, more, inner⟩ := run_of_step ht step
    obtain ⟨fixed, handles⟩ := more.keeps_of_inner inner
    refine ⟨N, more.feasible inner, fun e he => (inner e he).lawful, ?_, ?_⟩
    · exact (Store.lives_congr handles _).trans alive
    · exact stratified.congr fixed (Store.lives_congr handles)

/-- A factory that makes a number from another one. -/
def derived (key : Key) (f : ℕ → ℕ) : Factory Host.counting :=
  .make (.plain ()) fun r => .getAs (.resolver r) ⟨key, .plain ()⟩ fun
    | .ok x => .done (.ok ⟨.bare (.plain ()), f x.value⟩)
    | .error e => .done (.error e)

theorem requests_derived {ok : Access → Key → Prop} {key : Key} {f : ℕ → ℕ} {r : Resolver}
    (h : ok (.resolver r) key) : ((derived key f).program r).Requests ok := by
  refine ⟨h, fun x => ?_⟩
  dsimp only
  split <;> trivial

theorem determinate_derived (key : Key) (f : ℕ → ℕ) (r : Resolver) :
    ((derived key f).program r).Determinate := by
  intro ans o o' h h'
  cases h with
  | get h =>
    cases h' with
    | get h' =>
      revert h h'
      dsimp only
      split <;> (intro h h'; cases h; cases h'; rfl)

def given (n : ℕ) : Factory Host.counting :=
  .make (.plain ()) fun _ => .done (.ok ⟨.bare (.plain ()), n⟩)

/-- A number, and one that is made from it. -/
def lowerProvider : Provider Host.counting :=
  ⟨0, (OrderedMap.empty.set "N" (given 7)).set "M" (derived "N" (· + 1))⟩

/-- A number under the same key as the one below, made from the other one. -/
def upperProvider : Provider Host.counting := ⟨1, OrderedMap.empty.set "N" (derived "M" (2 * ·))⟩

def rank (p : Place) : ℕ := 2 * p.1.layers.length + if p.2 = "M" then 1 else 0

def doubled : AnyInstance Host.counting := ⟨.plain (), ⟨.made ⟨0, [1]⟩ "N", (16 : ℕ)⟩⟩

def requestOfDoubled : Program Host.counting :=
  .get (.context ⟨0, [1]⟩) "N" fun _ => .done (.ok ⟨.unit, ()⟩)

def layeredStore : Store Host.counting :=
  ((({ user := (0 : ℕ) } : Store Host.counting).openBase lowerProvider (.root 0)).2.layer ⟨0, []⟩
    upperProvider).2

theorem asks_derived {key target : Key} {f : ℕ → ℕ} {c : Scope} {g : Signal} :
    ((derived target f).program ⟨c, g, key⟩).Asks (Access.Own (c, key)) :=
  Task.asks_iff (t := .run _).2 (requests_derived rfl)

theorem selfContained_lowerProvider : lowerProvider.SelfContained := by
  intro key f hf c g
  have hf : lowerProvider.bindings.get? key = some f := hf
  rw [lowerProvider, OrderedMap.get?_set, OrderedMap.get?_set] at hf
  split at hf
  · cases hf; exact asks_derived
  split at hf
  · cases hf; trivial
  · cases hf

theorem selfContained_upperProvider : upperProvider.SelfContained := by
  intro key f hf c g
  have hf : upperProvider.bindings.get? key = some f := hf
  rw [upperProvider, OrderedMap.get?_set] at hf
  split at hf
  · cases hf; exact asks_derived
  · cases hf

theorem binds_layeredStore {p : Place} {f : Factory Host.counting} {r : Resolver}
    (h : layeredStore.Binds p f r) :
    p = (⟨0, [1]⟩, "N") ∧ f = derived "M" (2 * ·) ∨
      p = (⟨0, []⟩, "M") ∧ f = derived "N" (· + 1) ∨ p = (⟨0, []⟩, "N") ∧ f = given 7 := by
  obtain ⟨c, key⟩ := p
  obtain ⟨x, hx, hf, -⟩ := h
  have contexts : layeredStore.contexts = (OrderedMap.empty.set ⟨0, []⟩
      { provider := lowerProvider, signal := .root 0, handles := 1 }).set ⟨0, [1]⟩
      { provider := upperProvider, signal := .root 0 } := rfl
  rw [Store.context?, contexts, OrderedMap.get?_set, OrderedMap.get?_set] at hx
  split at hx
  · rename_i hc
    cases hx
    have hf : upperProvider.bindings.get? key = some f := hf
    rw [upperProvider, OrderedMap.get?_set] at hf
    split at hf
    · rename_i hk
      cases hf
      exact .inl ⟨Prod.ext hc hk, rfl⟩
    · cases hf
  split at hx
  · rename_i hc
    cases hx
    have hf : lowerProvider.bindings.get? key = some f := hf
    rw [lowerProvider, OrderedMap.get?_set, OrderedMap.get?_set] at hf
    split at hf
    · rename_i hk
      cases hf
      exact .inr (.inl ⟨Prod.ext hc hk, rfl⟩)
    split at hf
    · rename_i hk
      cases hf
      exact .inr (.inr ⟨Prod.ext hc hk, rfl⟩)
    · cases hf
  · cases hx

theorem stratified_layeredStore : layeredStore.Stratified 0 fun p q => rank p < rank q := by
  -- a derived number is below the one it is derived from
  have below {p : Place} {f : Factory Host.counting} {r : Resolver} (h : layeredStore.Binds p f r)
      {key : Key} {d : Scope} (hs : layeredStore.serving p.1 key = .found d)
      (less : rank (d, key) < rank p) :
      layeredStore.Below (fun p q => rank p < rank q) p (.resolver r) key := by
    refine ⟨h.place_eq, fun d' hd => ?_⟩
    rw [hs] at hd
    cases hd
    exact less
  refine ⟨(measure rank).wf, fun p f r _ h => ?_, fun p f r _ h => ?_⟩
  · rcases binds_layeredStore h with ⟨rfl, rfl⟩ | ⟨rfl, rfl⟩ | ⟨rfl, rfl⟩
    · exact requests_derived (below h (d := ⟨0, []⟩) rfl (by decide))
    · exact requests_derived (below h (d := ⟨0, []⟩) rfl (by decide))
    · trivial
  · rcases binds_layeredStore h with ⟨rfl, rfl⟩ | ⟨rfl, rfl⟩ | ⟨rfl, rfl⟩
    · exact determinate_derived _ _ r
    · exact determinate_derived _ _ r
    · intro ans o o' ho ho'
      cases ho
      cases ho'
      rfl

/-- Each factory requests a number and waits for it until the one below has settled. -/
theorem exists_run_doubled : ∃ (L : List (Happening Host.counting)) (τ ρ : Traffic Host.counting),
    Run ⟨layeredStore, [.run requestOfDoubled]⟩ L τ ∧ (∀ e ∈ L, e.Inner) ∧
      Step τ (.acted (.client 0) (.answered ⟨⟨0, [1]⟩, "N", none⟩ (.ok doubled))) ρ := by
  have upper := Run.single (σ := ⟨layeredStore, [.run requestOfDoubled]⟩)
    (.client (i := 0) rfl (.begin rfl))
  have middle := upper.snoc (.factory (p := (⟨0, [1]⟩, "N")) rfl (.begin rfl))
  have lower := middle.snoc (.factory (p := (⟨0, []⟩, "M")) rfl (.begin rfl))
  have made := lower.snoc
    (.settle (p := (⟨0, []⟩, "N")) (w := ⟨⟨0, []⟩, "N", some "M"⟩) rfl rfl rfl)
  have told := made.snoc (.factory (p := (⟨0, []⟩, "M")) rfl (.answer rfl))
  have increased := told.snoc
    (.settle (p := (⟨0, []⟩, "M")) (w := ⟨⟨0, []⟩, "M", none⟩) rfl rfl rfl)
  have told' := increased.snoc (.factory (p := (⟨0, [1]⟩, "N")) rfl (.answer rfl))
  have settled := told'.snoc
    (.settle (p := (⟨0, [1]⟩, "N")) (w := ⟨⟨0, [1]⟩, "N", none⟩) rfl rfl rfl)
  refine ⟨_, _, _, settled, fun e he => ?_, .client (i := 0) rfl (.answer rfl)⟩
  simp only [List.cons_append, List.nil_append, List.mem_cons, List.not_mem_nil, or_false] at he
  rcases he with rfl | rfl | rfl | rfl | rfl | rfl | rfl | rfl <;> trivial

/-- The number of the layer is made from one below it, which is made from one under the same key. -/
theorem number_is_doubled : ∃ (L : List (Happening Host.counting)) (τ ρ : Traffic Host.counting),
    FeasibleRun ⟨{ user := (0 : ℕ) }, []⟩ L τ ∧
      Step τ (.acted (.client 0) (.answered ⟨⟨0, [1]⟩, "N", none⟩ (.ok doubled))) ρ ∧
      τ.store.Evaluates ⟨0, [1]⟩ "N" (.ok doubled) := by
  have opened := (FeasibleRun.nil ⟨{ user := (0 : ℕ) }, []⟩).snoc
    (.openBase (p := lowerProvider) (g := .root 0)) trivial
  have layered := opened.snoc (.openLayer (c := ⟨0, []⟩) (p := upperProvider)) trivial
  have arrived := layered.snoc (.arrive (p := requestOfDoubled)) trivial
  obtain ⟨L, τ, ρ, run, inner, last⟩ := exists_run_doubled
  obtain ⟨fixed, handles⟩ := run.keeps_of_inner inner
  have lives := Store.lives_congr handles
  have whole := arrived.append (run.feasible inner)
  have before : ∀ e ∈ [.opened lowerProvider, .layered ⟨0, []⟩ upperProvider,
      .arrived requestOfDoubled], Happening.Lawful e := by
    simp only [List.mem_cons, List.not_mem_nil, or_false]
    rintro e (rfl | rfl | rfl)
    · exact selfContained_lowerProvider
    · exact selfContained_upperProvider
    · exact ⟨trivial, fun _ => trivial⟩
  obtain ⟨-, -, -, answered, -⟩ := resolution_refines_evaluation rfl whole (.nil τ)
    (fun e he => (List.mem_append.1 he).elim (before e) fun he => (inner e he).lawful)
    ((lives ⟨0, []⟩).trans rfl) (stratified_layeredStore.congr fixed lives)
  exact ⟨_, τ, ρ, whole, last, answered _ _ _ ρ last rfl⟩

end Traffic

end ScopedEffects
