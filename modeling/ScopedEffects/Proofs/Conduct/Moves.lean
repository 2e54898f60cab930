import ScopedEffects.Proofs.Conduct.Effects
import ScopedEffects.Proofs.Execution.Places

/-! Moves keep to the rules. What keeps to them goes on keeping to them, on a store that does, as
long as no signal has fired that a part is yet to fire, or aborts are failures like others. Besides
what user code may fire, a move fires the signal of the part that it decides. -/

namespace ScopedEffects

variable {H : Host} {R : Rules H} {b : Nat} {s s' : Store H} {U V : Value H → Prop} {g c : Signal}
  {env : Env}

namespace Signal

theorem descendsFrom_child_iff {f : Signal} {n : Nat} :
    (g.child n).descendsFrom f = true ↔ f = g.child n ∨ g.descendsFrom f = true := by
  unfold descendsFrom child
  rw [List.isSuffixOf_iff_suffix, List.isSuffixOf_iff_suffix, List.suffix_cons_iff]
  refine or_congr_left ⟨fun h => ?_, fun h => ?_⟩
  · cases f
    exact congrArg _ h
  · rw [h]

/-- The signal without a lineage is one that all descend from. -/
theorem descendsFrom_root {f : Signal} {n : Nat} (h : (root n).descendsFrom f = true) :
    f = root n ∨ ∀ g : Signal, g.descendsFrom f = true := by
  unfold descendsFrom root at h
  rw [List.isSuffixOf_iff_suffix, List.suffix_cons_iff, List.suffix_nil] at h
  obtain ⟨lineage⟩ := f
  rcases h with rfl | rfl
  · exact .inl rfl
  · refine .inr fun g => ?_
    unfold descendsFrom
    rw [List.isSuffixOf_iff_suffix]
    exact List.nil_suffix

end Signal

namespace Store

theorem user_fire (s : Store H) (g : Signal) : (s.fire g).user = s.user := by
  unfold fire
  split <;> rfl

theorem user_fireAll (gs : List Signal) (s : Store H) : (s.fireAll gs).user = s.user := by
  unfold fireAll
  induction gs generalizing s with
  | nil => rfl
  | cons g rest ih => rw [List.foldl_cons, ih, user_fire]

namespace Follows

theorem perform {α : Type} {P : α → Prop} {code : Code H α} (h : s.Follows R b)
    (hc : code.Follows R P) :
    s.Evolves R b (s.perform code).2 ∧ match (s.perform code).1 with
      | .ok a => P a
      | .error p => R.Panics p := by
  obtain ⟨state, fired, answer⟩ := hc s.now s.user h.state
  have allows : R.Allows s (s.perform code).2 := by
    have kept := (Operation.perform (s := s) code).atOnce.fired
    refine ⟨fun _ => ?_, kept, fun f hf => ?_⟩
    · unfold Store.perform
      rw [user_fireAll]
      exact state
    · rcases mem_fired_fireAll hf with old | new
      · exact .inl old
      · exact .inr (fired f new)
  exact ⟨h.of_allows (s.sameContexts_perform code) allows, answer⟩

theorem record (h : s.Follows R b) (e : Event) : s.Evolves R b (s.record e) :=
  h.of_allows (s.sameContexts_record e) (Rules.allows_of_sameRest ⟨rfl, rfl, rfl⟩)

theorem number (h : s.Follows R b) (rest : Supply) : s.Evolves R b { s with signals := rest } :=
  h.of_allows ⟨rfl, rfl⟩ (Rules.allows_of_sameRest ⟨rfl, rfl, rfl⟩)

theorem draw (h : s.Follows R b) (p : RetryPolicy H) : s.Evolves R b (s.draw p).2 := by
  have rest : s.SameRest (s.draw p).2 := by
    unfold Store.draw
    split <;> exact ⟨rfl, rfl, rfl⟩
  exact h.of_allows (s.sameContexts_draw p) (Rules.allows_of_sameRest rest)

end Follows

/-- An execution and its store, as they come out of the store `s`. -/
def Brings [Tracing H] (s : Store H) (R : Rules H) (b : Nat) (V : Value H → Prop) (g : Signal)
    (x : Execution H × Store H) : Prop :=
  x.1.Follows R b x.2 V g ∧ s.Evolves R b x.2

theorem Brings.after [Tracing H] {x : Execution H × Store H} (h : s.Evolves R b s')
    (hx : s'.Brings R b V g x) : s.Brings R b V g x := ⟨hx.1, h.trans hx.2⟩

end Store

/-! Parts that are yet to fire a signal -/

/-- The signal that a step fires, or that nothing fires while the step waits. -/
def Frame.arms (env : Env) : Frame H → Option Signal
  | .timeout _ _ child _ => some child
  | .ensured _ => some env.signal
  | _ => none

/-- The signal that a combinator is yet to fire. -/
def Crew.arms : Crew H → Option Signal
  | .any child _ none => some child
  | .race child none => some child
  | _ => none

namespace Execution

variable {e e' : Execution H}

def arms : Execution H → Option Signal
  | frame env f _ => f.arms env
  | crew _ c _ _ => c.arms
  | _ => none

/-- No signal has fired that a part is yet to fire. -/
def Intact (s : Store H) (e : Execution H) : Prop :=
  ∀ α x c, e.at? α = some x → x.arms = some c → c ∉ s.fired

theorem Intact.below {x : Execution H} (h : e.Intact s) (hop : Hop) (hx : e.part? hop = some x) :
    x.Intact s := by
  intro α y c hy hc
  refine h (hop :: α) y c ?_ hc
  rw [at?, hx]
  exact hy

/-- A timeout, an `any` or a `race` is decided: it fires the signal that it is armed with. -/
inductive Decision : Execution H → Signal → Execution H → Prop
  | timeout {env deadline after child fallback above} :
      Decision (frame env (.timeout deadline after child fallback) above) child
        (frame env (.draining after fallback) above)
  | any {env child errors round br v line br'} :
      Decision (crew env (.any child errors none) round br) child
        (crew env (.any child errors (some v)) line br')
  | race {env child round br exit line br'} :
      Decision (crew env (.race child none) round br) child
        (crew env (.race child (some exit)) line br')

/-- The part at an address is decided, as `e` becomes `e'`. -/
def DecidesAt (e e' : Execution H) (c : Signal) (α : List Hop) : Prop :=
  ∃ x x', e.at? α = some x ∧ e'.at? α = some x' ∧ Decision x c x'

/-- What a move makes of a store: besides what user code does, the signal of a part is fired when
that part is decided. -/
structure Advances (R : Rules H) (b : Nat) (s : Store H) (e : Execution H) (s' : Store H)
    (e' : Execution H) : Prop where
  follows : s'.Follows R b
  keeps : s.Keeps s'
  kept : s.fired ⊆ s'.fired
  fired : ∀ f ∈ s'.fired, f ∈ s.fired ∨ R.fires f ∨ ∃ α, DecidesAt e e' f α

theorem advances_of_evolves (h : s.Evolves R b s') (e e' : Execution H) :
    Advances R b s e s' e' :=
  ⟨h.follows, h.keeps, h.allows.kept, fun f hf => (h.allows.fired f hf).imp_right .inl⟩

theorem Advances.below {x x' : Execution H} (h : Advances R b s x s' x') (hop : Hop)
    (hx : e.part? hop = some x) (hx' : e'.part? hop = some x') : Advances R b s e s' e' := by
  refine ⟨h.follows, h.keeps, h.kept, fun f hf => ?_⟩
  rcases h.fired f hf with old | user | ⟨α, y, y', hy, hy', decision⟩
  · exact .inl old
  · exact .inr (.inl user)
  · refine .inr (.inr ⟨hop :: α, y, y', ?_, ?_, decision⟩)
    · rw [at?, hx]
      exact hy
    · rw [at?, hx']
      exact hy'

theorem advances_of_fire (hs : s.Follows R b) {c : Signal} (decision : Decision e c e') :
    Advances R b s e (s.fire c) e' := by
  have same := s.sameContexts_fire c
  refine ⟨hs.of_sameContexts same ?_, same.keeps, (s.atOnce_fire c).fired, fun f hf => ?_⟩
  · rw [Store.user_fire]
    exact hs.state
  · rcases Store.mem_fired_fire hf with old | rfl
    · exact .inl old
    · exact .inr (.inr ⟨[], e, e', rfl, rfl, decision⟩)

theorem Advances.after {s₁ : Store H} (h : s.Evolves R b s₁) (h' : Advances R b s₁ e s' e') :
    Advances R b s e s' e' := by
  refine ⟨h'.follows, h.keeps.trans h'.keeps, List.Subset.trans h.allows.kept h'.kept, ?_⟩
  intro f hf
  rcases h'.fired f hf with old | new
  · exact (h.allows.fired f old).imp_right .inl
  · exact .inr new

/-- A child that has not been fired itself has fired with its parent. -/
theorem isFired_of_child {n : Nat} (h : g.child n ∉ s.fired) (hf : s.isFired (g.child n) = true) :
    s.isFired g = true := by
  obtain ⟨f, fired, descends⟩ := List.any_eq_true.1 hf
  rcases Signal.descendsFrom_child_iff.1 descends with rfl | descends
  · exact absurd fired h
  · exact List.any_eq_true.2 ⟨f, fired, descends⟩

theorem isFired_of_root {n : Nat} (h : Signal.root n ∉ s.fired)
    (hf : s.isFired (.root n) = true) (g : Signal) : s.isFired g = true := by
  obtain ⟨f, fired, descends⟩ := List.any_eq_true.1 hf
  rcases Signal.descendsFrom_root descends with rfl | descends
  · exact absurd fired h
  · exact List.any_eq_true.2 ⟨f, fired, descends g⟩

end Execution

namespace Execution

variable [Tracing H]

theorem Follows.brings {e : Execution H} (h : e.Follows R b s V g) (hs : s.Follows R b) :
    s.Brings R b V g (e, s) := ⟨h, hs.evolves⟩

theorem follows_program {guard : Guard} {p : Program H} (own : ∀ h, guard = .signal h → h = g)
    (hp : p.Follows R Scope.None (R.Settles V)) :
    (task guard (.run p)).Follows R b s V g := by
  have kept : p.Follows R (s.Opens b) (R.Permits V (s.isFired g)) :=
    hp.mono (fun _ none => none.elim) fun _ he => he.permits
  exact .task own kept

theorem follows_service {t : Token H} {guard : Guard} {wrap : Instance H t.kind → Value H}
    (own : ∀ h, guard = .signal h → h = g) (opens : s.Opens b env.scope)
    (h : ∀ i, R.made t.key i → R.Settles V ((t.view i).map wrap)) :
    (task guard (.run (serviceProgram env t wrap))).Follows R b s V g := by
  have kept : (serviceProgram env t wrap).Follows R (s.Opens b) (R.Permits V (s.isFired g)) := by
    refine ⟨opens, fun a ha => ?_⟩
    cases a with
    | ok i => exact Rules.Settles.permits (h i ha)
    | error f => exact .inl ha
  exact .task own kept

theorem brings_build {α : Type} {P : α → Prop} {code : Code H α} {next : α → Execution H}
    (hs : s.Follows R b) (h : code.Follows R P)
    (hn : ∀ a s', s.Evolves R b s' → P a → (next a).Follows R b s' V g) :
    s.Brings R b V g (build s code next) := by
  obtain ⟨evolves, answer⟩ := hs.perform h
  unfold build
  split
  · rename_i a s₁ hp
    rw [hp] at evolves answer
    exact ⟨hn a s₁ evolves answer, evolves⟩
  · rename_i p s₁ hp
    rw [hp] at evolves answer
    exact ⟨.settled (.inl answer), evolves⟩

theorem brings_source {x : Execution H × Store H} (hs : s.Follows R b)
    (h : s.Brings R b V env.signal x) : s.Brings R b V env.signal (source env s x) := by
  unfold source
  split
  · rename_i fired
    exact Follows.brings (.settled (Rules.permits_aborted V fired)) hs
  · exact h

/-! Entering nodes -/

theorem follows_ofNodes {nodes : List (Node H)} (own : env.signal = g)
    (h : ∀ n ∈ nodes, n.Follows R V) {k i : Nat} {e : Execution H}
    (found : (Branches.ofNodes env k nodes).find? i = some e) (opens : s.Opens b env.scope) :
    e.Follows R b s V g := by
  obtain ⟨n, hn, rfl⟩ := Branches.find?_ofNodes found
  exact .enter own (h n hn) opens

theorem brings_start {n : Node H} (hs : s.Follows R b) (hn : n.Follows R V)
    (opens : s.Opens b env.scope) : s.Brings R b V env.signal (start env s n) := by
  have later : ∀ {s' : Store H}, s.Evolves R b s' → s'.Opens b env.scope :=
    fun evolves => opens.kept evolves.keeps
  cases hn with
  | sync h => exact brings_source hs (brings_build hs h fun _ _ _ he => .settled he.permits)
  | program h =>
    refine brings_source hs (brings_build hs h fun _ _ _ hp => follows_program ?_ hp)
    exact fun _ same => (Guard.signal.inj same).symm
  | cancellable h =>
    exact brings_source hs (brings_build hs (h env.signal) fun _ _ _ hp => follows_program nofun hp)
  | suspend h effects =>
    have built := h.imp fun now x n hx ha _ => effects now x n hx ha
    refine brings_source hs (brings_build hs built ?_)
    exact fun n s' evolves hn => .enter rfl hn (later evolves)
  | service h =>
    refine brings_source hs (Follows.brings (follows_service ?_ opens h) hs)
    exact fun _ same => (Guard.signal.inj same).symm
  | @all U _ cap collect nodes h collects =>
    refine brings_source hs (Follows.brings ?_ hs)
    refine .crew (U := U) (c := env.signal) rfl List.nodup_nil ?_ opens nofun
    refine ⟨rfl, Crew.sound_unstarted cap collect nodes, fun p hp => ?_, collects, fun v hv => ?_,
      nofun⟩
    · obtain ⟨q, hq, rfl⟩ := List.mem_map.1 hp
      exact h _ (List.fst_mem_of_mem_zipIdx hq)
    · obtain ⟨-, -, hv⟩ := List.mem_map.1 hv
      cases hv
  | @any _ nodes h gathers =>
    have evolves := hs.number (fresh.run s.signals).2
    refine brings_source hs ⟨.crew (U := V) (c := env.signal.child s.signals.next) rfl
      (Branches.nodup_ofNodes ..) ?_ (later evolves) ?_, evolves⟩
    · refine ⟨rfl, ⟨_, rfl⟩, fun _ => id, gathers, fun f hf => ?_, nofun⟩
      obtain ⟨-, -, hf⟩ := List.mem_map.1 hf
      cases hf
    · exact fun i e found => follows_ofNodes rfl h found (later evolves)
  | @race _ nodes h none =>
    have evolves := hs.number (fresh.run s.signals).2
    refine brings_source hs ⟨.crew (U := V) (c := env.signal.child s.signals.next) rfl
      (Branches.nodup_ofNodes ..) ?_ (later evolves) ?_, evolves⟩
    · refine ⟨rfl, ⟨_, rfl⟩, fun _ => id, fun _ empty => none ?_, nofun⟩
      rw [Branches.indices_ofNodes] at empty
      exact List.eq_nil_of_length_eq_zero (List.range'_eq_nil_iff.1 empty)
    · exact fun i e found => follows_ofNodes rfl h found (later evolves)
  | map inner h effects =>
    refine Follows.brings (.frame ⟨rfl, rfl, fun v hv => ?_⟩ opens (.enter rfl inner opens)) hs
    refine (h v hv).imp fun now x a hx ha plain => ?_
    cases a with
    | effect n => exact effects v now x n hv hx ha
    | _ => exact plain
  | withService inner fails h =>
    refine Follows.brings (.frame ⟨rfl, rfl, fun v hv => ?_⟩ opens (.enter rfl inner opens)) hs
    split
    · rename_i wrap hw
      exact fun i => h v wrap i hv hw
    · rename_i f hf
      exact fails v f hv hf
  | recover inner h effects =>
    refine Follows.brings (.frame ⟨rfl, rfl, fun _ => id, fun f hf hd => ?_⟩ opens
      (.enter rfl inner opens)) hs
    refine (h f hf hd).imp fun now x o hx ho _ n hn => effects f now x n hf hd hx ?_
    rw [ho, hn]
  | tap inner h effects =>
    refine Follows.brings (.frame ⟨rfl, rfl, fun _ => id, fun v hv => ?_⟩ opens
      (.enter rfl inner opens)) hs
    refine (h v hv).imp fun now x a hx ha failure => ?_
    cases a with
    | ok n => exact effects v now x n hv hx ha
    | error f => exact failure f rfl
  | tapError inner h effects =>
    refine Follows.brings (.frame ⟨rfl, rfl, fun _ => id, fun f hf => ?_⟩ opens
      (.enter rfl inner opens)) hs
    exact (h f hf).imp fun now x n hx hn _ => effects f now x n hf hx hn
  | ensuring inner h effects =>
    refine Follows.brings (.frame ⟨rfl, rfl, fun _ => id, ?_⟩ opens (.enter rfl inner opens)) hs
    exact h.imp fun now x n hx hn _ => effects now x n hx hn
  | @timeout _ u after fallback inner fails falls =>
    have evolves := hs.number (fresh.run s.signals).2
    have falls : Fallback.Follows R V after fallback := by
      cases fallback with
      | none => exact fails rfl
      | some n => exact falls n rfl
    exact ⟨.frame ⟨rfl, rfl, ⟨_, rfl⟩, fun _ => id, falls⟩ (later evolves)
      (.enter rfl inner (later evolves)), evolves⟩
  | retry inner h =>
    have first : 0 ≠ 0 → R.Recoverable := fun again => absurd rfl again
    exact Follows.brings (.frame ⟨rfl, rfl, fun _ => id, inner, h, first⟩ opens
      (.enter rfl inner opens)) hs
  | @provide _ u p inner h =>
    obtain ⟨evolves, opens⟩ := hs.layer h opens
    exact ⟨.enter rfl inner opens, evolves⟩
  | @span _ u name attributes inner fails h =>
    refine Follows.brings (.frame (U := fun v => ∃ i : Instance H .tracer,
      v = ⟨.shared .tracer, i⟩ ∧ i.value.Follows R name attributes) ⟨rfl, rfl, inner, fun _ => id⟩
      opens (follows_service nofun opens fun i hi => ?_)) hs
    cases hv : (Token.tracer H).view i with
    | ok j => exact ⟨j, rfl, h i j hi hv⟩
    | error f => exact fails i f hi hv

/-! Going on with steps -/

theorem follows_next {n : Next H (Node H)} (opens : s.Opens b env.scope)
    (hn : n.Follows R V (Node.Follows R V)) : (n.execution env).Follows R b s V env.signal := by
  cases n with
  | value v =>
    have permitted : R.Permits V (s.isFired env.signal) (.ok v) := hn
    exact .settled permitted
  | fail f => exact .settled (.inl hn)
  | program p => exact follows_program (fun _ same => (Guard.signal.inj same).symm) hn
  | effect n => exact .enter rfl hn opens

theorem brings_concludeFinalizer {exit cleanup : Exit H} (hs : s.Follows R b)
    (h : R.Permits V (s.isFired g) exit)
    (hc : ∀ f, cleanup = .error f → R.Permits V (s.isFired g) (.error f)) :
    s.Brings R b V g (concludeFinalizer exit cleanup s) := by
  unfold concludeFinalizer
  split
  · exact Follows.brings (.settled h) hs
  · exact Follows.brings (.settled (hc _ rfl)) hs
  · exact ⟨.settled h, hs.record _⟩

theorem brings_retryAfter {inner : Node H} {policy : RetryPolicy H} {attempt : Nat} {f : Failure H}
    (hs : s.Follows R b) (hi : inner.Follows R V) (hp : policy.Follows R)
    (opens : s.Opens b env.scope) (hf : R.Permits V (s.isFired env.signal) (.error f)) :
    s.Brings R b V env.signal (retryAfter env inner policy attempt f s) := by
  have asks : (policy.accepts f).Follows R fun again =>
      again = true → R.failure f ∧ f.isDefect = false := by
    cases hd : f.isDefect with
    | false => exact (hp.asks f (hf.failure hd) hd).imp fun _ _ _ _ _ _ _ => ⟨hf.failure hd, rfl⟩
    | true =>
      -- a defect is refused without asking
      intro now x hx
      unfold RetryPolicy.accepts
      rw [if_pos hd]
      exact ⟨hx, fun _ hg => absurd hg (List.not_mem_nil), fun no => nomatch no⟩
  obtain ⟨evolves, answer⟩ := hs.perform asks
  -- once the policy has agreed, the draw and the record are left
  have agreed : ∀ {s₁ : Store H} (event : Event), s.perform (policy.accepts f) = (.ok true, s₁) →
      R.Recoverable ∧ s.Evolves R b ((s₁.draw policy).2.record event) ∧
        ((s₁.draw policy).2.record event).Opens b env.scope := by
    intro s₁ event asked
    rw [asked] at evolves answer
    have drawn := evolves.trans (evolves.follows.draw policy)
    have recorded := drawn.trans (drawn.follows.record event)
    exact ⟨⟨f, answer rfl⟩, recorded, opens.kept recorded.keeps⟩
  have goes := retries env inner policy attempt f s
  generalize retryAfter env inner policy attempt f s = x at goes ⊢
  cases goes with
  | exhausted => exact Follows.brings (.settled hf) hs
  | asking _ asked =>
    rw [asked] at evolves answer
    exact ⟨.unwound answer, evolves⟩
  | declines _ asked =>
    rw [asked] at evolves
    exact ⟨.settled (hf.later evolves.allows.kept), evolves⟩
  | drawing _ asked spread =>
    rw [asked] at evolves answer
    obtain ⟨failure, regular⟩ := answer rfl
    exact ⟨.unwound (hp.delays f failure regular _ _ _ spread),
      evolves.trans (evolves.follows.draw policy)⟩
  | again _ asked =>
    obtain ⟨recoverable, recorded, opens⟩ := agreed _ asked
    exact ⟨.frame ⟨rfl, rfl, fun _ => id, hi, hp, fun _ => recoverable⟩ opens
      (.enter rfl hi opens), recorded⟩
  | pauses _ asked =>
    obtain ⟨recoverable, recorded, opens⟩ := agreed _ asked
    exact ⟨.pause rfl hi hp recoverable opens, recorded⟩

theorem brings_resume {f : Frame H} {exit : Exit H} (hs : s.Follows R b)
    (hf : f.Follows R s V g env U c) (opens : s.Opens b env.scope)
    (h : R.Permits U (s.isFired c) exit)
    (up : R.Abortive ∨ (f.arms env = some c → s.isFired c = true → s.isFired g = true)) :
    s.Brings R b V g (f.resume env exit s) := by
  have later : ∀ {s' : Store H}, s.Evolves R b s' → s'.Opens b env.scope :=
    fun evolves => opens.kept evolves.keeps
  cases f with
  | map code =>
    obtain ⟨rfl, rfl, hcode⟩ := hf
    cases exit with
    | ok v => exact brings_build hs (hcode v h) fun _ _ evolves => follows_next (later evolves)
    | error f => exact Follows.brings (.settled h) hs
  | withService t pair =>
    obtain ⟨rfl, rfl, hpair⟩ := hf
    cases exit with
    | ok v =>
      have pairs := hpair v h
      unfold Frame.resume
      dsimp only
      split
      · rename_i wrap hw
        rw [hw] at pairs
        refine Follows.brings (follows_service ?_ opens pairs) hs
        exact fun _ same => (Guard.signal.inj same).symm
      · rename_i f hf
        rw [hf] at pairs
        exact Follows.brings (.settled (.inl pairs)) hs
    | error f => exact Follows.brings (.settled h) hs
  | recover code =>
    obtain ⟨rfl, rfl, values, hcode⟩ := hf
    have passes := h.lift (.inr id) values
    cases exit with
    | ok v => exact Follows.brings (.settled passes) hs
    | error f =>
      unfold Frame.resume
      dsimp only
      split
      · exact Follows.brings (.settled passes) hs
      · rename_i hd
        have hd := Bool.eq_false_iff.2 hd
        refine brings_build hs (hcode f (h.failure hd) hd) fun o s' evolves ho => ?_
        cases o with
        | some n => exact .enter rfl (ho n rfl) (later evolves)
        | none => exact .settled (passes.later evolves.allows.kept)
  | tap code =>
    obtain ⟨rfl, rfl, values, hcode⟩ := hf
    cases exit with
    | ok v =>
      refine brings_build hs (hcode v (values v h)) fun a s' evolves ha => ?_
      cases a with
      | ok n =>
        exact .frame ⟨rfl, rfl, values v h⟩ (later evolves) (.enter rfl ha (later evolves))
      | error f => exact .settled (.inl ha)
    | error f => exact Follows.brings (.settled h) hs
  | tapped v =>
    obtain ⟨rfl, rfl, hv⟩ := hf
    cases exit with
    | ok => exact Follows.brings (.settled (Rules.Settles.permits hv)) hs
    | error => exact Follows.brings (.settled h) hs
  | tapError code =>
    obtain ⟨rfl, rfl, values, hcode⟩ := hf
    cases exit with
    | ok v => exact Follows.brings (.settled (h.lift (.inr id) values)) hs
    | error f =>
      refine brings_build hs (hcode f h.seen) fun n s' evolves hn => ?_
      exact .frame ⟨rfl, rfl, h.later evolves.allows.kept⟩ (later evolves)
        (.enter rfl hn (later evolves))
  | tapErrored f =>
    obtain ⟨rfl, rfl, hf⟩ := hf
    cases exit with
    | ok => exact Follows.brings (.settled hf) hs
    | error => exact Follows.brings (.settled h) hs
  | ensuring code =>
    obtain ⟨rfl, rfl, values, hcode⟩ := hf
    have passes := h.lift (.inr id) values
    have numbered := hs.number (fresh.run s.signals).2
    obtain ⟨performed, answer⟩ := numbered.follows.perform hcode
    have evolves := numbered.trans performed
    have passes := passes.later evolves.allows.kept
    unfold Frame.resume
    dsimp only
    split
    · rename_i n s₁ hp
      have hp : Store.perform { s with signals := (fresh.run s.signals).2 } code = _ := hp
      rw [hp] at evolves answer passes
      have opens := later evolves
      exact ⟨.frame (U := fun _ => True) ⟨rfl, ⟨_, rfl⟩, passes⟩ opens (.enter rfl answer opens),
        evolves⟩
    · rename_i p s₁ hp
      have hp : Store.perform { s with signals := (fresh.run s.signals).2 } code = _ := hp
      rw [hp] at evolves answer passes
      refine Store.Brings.after evolves ?_
      refine brings_concludeFinalizer evolves.follows passes fun f hf => ?_
      cases hf
      exact .inl answer
  | ensured first =>
    obtain ⟨rfl, -, hfirst⟩ := hf
    refine brings_concludeFinalizer hs hfirst fun f hf => ?_
    subst hf
    exact Rules.Permits.lift (U := V) h (up.imp_right (· rfl)) fun _ => id
  | timeout deadline after child fallback =>
    obtain ⟨rfl, rfl, -, values, -⟩ := hf
    exact Follows.brings (.settled (h.lift (up.imp_right (· rfl)) values)) hs
  | draining after fallback =>
    obtain ⟨rfl, -, -, hfall⟩ := hf
    cases fallback with
    | none => exact Follows.brings (.settled (.inl hfall)) hs
    | some n => exact Follows.brings (.enter rfl hfall opens) hs
  | retry inner policy attempt =>
    obtain ⟨rfl, rfl, values, hinner, hpolicy, -⟩ := hf
    cases exit with
    | ok v => exact Follows.brings (.settled (h.lift (.inr id) values)) hs
    | error f => exact brings_retryAfter hs hinner hpolicy opens h
  | acquire inner name attributes =>
    obtain ⟨rfl, rfl, hinner, tracers⟩ := hf
    cases exit with
    | ok v =>
      obtain ⟨i, rfl, follows⟩ := tracers v h
      have taken : (Except.ok ⟨.shared .tracer, i⟩ : Exit H).bind (Value.take (.shared .tracer)) =
        .ok i := Value.take_mk (.shared .tracer) i
      simp only [Frame.resume, taken]
      exact Follows.brings (.frame ⟨rfl, rfl, hinner, follows.after⟩ opens
        (follows_program (fun _ same => by cases same) follows.before)) hs
    | error f => exact Follows.brings (.settled h) hs
  | entered inner tracer name =>
    obtain ⟨rfl, rfl, hinner, closes⟩ := hf
    cases exit with
    | ok v =>
      exact Follows.brings (.frame ⟨rfl, rfl, fun _ => id, closes⟩ opens
        (.enter rfl hinner opens)) hs
    | error f => exact Follows.brings (.settled h) hs
  | body tracer name =>
    obtain ⟨rfl, rfl, values, closes⟩ := hf
    have passes := h.lift (.inr id) values
    have kept : (tracer.after name exit).Follows R (s.Opens b)
        (R.Permits V (s.isFired env.signal)) := by
      refine (closes exit).mono (fun _ none => none.elim) fun e he => ?_
      rcases he with rfl | ⟨f, rfl, hf⟩
      · exact passes
      · exact .inl hf
    exact Follows.brings (.task (fun _ same => by cases same) kept) hs

/-! Moves -/

variable {policy : Policy} {depth : Nat} {e e' : Execution H}

theorem brings_moveTask {guard : Guard} {t : Task H} (hs : s.Follows R b)
    (h : (task guard t).Follows R b s V g)
    (hm : moveTask policy depth s guard t = some (e', s')) : s.Brings R b V g (e', s') := by
  cases h with
  | task own ht =>
    cases moveTask_moves hm with
    | settles ho => exact Follows.brings (.settled (ht.ends ho)) hs
    | @unwinds p ho =>
      have panics : R.Panics p := ht.ends ho
      exact Follows.brings (.unwound panics) hs
    | @catches p ho =>
      have panics : R.Panics p := ht.ends ho
      exact Follows.brings (.settled (.inl panics)) hs
    | steps _ step =>
      obtain ⟨follows, evolves⟩ := hs.step ht step
      exact ⟨.task own (follows.mono (fun _ => id) fun _ he => he.later evolves.allows.kept),
        evolves⟩
    | @aborts h' _ same fired =>
      rw [own h' same] at fired
      have dropped := hs.finishWaits t.waits
      refine ⟨.settled (Rules.permits_aborted V ?_), dropped⟩
      exact Store.isFired_of_subset dropped.allows.kept fired

/-! Combinators -/

variable {crew : Crew H} {br : Branches H} {running : List Nat} {exit : Exit H}

/-- What a combinator makes of the exit of a branch. It may decide, and fire the signal of its
branches. -/
theorem follows_absorb {i : Nat} (hs : s.Follows R b) (own : env.signal = g)
    (hc : crew.Follows R s V g br.indices U c) (h : R.Permits U (s.isFired c) exit)
    (up : R.Abortive ∨ (crew.arms = some c → s.isFired c = true → s.isFired g = true))
    (round line : Round) :
    (crew.absorb i exit s).1.Follows R (crew.absorb i exit s).2 V g (br.erase i).indices U c ∧
      Advances R b s (.crew env crew round br) (crew.absorb i exit s).2
        (.crew env (crew.absorb i exit s).1 line (br.erase i)) := by
  cases crew with
  | all cap collect pending values failure =>
    obtain ⟨rfl, sound, nodes, collects, hvalues, hfailure⟩ := hc
    have sound' := sound_absorb sound i exit s
    cases exit with
    | ok v =>
      refine ⟨⟨rfl, sound', nodes, collects, fun w hw => ?_, hfailure⟩,
        advances_of_evolves hs.evolves ..⟩
      rcases List.mem_or_eq_of_mem_set hw with old | same
      · exact hvalues w old
      · cases same
        exact h
    | error f =>
      refine ⟨⟨rfl, sound', nodes, collects, hvalues, fun j f' hj => ?_⟩,
        advances_of_evolves (hs.record _) ..⟩
      have lowest : Crew.lowest i f failure = (j, f') := Option.some.inj hj
      rcases Crew.lowest_cases i f failure with same | old
      · rw [lowest] at same
        cases same
        exact h
      · rw [lowest] at old
        exact hfailure j f' old
  | any child errors won =>
    obtain ⟨rfl, hchild, values, gathers, herrors, hwon⟩ := hc
    cases won with
    | some v =>
      exact ⟨⟨rfl, hchild, values, gathers, herrors, hwon⟩, advances_of_evolves hs.evolves ..⟩
    | none =>
      have up := up.imp_right (· rfl)
      cases exit with
      | ok v =>
        have recorded := hs.record (.branchSucceeded i)
        have decision : Decision (.crew env (.any c errors none) round br) c
          (.crew env (.any c errors (some v)) line (br.erase i)) := .any
        have advances := (advances_of_fire recorded.follows decision).after recorded
        refine ⟨⟨rfl, hchild, values, gathers, fun f hf => (herrors f hf).later advances.kept, ?_⟩,
          advances⟩
        intro w hw
        cases hw
        exact ⟨values v h, Store.isFired_fire_self _ c⟩
      | error f =>
        refine ⟨⟨rfl, hchild, values, gathers, fun f' hf => ?_, nofun⟩,
          advances_of_evolves hs.evolves ..⟩
        rcases List.mem_or_eq_of_mem_set hf with old | same
        · exact herrors f' old
        · cases same
          exact h.lift up values
  | race child won =>
    obtain ⟨rfl, hchild, values, hnone, hwon⟩ := hc
    cases won with
    | some won =>
      exact ⟨⟨rfl, hchild, values, nofun, hwon⟩, advances_of_evolves hs.evolves ..⟩
    | none =>
      have up := up.imp_right (· rfl)
      have decision : Decision (.crew env (.race c none) round br) c
        (.crew env (.race c (some exit)) line (br.erase i)) := .race
      have advances := advances_of_fire hs decision
      refine ⟨⟨rfl, hchild, values, nofun, fun e he => ?_⟩, advances⟩
      cases he
      exact ⟨(h.lift up values).later advances.kept, Store.isFired_fire_self _ c⟩

theorem permits_conclude (own : env.signal = g) (hc : crew.Follows R s V g [] U c) :
    R.Permits V (s.isFired g) (crew.conclude env s) := by
  subst own
  cases crew with
  | all cap collect pending values failure =>
    obtain ⟨rfl, -, -, collects, hvalues, hfailure⟩ := hc
    cases failure with
    | some failed => exact hfailure failed.1 failed.2 rfl
    | none =>
      refine Rules.Settles.permits (collects _ fun v hv => hvalues v ?_)
      obtain ⟨o, ho, rfl⟩ := List.mem_filterMap.1 hv
      exact ho
  | any child errors won =>
    obtain ⟨-, -, -, gathers, herrors, hwon⟩ := hc
    cases won with
    | some v =>
      have permitted : R.Permits V (s.isFired env.signal) (.ok v) := (hwon v rfl).1
      exact permitted
    | none =>
      unfold Crew.conclude
      dsimp only
      split
      · rename_i fired
        exact Rules.permits_aborted V fired
      · rename_i unfired
        refine .inl (gathers _ fun f hf => ?_)
        obtain ⟨o, ho, rfl⟩ := List.mem_filterMap.1 hf
        rcases herrors f ho with failure | ⟨fired, -⟩
        · exact failure
        · exact absurd fired unfired
  | race child won =>
    obtain ⟨-, -, -, hnone, hwon⟩ := hc
    cases won with
    | some exit => exact (hwon exit rfl).1
    | none => exact .inl (hnone rfl rfl)

theorem isFired_of_armed {f : Frame H} (hf : f.Follows R s V g env U c)
    (armed : f.arms env = some c) (unfired : c ∉ s.fired) (fired : s.isFired c = true) :
    s.isFired g = true := by
  cases f with
  | timeout =>
    obtain ⟨-, rfl, ⟨n, rfl⟩, -⟩ := hf
    exact isFired_of_child unfired fired
  | ensured =>
    obtain ⟨-, ⟨n, rfl⟩, -⟩ := hf
    exact isFired_of_root unfired fired g
  | _ => cases armed

theorem isFired_of_undecided (hc : crew.Follows R s V g running U c)
    (armed : crew.arms = some c) (unfired : c ∉ s.fired) (fired : s.isFired c = true) :
    s.isFired g = true := by
  cases crew with
  | all => cases armed
  | any child errors won =>
    obtain ⟨rfl, ⟨n, rfl⟩, -⟩ := hc
    exact isFired_of_child unfired fired
  | race child won =>
    obtain ⟨rfl, ⟨n, rfl⟩, -⟩ := hc
    exact isFired_of_child unfired fired

theorem Follows.move (h : e.Follows R b s V g) (hs : s.Follows R b)
    (intact : R.Abortive ∨ e.Intact s) (hm : e.move policy depth s = some (e', s')) :
    e'.Follows R b s' V g ∧ Advances R b s e s' e' := by
  -- one part moves: the parts around it only see the store go on, which `later` is about
  induction h generalizing policy depth e' s' with
  | enter own hn opens =>
    subst own
    rw [move] at hm
    have brings := brings_start hs hn opens
    rw [Option.some.inj hm] at brings
    exact ⟨brings.1, advances_of_evolves brings.2 ..⟩
  | task own ht =>
    rw [move] at hm
    have brings := brings_moveTask hs (.task own ht) hm
    exact ⟨brings.1, advances_of_evolves brings.2 ..⟩
  | pause own hn hp again opens =>
    subst own
    rw [move] at hm
    split at hm
    · rename_i fired
      cases hm
      exact ⟨.settled (Rules.permits_aborted _ fired), advances_of_evolves hs.evolves ..⟩
    · split at hm
      · cases hm
        exact ⟨.frame ⟨rfl, rfl, fun _ => id, hn, hp, fun _ => again⟩ opens (.enter rfl hn opens),
          advances_of_evolves hs.evolves ..⟩
      · cases hm
  | @frame U V g c env f above hf opens ha ih =>
    cases move_frame hm with
    | resumes settled =>
      subst settled
      cases ha with
      | settled h =>
        have up : R.Abortive ∨ (f.arms env = some c → s.isFired c = true → s.isFired g = true) := by
          refine intact.imp_right fun intact armed fired => ?_
          exact isFired_of_armed hf armed (intact [] _ c rfl armed) fired
        have brings := brings_resume hs hf opens h up
        exact ⟨brings.1, advances_of_evolves brings.2 ..⟩
    | passes unwound =>
      subst unwound
      cases ha with
      | unwound h => exact ⟨.unwound h, advances_of_evolves hs.evolves ..⟩
    | moves _ moved =>
      have intact := intact.imp_right fun intact => intact.below .above rfl
      obtain ⟨follows, advances⟩ := ih intact moved
      exact ⟨.frame (hf.later advances.kept) (opens.kept advances.keeps) follows,
        advances.below .above rfl rfl⟩
    | @expires deadline after child fallback _ _ _ timeout =>
      subst timeout
      obtain ⟨same, rfl, hchild, values, falls⟩ := hf
      have recorded := hs.record (.timeoutExpired after)
      have decision : Decision (.frame env (.timeout deadline after c fallback) above) c
        (.frame env (.draining after fallback) above) := .timeout
      have advances := (advances_of_fire recorded.follows decision).after recorded
      refine ⟨.frame ⟨same, hchild, Store.isFired_fire_self _ c, falls⟩ (opens.kept advances.keeps)
        (ha.later advances.keeps advances.kept), advances⟩
  | @crew U V g c env round crew br own distinct hc opens hb ih =>
    cases move_crew distinct hm with
    | keeps hk =>
      cases hk with
      | panics unwound =>
        have panicked := hb _ _ unwound
        cases panicked with
        | unwound h =>
          exact ⟨.settled (.inl h), advances_of_evolves (hs.finishWaits _) ..⟩
      | @absorbs i exit line settled =>
        have absorbed := hb i _ settled
        cases absorbed with
        | settled h =>
          obtain ⟨follows, advances⟩ := follows_absorb (i := i) hs own hc h
            (intact.imp_right fun intact armed => isFired_of_undecided hc armed
              (intact [] _ c rfl armed)) round line
          have opens := opens.kept advances.keeps
          refine ⟨.crew own (Branches.nodup_erase distinct i) follows opens fun j y hj => ?_,
            advances⟩
          obtain ⟨-, old⟩ := Branches.find?_of_erase distinct hj
          exact (hb j y old).later advances.keeps advances.kept
      | @admits i n rest line next =>
        refine ⟨?_, advances_of_evolves hs.evolves ..⟩
        obtain ⟨cap, collect, pending, values, rfl, rfl⟩ := Crew.next?_some next
        obtain ⟨rfl, sound, nodes, collects, hvalues, hfailure⟩ := hc
        obtain ⟨new, sound'⟩ := sound_next? sound next
        rw [← Branches.indices_push br i (.enter n env)] at sound'
        have entered : (Execution.enter n env).Follows R b s U c :=
          .enter own (nodes (i, n) List.mem_cons_self) opens
        refine .crew own (Branches.nodup_push distinct new _)
          ⟨rfl, sound', fun p hp => nodes p (List.mem_cons_of_mem _ hp), collects, hvalues,
            hfailure⟩ opens fun j y hj => ?_
        rcases Branches.find?_of_push new hj with rfl | old
        · exact entered
        · exact hb j y old
      | concludes _ none_left =>
        rw [none_left] at hc
        exact ⟨.settled (permits_conclude own hc), advances_of_evolves hs.evolves ..⟩
    | @moves i f f' b' line policy' depth' s₁ idle same others found found' moved =>
      obtain ⟨follows, advances⟩ := ih i f found
        (intact.imp_right fun intact => intact.below (.branch i) found) moved
      refine ⟨.crew own (same ▸ distinct) (same ▸ hc.later advances.kept)
        (opens.kept advances.keeps) ?_, advances.below (.branch i) found found'⟩
      intro j y hj
      by_cases hji : j = i
      · rw [hji, found'] at hj
        cases hj
        exact follows
      · rw [others j hji] at hj
        exact (hb j y hj).later advances.keeps advances.kept
  | settled => rw [move] at hm; cases hm
  | unwound => rw [move] at hm; cases hm

end Execution

end ScopedEffects
