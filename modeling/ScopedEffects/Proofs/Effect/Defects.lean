import ScopedEffects.Effect.CatchTable
import ScopedEffects.Proofs.Conduct.Runs

/-! Defects in combinators. Where nothing fails but with errors of resolution, no failure is
recovered from and nothing is tried again, whatever combinators merge, replace or drop, until an
`any` wraps the failures of all its branches: what it makes of defects is no defect. -/

namespace ScopedEffects

variable {H : Host} {K : Key → Kind H.Plain} {anys : Bool}

namespace Failure

/-- A defect, or what an `any` makes of such failures, where there may be an `any`. -/
inductive OfDefects (anys : Bool) : Failure H → Prop
  | defect {f} (h : f.isDefect = true) : OfDefects anys f
  | aggregate {es} (allowed : anys = true) (h : ∀ f ∈ es, OfDefects anys f) :
      OfDefects anys (.aggregate es)

variable {f : Failure H}

theorem OfDefects.isDefect (h : f.OfDefects anys)
    (plain : anys = true → ∀ es, f ≠ .aggregate es) : f.isDefect = true := by
  cases h with
  | defect h => exact h
  | @aggregate es allowed => exact absurd rfl (plain allowed es)

theorem OfDefects.allowed (h : f.OfDefects anys) (regular : f.isDefect = false) : anys = true := by
  cases h with
  | defect h =>
    rw [regular] at h
    cases h
  | aggregate allowed => exact allowed

end Failure

namespace Rules

/-- All failures come from defects, and what is made for a key has the kind that belongs to it. -/
def ofDefects (K : Key → Kind H.Plain) (anys : Bool) : Rules H where
  failure := Failure.OfDefects anys
  made key i := i.1 = K key
  state _ := True
  fires _ := True
  unbound _ := .defect rfl
  circular _ := .defect rfl

theorem abortive_ofDefects (K : Key → Kind H.Plain) (anys : Bool) : (ofDefects K anys).Abortive :=
  fun _ => .defect rfl

theorem not_recoverable_ofDefects (K : Key → Kind H.Plain) : ¬ (ofDefects K false).Recoverable := by
  rintro ⟨f, failure, regular⟩
  cases Failure.OfDefects.allowed failure regular

end Rules

open Rules (ofDefects)

/-! Effects whose failures come from defects -/

/-- The code comes to an answer, and panics nowhere. -/
def Code.Total {α : Type} (c : Code H α) : Prop := ∀ now u, ∃ x, (c now u).answer = .ok x

theorem Code.Total.follows {α : Type} {c : Code H α} (h : c.Total) :
    c.Follows (ofDefects K anys) fun _ => True := by
  intro now u _
  obtain ⟨x, answer⟩ := h now u
  rw [answer]
  exact ⟨trivial, fun _ _ => trivial, trivial⟩

theorem Code.Total.map {α β : Type} {c : Code H α} (h : c.Total) (f : α → β) : (c.map f).Total := by
  intro now u
  obtain ⟨x, answer⟩ := h now u
  refine ⟨f x, ?_⟩
  show (c now u).answer.map f = .ok (f x)
  rw [answer]
  rfl

theorem Code.onValue_mk {α : Type} {a : Shape H.Plain} (x : a.El H) (fail : Failure H → α)
    (f : a.El H → Code H α) : Code.onValue a ⟨a, x⟩ fail f = f x := by
  simp only [Code.onValue, Value.take_mk]

theorem Code.answer_map {α β : Type} {c : Code H α} {f : α → β} {now : Clock} {u : H.State} {y : β}
    (h : ((c.map f) now u).answer = .ok y) : ∃ x, (c now u).answer = .ok x ∧ f x = y := by
  have h : (c now u).answer.map f = .ok y := h
  cases hc : (c now u).answer with
  | ok x =>
    rw [hc] at h
    exact ⟨x, rfl, Except.ok.inj h⟩
  | error p =>
    rw [hc] at h
    cases h

/-- The token asks for the kind that belongs to its key. -/
def Token.Fits (K : Key → Kind H.Plain) (t : Token H) : Prop := K t.key = t.kind

theorem Token.Fits.view {t : Token H} (h : t.Fits K) {i : AnyInstance H} (hi : i.1 = K t.key) :
    ∃ j, t.view i = .ok j := by
  have same : i.1 = t.kind := hi.trans h
  exact ⟨_, dif_pos same⟩

theorem Value.takeAll_ok {a : Shape H.Plain} {vs : List (Value H)} (h : ∀ v ∈ vs, v.1 = a) :
    ∃ xs, Value.takeAll a vs = .ok ⟨.list a, xs⟩ := by
  have taken : ∃ xs, vs.mapM (Value.take a) = .ok xs := by
    induction vs with
    | nil => exact ⟨[], rfl⟩
    | cons v rest ih =>
      obtain ⟨xs, hxs⟩ := ih fun w hw => h w (List.mem_cons_of_mem v hw)
      obtain ⟨a', x⟩ := v
      cases h _ List.mem_cons_self
      refine ⟨x :: xs, ?_⟩
      rw [List.mapM_cons, Value.take_mk, hxs]
      rfl
  obtain ⟨xs, hxs⟩ := taken
  refine ⟨xs, ?_⟩
  rw [Value.takeAll, hxs]
  rfl

namespace Effect

/-- Effects that fail by themselves in no way: they ask for services at the kinds that belong to
their keys, and their closures panic nowhere and build such effects. Handlers and predicates may do
as they like where there is no `any`. -/
inductive Assembled (K : Key → Kind H.Plain) (anys : Bool) :
    {a : Shape H.Plain} → Effect H a → Prop
  | succeed {a : Shape H.Plain} (x : a.El H) : Assembled K anys (Effect.succeed x)
  | service {t : Token H} (fits : t.Fits K) : Assembled K anys (Effect.service t)
  | withService {a b} {e : Effect H a} (h : Assembled K anys e) {t : Token H} (fits : t.Fits K)
      {f : a.El H → Instance H t.kind → Code H (Effect H b)} (total : ∀ x i, (f x i).Total)
      (next : ∀ x i now u g, (f x i now u).answer = .ok g → Assembled K anys g) :
      Assembled K anys (e.withService t f)
  | map {a b : Shape H.Plain} {e : Effect H a} (h : Assembled K anys e)
      {f : a.El H → Code H (b.El H)} (total : ∀ x, (f x).Total) : Assembled K anys (e.map f)
  | andThen {a b} {e : Effect H a} (h : Assembled K anys e) {f : a.El H → Code H (Effect H b)}
      (total : ∀ x, (f x).Total)
      (next : ∀ x now u g, (f x now u).answer = .ok g → Assembled K anys g) :
      Assembled K anys (e.andThen f)
  | provide {a} {e : Effect H a} (h : Assembled K anys e) {p : Provider H}
      (hp : p.Follows (ofDefects K anys)) : Assembled K anys (e.provide p)
  | all {a} {es : List (Effect H a)} (h : ∀ e ∈ es, Assembled K anys e) :
      Assembled K anys (Effect.all es)
  | allWithConcurrency {a} {es : List (Effect H a)} (h : ∀ e ∈ es, Assembled K anys e) {cap g}
      (hg : Effect.allWithConcurrency es cap = .ok g) : Assembled K anys g
  | any {a} {es : List (Effect H a)} (allowed : anys = true) (h : ∀ e ∈ es, Assembled K anys e) {g}
      (hg : Effect.any es = .ok g) : Assembled K anys g
  | race {a} {es : List (Effect H a)} (h : ∀ e ∈ es, Assembled K anys e) {g}
      (hg : Effect.race es = .ok g) : Assembled K anys g
  | recover {a} {e : Effect H a} (h : Assembled K anys e)
      {handler : Failure H → Code H (Option (Effect H a))}
      (total : anys = true → ∀ f, (handler f).Total)
      (next : anys = true → ∀ f now u g, (handler f now u).answer = .ok (some g) →
        Assembled K anys g) : Assembled K anys (e.recover handler)
  | retry {a} {e : Effect H a} (h : Assembled K anys e) {policy : RetryPolicy H}
      (asks : anys = true → ∀ f, (policy.accepts f).Total)
      (delays : anys = true → ∀ attempt draw p, policy.nextDelay attempt draw ≠ .error p) :
      Assembled K anys (e.retry policy)

namespace Assembled

variable {a b : Shape H.Plain} {e : Effect H a}

def Shaped (a : Shape H.Plain) (v : Value H) : Prop := v.1 = a

variable [Tracing H]

theorem follows_gather {es : List (Effect H a)}
    (h : ∀ e ∈ es, e.node.Follows (ofDefects K anys) (Shaped a)) (cap : Option Nat) :
    (Effect.gather cap es).node.Follows (ofDefects K anys) (Shaped (.list a)) := by
  refine .all (U := Shaped a) (fun n hn => ?_) fun vs hvs => ?_
  · obtain ⟨e, he, rfl⟩ := List.mem_map.1 hn
    exact h e he
  · obtain ⟨xs, taken⟩ := Value.takeAll_ok hvs
    rw [taken]
    exact rfl

theorem follows_map {f : a.El H → Code H (b.El H)}
    (h : e.node.Follows (ofDefects K anys) (Shaped a)) (total : ∀ x, (f x).Total) :
    (e.map f).node.Follows (ofDefects K anys) (Shaped b) := by
  refine .map h (fun v hv => ?_) fun v now u n hv _ answer => ?_
  · obtain ⟨_, x⟩ := v
    cases hv
    rw [Code.onValue_mk]
    refine ((total x).map _).follows.imp fun now u y _ answer _ => ?_
    obtain ⟨z, -, rfl⟩ := Code.answer_map answer
    exact rfl
  · obtain ⟨_, x⟩ := v
    cases hv
    rw [Code.onValue_mk] at answer
    obtain ⟨z, -, impossible⟩ := Code.answer_map answer
    cases impossible

theorem follows_andThen {f : a.El H → Code H (Effect H b)}
    (h : e.node.Follows (ofDefects K anys) (Shaped a)) (total : ∀ x, (f x).Total)
    (next : ∀ x now u g, (f x now u).answer = .ok g →
      g.node.Follows (ofDefects K anys) (Shaped b)) :
    (e.andThen f).node.Follows (ofDefects K anys) (Shaped b) := by
  refine .map h (fun v hv => ?_) fun v now u n hv _ answer => ?_
  · obtain ⟨_, x⟩ := v
    cases hv
    rw [Code.onValue_mk]
    refine ((total x).map _).follows.imp fun now u y _ answer _ => ?_
    obtain ⟨g, -, rfl⟩ := Code.answer_map answer
    exact trivial
  · obtain ⟨_, x⟩ := v
    cases hv
    rw [Code.onValue_mk] at answer
    obtain ⟨g, built, same⟩ := Code.answer_map answer
    cases same
    exact next x now u g built

theorem follows_zipService {t : Token H} (h : e.node.Follows (ofDefects K anys) (Shaped a))
    (fits : t.Fits K) :
    (e.zipService t).node.Follows (ofDefects K anys) (Shaped (.pair a (.shared t.kind))) := by
  refine .withService h (fun v f hv failed => ?_) fun v wrap i hv paired hi => ?_
  · obtain ⟨_, x⟩ := v
    cases hv
    rw [Value.take_mk] at failed
    cases failed
  · obtain ⟨_, x⟩ := v
    cases hv
    rw [Value.take_mk] at paired
    cases paired
    obtain ⟨j, viewed⟩ := fits.view hi
    rw [viewed]
    exact rfl

/-- Effects so assembled keep to the rules, and produce values of their shapes. -/
theorem follows (h : e.Assembled K anys) : e.node.Follows (ofDefects K anys) (Shaped a) := by
  induction h with
  | succeed x => exact .sync (Code.follows_pure rfl)
  | @service t fits =>
    refine .service fun i hi => ?_
    obtain ⟨j, viewed⟩ := fits.view hi
    rw [viewed]
    exact rfl
  | withService _ fits total _ ih ihn =>
    exact follows_andThen (follows_zipService ih fits) (fun p => total p.1 p.2)
      fun p => ihn p.1 p.2
  | map _ total ih => exact follows_map ih total
  | andThen _ total _ ih ihn => exact follows_andThen ih total ihn
  | provide _ hp ih => exact .provide ih hp
  | all _ ih => exact follows_gather ih none
  | @allWithConcurrency _ es _ cap g hg ih =>
    unfold Effect.allWithConcurrency at hg
    split at hg <;> cases hg
    exact follows_gather ih (some cap)
  | @any _ es allowed _ g hg ih =>
    unfold Effect.any at hg
    split at hg <;> cases hg
    refine .any (fun n hn => ?_) fun es hes => .aggregate allowed hes
    obtain ⟨e, he, rfl⟩ := List.mem_map.1 hn
    exact ih e he
  | @race _ es _ g hg ih =>
    unfold Effect.race at hg
    split at hg
    · cases hg
    · rename_i some_branch
      cases hg
      refine .race (fun n hn => ?_) fun none => ?_
      · obtain ⟨e, he, rfl⟩ := List.mem_map.1 hn
        exact ih e he
      · rw [List.map_eq_nil_iff.1 none] at some_branch
        exact absurd rfl some_branch
  | recover _ total _ ih ihn =>
    refine .recover ih (fun f hf regular => ?_) fun f now u n hf regular _ answer => ?_
    · exact ((total (Failure.OfDefects.allowed hf regular) f).map _).follows
    · obtain ⟨o, built, same⟩ := Code.answer_map answer
      obtain ⟨g, rfl, rfl⟩ := Option.map_eq_some_iff.1 same
      exact ihn (Failure.OfDefects.allowed hf regular) f now u g built
  | retry _ asks delays ih =>
    refine .retry ih ⟨fun f hf regular => ?_, fun f hf regular attempt draw p failed => ?_⟩
    · exact (asks (Failure.OfDefects.allowed hf regular) f).follows
    · exact absurd failed (delays (Failure.OfDefects.allowed hf regular) attempt draw p)

end Assembled

end Effect

/-! The deadline of a run -/

/-- A deadline around all that a run does: the timeout, or what is left of it. -/
def Frame.Bounds : Frame H → Prop
  | .timeout _ _ _ none | .draining _ none => True
  | _ => False

namespace Execution

variable {R : Rules H} {b : Nat} {s s' : Store H} {e e' x : Execution H} {α : List Hop}

/-- What is under way keeps to the rules, but for a deadline around all of it. -/
inductive Bounded [Tracing H] (R : Rules H) (b : Nat) (s : Store H) : Execution H → Prop
  | free {V g e} (h : e.Follows R b s V g) : Bounded R b s e
  | enter {V n after env} (hn : n.Follows R V) (opens : s.Opens b env.scope) :
      Bounded R b s (.enter (.timeout n after none) env)
  | frame {V c env f above} (hf : f.Bounds) (ha : above.Follows R b s V c) :
      Bounded R b s (.frame env f above)
  | lapsed {after} : Bounded R b s (.settled (.error (.timeout after)))

/-- The part is about to recover from failures, or to try again after them. -/
def Handles : Execution H → Prop
  | .frame _ (.recover _) _ | .frame _ (.retry ..) _ | .pause .. => True
  | _ => False

variable [Tracing H]

theorem move_any_of_failed {policy : Policy} {depth : Nat} {env : Env} {child : Signal}
    {errors : List (Option (Failure H))} {round : Round}
    (unfired : s.isFired env.signal = false) :
    (crew env (.any child errors none) round .nil).move policy depth s =
      some (.settled (.error (.aggregate (errors.filterMap id))), s) := by
  have concludes : Crew.conclude env s (.any child errors none) =
      .error (.aggregate (errors.filterMap id)) := by
    unfold Crew.conclude
    dsimp only
    rw [if_neg (by rw [unfired]; exact Bool.false_ne_true)]
  have moves : moveCrew s env (.any child errors none) round .nil =
      some (.settled (Crew.conclude env s (.any child errors none)), s) := rfl
  rw [Execution.move, moves, concludes]

theorem Bounded.later (h : e.Bounded R b s) (keeps : s.Keeps s') (fired : s.fired ⊆ s'.fired) :
    e.Bounded R b s' := by
  cases h with
  | free h => exact .free (h.later keeps fired)
  | enter hn opens => exact .enter hn (opens.kept keeps)
  | frame hf ha => exact .frame hf (ha.later keeps fired)
  | lapsed => exact .lapsed

theorem Bounded.move (h : e.Bounded R b s) (hs : s.Follows R b) (abortive : R.Abortive)
    {policy : Policy} {depth : Nat} (hm : e.move policy depth s = some (e', s')) :
    e'.Bounded R b s' ∧ s'.Follows R b := by
  cases h with
  | free h =>
    obtain ⟨follows, advances⟩ := h.move hs (.inl abortive) hm
    exact ⟨.free follows, advances.follows⟩
  | @enter V n after env hn opens =>
    rw [Execution.move] at hm
    cases hm
    have evolves := hs.number (fresh.run s.signals).2
    let child := env.signal.child s.signals.next
    have entered : (Execution.enter n { env with signal := child }).Follows R b s.newSignal.2 V
        child := .enter rfl hn (opens.kept evolves.keeps)
    exact ⟨.frame trivial entered, evolves.follows⟩
  | @frame V c env f above hf ha =>
    cases move_frame hm with
    | resumes settled =>
      subst settled
      cases ha with
      | settled h =>
        cases f with
        | timeout => exact ⟨.free (.settled h), hs⟩
        | draining after fallback =>
          cases fallback with
          | none => exact ⟨.lapsed, hs⟩
          | some => exact hf.elim
        | _ => exact hf.elim
    | passes unwound =>
      subst unwound
      cases ha with
      | unwound h => exact ⟨.free (V := V) (g := c) (.unwound h), hs⟩
    | moves _ moved =>
      obtain ⟨follows, advances⟩ := ha.move hs (.inl abortive) moved
      exact ⟨.frame hf follows, advances.follows⟩
    | @expires deadline after child fallback _ _ _ timeout =>
      subst timeout
      cases fallback with
      | some => exact hf.elim
      | none =>
        -- what is left is drained, and the deadline settles with its own failure
        have recorded := hs.record (.timeoutExpired after)
        have same := (s.record (.timeoutExpired after)).sameContexts_fire child
        have fired := ((s.record (.timeoutExpired after)).atOnce_fire child).fired
        refine ⟨.frame trivial (ha.later (recorded.keeps.trans same.keeps) fired), ?_⟩
        refine recorded.follows.of_sameContexts same ?_
        rw [Store.user_fire]
        exact hs.state
  | lapsed => rw [Execution.move] at hm; cases hm

/-- The deadline stands below all handlers. -/
theorem Bounded.at? (h : e.Bounded R b s) (hx : e.at? α = some x) (handles : x.Handles) :
    ∃ U c, x.Follows R b s U c := by
  cases h with
  | free h => exact h.at? hx
  | @frame V c env f above hf ha =>
    cases α with
    | nil =>
      cases hx
      cases f <;> first | exact hf.elim | exact handles.elim
    | cons hop α =>
      cases hop with
      | above => exact ha.at? hx
      | branch => cases hx
  | enter | lapsed =>
    cases α with
    | nil =>
      cases hx
      exact handles.elim
    | cons hop α => cases hop <;> cases hx

theorem Bounded.ofDefects (h : e.Bounded (ofDefects K anys) b s) {env : Env} {f : Frame H}
    {exit : Exit H} (hx : e.at? α = some (.frame env f (.settled exit)))
    (handles : (Execution.frame env f (.settled exit)).Handles) :
    ∀ failure, exit = .error failure → failure.OfDefects anys := by
  obtain ⟨U, c, follows⟩ := h.at? hx handles
  cases follows with
  | frame _ _ above =>
    cases above with
    | settled permitted =>
      rintro failure rfl
      rcases permitted with ofDefects | ⟨-, reason, rfl⟩
      · exact ofDefects
      · exact .defect rfl

end Execution

theorem Story.bounded_of_first [Tracing H] {R : Rules H} {b t : Nat} {r : Story H}
    (abortive : R.Abortive) (store : (r.state 0).store.Follows R b)
    (execution : (r.state 0).execution.Bounded R b (r.state 0).store) (ht : t ≤ r.last) :
    (r.state t).store.Follows R b ∧ (r.state t).execution.Bounded R b (r.state t).store := by
  induction t with
  | zero => exact ⟨store, execution⟩
  | succ t ih =>
    obtain ⟨store, execution⟩ := ih (Nat.le_of_succ_le ht)
    rcases (r.step t ht).moves_or_waits with ⟨policy, moved⟩ | ⟨same, waits, -⟩
    · exact (execution.move store abortive moved).symm
    · rw [same]
      exact ⟨waits.follows store, execution.later waits.contexts.keeps waits.kept⟩

namespace Runner

variable [Tracing H] {a : Shape H.Plain}

theorem bounded_withDeadline {e : Effect H a} (assembled : e.Assembled K anys) (runner : Runner H)
    (env : Env) {b : Nat} {s : Store H} (opens : s.Opens b env.scope) :
    (Execution.enter (runner.withDeadline e).node env).Bounded (ofDefects K anys) b s := by
  unfold withDeadline
  split
  · exact .enter assembled.follows opens
  · exact .free (.enter rfl assembled.follows opens)

/-- Where nothing fails but with errors of resolution and there is no `any`, no handler is asked at
any level, and nothing is tried again. An `any` makes an aggregate of the defects of its branches,
which is no defect: handlers are run on such aggregates, and on nothing else. -/
theorem defects_bypass_handlers (K : Key → Kind H.Plain) (anys : Bool) (runner : Runner H)
    (e : Effect H a) (assembled : e.Assembled K anys)
    (provider : runner.provider.Follows (ofDefects K anys)) (signal : Signal) (alarms : List Alarm)
    (s s' : Store H) (numbered : s.Numbered) (grounded : s.Grounded) (x : Execution H)
    (scope : Scope) (launched : runner.launch e signal s = (.ok x, scope, s')) (r : Story H)
    (first : r.state 0 = .ring ⟨s', x, alarms⟩) :
    (∀ t α envf code exit, t ≤ r.last →
      r.part? α t = some (.frame envf (.recover code) (.settled exit)) →
      (∀ f, exit = .error f → f.OfDefects anys) ∧
      ((anys = true → ∀ es, exit ≠ .error (.aggregate es)) →
        ∀ s, (Frame.recover code).resume envf exit s = (.settled exit, s))) ∧
    (∀ t α envf n policy k exit, t ≤ r.last →
      r.part? α t = some (.frame envf (.retry n policy k) (.settled exit)) →
      (∀ f, exit = .error f → f.OfDefects anys) ∧
      ((anys = true → ∀ es, exit ≠ .error (.aggregate es)) →
        ∀ s, (Frame.retry n policy k).resume envf exit s = (.settled exit, s))) ∧
    (anys = false → ∀ t α, t ≤ r.last →
      (∀ envf n policy k above, r.part? α t = some (.frame envf (.retry n policy k) above) →
        k = 0) ∧
      ∀ till envf n policy k, r.part? α t ≠ some (.pause till envf n policy k)) ∧
    ∀ policy depth envc child errors round (s : Store H), s.isFired envc.signal = false →
      ∃ es, (Execution.crew envc (.any child errors none) round .nil).move policy depth s =
          some (.settled (.error (.aggregate es)), s) ∧
        ∀ envf code, (Frame.recover code).resume envf (.error (.aggregate es)) s =
          Execution.build s (code (.aggregate es)) fun
            | some n => .enter n envf
            | none => .settled (.error (.aggregate es)) := by
  obtain ⟨rfl, opened, opens⟩ := launch_follows launched provider trivial numbered grounded
  have waits : s'.Waits (r.state 0).store := by
    rw [first]
    exact Machine.waits_ring s' _ alarms
  have begins : (r.state 0).execution.Bounded (ofDefects K anys) s.bases.next
      (r.state 0).store := by
    have whole := bounded_withDeadline assembled runner
      ⟨scope, signal, runner.settings.defaultConcurrency⟩ opens
    have later := whole.later waits.contexts.keeps waits.kept
    rw [first] at later ⊢
    exact later
  have bounded := fun t (ht : t ≤ r.last) => Story.bounded_of_first
    (Rules.abortive_ofDefects K anys) (waits.follows opened) begins ht
  have passes : ∀ t α envf f exit, t ≤ r.last → r.part? α t = some (.frame envf f (.settled exit)) →
      (Execution.frame envf f (.settled exit)).Handles →
      (∀ failure, exit = .error failure → failure.OfDefects anys) ∧
      ((anys = true → ∀ es, exit ≠ .error (.aggregate es)) →
        ∀ failure, exit = .error failure → failure.isDefect = true) := by
    intro t α envf f exit ht hx handles
    have defects := (bounded t ht).2.ofDefects hx handles
    refine ⟨defects, fun plain failure failed => ?_⟩
    refine (defects failure failed).isDefect fun allowed es same => plain allowed es ?_
    rw [failed, same]
  refine ⟨?_, ?_, ?_, ?_⟩
  · intro t α envf code exit ht hx
    obtain ⟨defects, fatal⟩ := passes t α envf _ exit ht hx trivial
    refine ⟨defects, fun plain s => ?_⟩
    cases exit with
    | ok v => rfl
    | error f => exact Execution.resume_recover_defect (fatal plain f rfl) envf s code
  · intro t α envf n policy k exit ht hx
    obtain ⟨defects, fatal⟩ := passes t α envf _ exit ht hx trivial
    refine ⟨defects, fun plain s => ?_⟩
    cases exit with
    | ok v => rfl
    | error f => exact Execution.resume_retry_defect (fatal plain f rfl) envf s n policy k
  · intro none t α ht
    have hopeless := Rules.not_recoverable_ofDefects K
    rw [← none] at hopeless
    constructor
    · intro envf n policy k above hx
      obtain ⟨U, c, follows⟩ := (bounded t ht).2.at? hx trivial
      cases follows with
      | frame hf =>
        obtain ⟨-, -, -, -, -, again⟩ := hf
        by_contra more
        exact hopeless (again more)
    · intro till envf n policy k hx
      obtain ⟨U, c, follows⟩ := (bounded t ht).2.at? hx trivial
      cases follows with
      | pause _ _ _ again => exact hopeless again
  · intro policy depth envc child errors round s unfired
    exact ⟨errors.filterMap id, Execution.move_any_of_failed unfired, fun envf code => rfl⟩

/-! A service that requests itself -/

def selfToken : Token Host.counting := ⟨"A", .plain ()⟩

def selfFactory : Factory Host.counting :=
  .make (.plain ()) fun r => .getAs (.resolver r) selfToken fun a =>
    .done (a.map fun i => ⟨.bare (.plain ()), i.value⟩)

def selfRunner : Runner Host.counting := { provider := ⟨0, OrderedMap.empty.set "A" selfFactory⟩ }

def onlyService : Effect Host.counting (.shared (.plain ())) :=
  ⟨.any [(Effect.service selfToken).node], .unions [.singleton "A"]⟩

def handled : Effect Host.counting .unit :=
  (onlyService.map (b := .unit) fun _ => .pure ()).catchAll fun _ => .pure (.succeed ())

def handledMachine : Machine Host.counting :=
  .ring ⟨(selfRunner.opened (.root 0) { user := (0 : Nat) }).2.record .runStarted,
    .enter handled.node ⟨⟨0, []⟩, .root 0, none⟩, []⟩

theorem follows_selfProvider :
    selfRunner.provider.Follows (ofDefects (fun _ => .plain ()) true) := by
  intro key f hf r hr
  have bound : (OrderedMap.empty.set "A" selfFactory).get? key = some f := hf
  rw [OrderedMap.get?_set] at bound
  split at bound
  · cases bound
    refine ⟨rfl, fun a ha => ?_⟩
    cases a with
    | ok i =>
      obtain ⟨k, i⟩ := i
      cases ha
      exact rfl
    | error failure => exact ha
  · cases bound

theorem assembled_handled : handled.Assembled (fun _ => .plain ()) true := by
  have service : (Effect.service selfToken).Assembled (fun _ => .plain ()) true := .service rfl
  have some_service : onlyService.Assembled (fun _ => .plain ()) true := by
    have built : Effect.any [Effect.service selfToken] = .ok onlyService := rfl
    refine .any rfl (fun e he => ?_) built
    rw [List.mem_singleton.1 he]
    exact service
  have ignored := Effect.Assembled.map (b := .unit) (f := fun _ => .pure ()) some_service
    fun _ _ _ => ⟨_, rfl⟩
  refine .recover ignored (fun _ _ _ _ => ⟨_, rfl⟩) fun _ f now u g built => ?_
  cases built
  exact .succeed (a := .unit) ()

/-- A handler is run on the aggregate of a circular dependency. -/
theorem aggregate_of_defects_is_handled : ∃ r : Story Host.counting,
    r.state 0 = handledMachine ∧ ∃ envf code es,
    r.part? [] r.last = some (.frame envf (.recover code) (.settled (.error (.aggregate es)))) ∧
    Failure.OfDefects true (.aggregate es) ∧
    ((Frame.recover code).resume envf (.error (.aggregate es)) (r.state r.last).store).1 =
      .enter (Effect.succeed (a := .unit) ()).node envf := by
  have run : Machine.run .standard 0 12 handledMachine = (_, _) := rfl
  obtain ⟨r, first, last⟩ := Story.exists_of_run run
  have here : r.part? [] r.last = some (.frame ⟨⟨0, []⟩, .root 0, none⟩
    (.recover fun _ => Code.pure (some (Effect.succeed (a := .unit) ()).node))
    (.settled (.error (.aggregate [.circularDependency ["A", "A"]])))) := by
    unfold Story.part?
    rw [last]
    rfl
  obtain ⟨recovers, -⟩ := defects_bypass_handlers (fun _ => .plain ()) true selfRunner handled
    assembled_handled follows_selfProvider (.root 0) [] { user := (0 : Nat) } _ nofun nofun _ _
    rfl r first
  obtain ⟨ofDefects, -⟩ := recovers r.last [] _ _ _ (Nat.le_refl _) here
  exact ⟨r, first, _, _, _, here, ofDefects _ rfl, rfl⟩

end Runner

end ScopedEffects
