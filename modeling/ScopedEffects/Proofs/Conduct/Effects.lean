import ScopedEffects.Proofs.Conduct.Stores
import ScopedEffects.Proofs.Execution.Branches

/-! Rules for effects. An effect keeps to the rules when its closures do, for all values and
failures that may reach them, and so do all effects that these closures build. What is under way of
such an effect settles as the rules allow, or with an abort, and with an abort only where the signal
that it runs under has fired. -/

namespace ScopedEffects

variable {H : Host} {R : Rules H} {b : Nat} {s s' : Store H}

namespace Rules

/-- How something may settle under a signal, as the signal has fired or not. -/
def Permits (R : Rules H) (V : Value H → Prop) (fired : Bool) : Exit H → Prop
  | .ok v => V v
  | .error f => R.failure f ∨ fired = true ∧ ∃ reason, f = .abort reason

/-- What code may see of failures that it does not recover from. -/
def Seen (R : Rules H) (f : Failure H) : Prop := R.failure f ∨ ∃ reason, f = .abort reason

/-- There may be failures to recover from. -/
def Recoverable (R : Rules H) : Prop := ∃ f, R.failure f ∧ f.isDefect = false

/-- Under such rules an abort is a failure like others. -/
def Abortive (R : Rules H) : Prop := ∀ reason, R.failure (.abort reason)

section Permits

variable {U V : Value H → Prop} {fired fired' : Bool} {e : Exit H}

theorem Settles.permits (h : R.Settles V e) : R.Permits V fired e := by
  cases e with
  | ok => exact h
  | error => exact .inl h

theorem permits_aborted (V : Value H → Prop) (hf : fired = true) :
    R.Permits V fired (.error .aborted) := .inr ⟨hf, _, rfl⟩

theorem Permits.seen {f : Failure H} (h : R.Permits V fired (.error f)) : R.Seen f :=
  h.imp_right And.right

theorem Permits.failure {f : Failure H} (h : R.Permits V fired (.error f))
    (hf : f.isDefect = false) : R.failure f := by
  rcases h with h | ⟨-, reason, rfl⟩
  · exact h
  · cases hf

/-- What settles with an abort under one signal may do so under another one that has fired too. -/
theorem Permits.lift (h : R.Permits U fired e) (up : R.Abortive ∨ (fired = true → fired' = true))
    (hV : ∀ v, U v → V v) : R.Permits V fired' e := by
  cases e with
  | ok v => exact hV v h
  | error f =>
    rcases h with h | ⟨hf, reason, rfl⟩
    · exact .inl h
    · rcases up with abortive | up
      · exact .inl (abortive reason)
      · exact .inr ⟨up hf, reason, rfl⟩

theorem Permits.later {g : Signal} (h : R.Permits V (s.isFired g) e) (fired : s.fired ⊆ s'.fired) :
    R.Permits V (s'.isFired g) e :=
  h.lift (.inr (Store.isFired_of_subset fired)) fun _ => id

end Permits

end Rules

/-! Closures -/

/-- `P` says which effects to go on with. -/
def Next.Follows (R : Rules H) (V : Value H → Prop) (P : Node H → Prop) : Next H (Node H) → Prop
  | .value v => V v
  | .fail f => R.failure f
  | .program p => p.Follows R Scope.None (R.Settles V)
  | .effect n => P n

structure RetryPolicy.Follows (R : Rules H) (p : RetryPolicy H) : Prop where
  asks : ∀ f, R.failure f → f.isDefect = false → (p.accepts f).Follows R fun _ => True
  delays : ∀ f, R.failure f → f.isDefect = false → ∀ attempt draw q,
    p.nextDelay attempt draw = .error q → R.Panics q

/-- A tracer settles its span with the exit of the body, or with a failure of its own. -/
def TracerChoice.Closes [Tracing H] (R : Rules H) (name : String) (t : TracerChoice H) : Prop :=
  ∀ e, (t.after name e).Follows R Scope.None fun x => x = e ∨ ∃ f, x = .error f ∧ R.failure f

structure TracerChoice.Follows [Tracing H] (R : Rules H) (name : String)
    (attributes : List (String × String)) (t : TracerChoice H) : Prop where
  before : (t.before name attributes).Follows R Scope.None (R.Settles fun _ => True)
  after : t.Closes R name

theorem Code.Follows.imp {α : Type} {P Q : α → Prop} {c : Code H α} (h : c.Follows R P)
    (hPQ : ∀ now x a, R.state x → (c now x).answer = .ok a → P a → Q a) : c.Follows R Q := by
  intro now x hx
  obtain ⟨state, fired, answer⟩ := h now x hx
  refine ⟨state, fired, ?_⟩
  split
  · rename_i a ha
    rw [ha] at answer
    exact hPQ now x a hx ha answer
  · rename_i p hp
    rwa [hp] at answer

/-! Nodes -/

/-- The node keeps to the rules, and when it succeeds, then with a value that satisfies `V`. -/
inductive Node.Follows [Tracing H] (R : Rules H) : (Value H → Prop) → Node H → Prop
  | sync {V code} (h : Code.Follows R (R.Settles V) code) : Follows R V (.sync code)
  | program {V code} (h : Code.Follows R (Program.Follows R Scope.None (R.Settles V)) code) :
      Follows R V (.program code)
  | cancellable {V code}
      (h : ∀ g, Code.Follows R (Program.Follows R Scope.None (R.Settles V)) (code g)) :
      Follows R V (.cancellable code)
  | suspend {V code} (h : Code.Follows R (fun _ => True) code)
      (effects : ∀ now x n, R.state x → (code now x).answer = .ok n → Follows R V n) :
      Follows R V (.suspend code)
  | service {V} {t : Token H}
      (h : ∀ i, R.made t.key i → R.Settles V ((t.view i).map fun j => ⟨.shared t.kind, j⟩)) :
      Follows R V (.service t)
  | all {U V cap collect nodes} (h : ∀ n ∈ nodes, Follows R U n)
      (collects : ∀ vs, (∀ v ∈ vs, U v) → R.Settles V (collect vs)) :
      Follows R V (.all cap collect nodes)
  | any {V nodes} (h : ∀ n ∈ nodes, Follows R V n)
      (gathers : ∀ es, (∀ f ∈ es, R.failure f) → R.failure (.aggregate es)) :
      Follows R V (.any nodes)
  | race {V nodes} (h : ∀ n ∈ nodes, Follows R V n)
      (none : nodes = [] → R.failure (.ofMessage "race over no effects")) :
      Follows R V (.race nodes)
  | map {U V u code} (inner : Follows R U u)
      (h : ∀ v, U v → Code.Follows R (Next.Follows R V fun _ => True) (code v))
      (effects : ∀ v now x n, U v → R.state x → (code v now x).answer = .ok (.effect n) →
        Follows R V n) : Follows R V (.map u code)
  | withService {U V u} {t : Token H}
      {pair : Value H → Except (Failure H) (Instance H t.kind → Value H)} (inner : Follows R U u)
      (fails : ∀ v f, U v → pair v = .error f → R.failure f)
      (h : ∀ v wrap i, U v → pair v = .ok wrap → R.made t.key i →
        R.Settles V ((t.view i).map wrap)) : Follows R V (.withService u t pair)
  | recover {V u code} (inner : Follows R V u)
      (h : ∀ f, R.failure f → f.isDefect = false → Code.Follows R (fun _ => True) (code f))
      (effects : ∀ f now x n, R.failure f → f.isDefect = false → R.state x →
        (code f now x).answer = .ok (some n) → Follows R V n) : Follows R V (.recover u code)
  | tap {V u code} (inner : Follows R V u)
      (h : ∀ v, V v → Code.Follows R (fun a => ∀ f, a = .error f → R.failure f) (code v))
      (effects : ∀ v now x n, V v → R.state x → (code v now x).answer = .ok (.ok n) →
        Follows R (fun _ => True) n) : Follows R V (.tap u code)
  | tapError {V u code} (inner : Follows R V u)
      (h : ∀ f, R.Seen f → Code.Follows R (fun _ => True) (code f))
      (effects : ∀ f now x n, R.Seen f → R.state x → (code f now x).answer = .ok n →
        Follows R (fun _ => True) n) : Follows R V (.tapError u code)
  | ensuring {V u code} (inner : Follows R V u) (h : Code.Follows R (fun _ => True) code)
      (effects : ∀ now x n, R.state x → (code now x).answer = .ok n →
        Follows R (fun _ => True) n) : Follows R V (.ensuring u code)
  | timeout {V u after fallback} (inner : Follows R V u)
      (fails : fallback = none → R.failure (.timeout after))
      (falls : ∀ n, fallback = some n → Follows R V n) : Follows R V (.timeout u after fallback)
  | retry {V u policy} (inner : Follows R V u) (h : RetryPolicy.Follows R policy) :
      Follows R V (.retry u policy)
  | provide {V u p} (inner : Follows R V u) (h : Provider.Follows R p) :
      Follows R V (.provide u p)
  | span {V u name attributes} (inner : Follows R V u)
      (fails : ∀ i f, R.made (Token.tracer H).key i → (Token.tracer H).view i = .error f →
        R.failure f)
      (h : ∀ i j, R.made (Token.tracer H).key i → (Token.tracer H).view i = .ok j →
        j.value.Follows R name attributes) : Follows R V (.span u name attributes)

variable [Tracing H]

/-! Executions -/

/-- How a timeout settles when its time is over. -/
def Fallback.Follows (R : Rules H) (V : Value H → Prop) (after : Duration) :
    Option (Node H) → Prop
  | none => R.failure (.timeout after)
  | some n => n.Follows R V

/-- A step under the signal `g` that may settle as `V` says. What it waits for runs under the signal
`c`, and may settle as `U` says. -/
def Frame.Follows (R : Rules H) (s : Store H) (V : Value H → Prop) (g : Signal) (env : Env)
    (U : Value H → Prop) (c : Signal) : Frame H → Prop
  | .map code => env.signal = g ∧ c = g ∧
      ∀ v, U v → (code v).Follows R (Next.Follows R V (Node.Follows R V))
  | .withService t pair => env.signal = g ∧ c = g ∧ ∀ v, U v → match pair v with
      | .ok wrap => ∀ i, R.made t.key i → R.Settles V ((t.view i).map wrap)
      | .error f => R.failure f
  | .recover code => env.signal = g ∧ c = g ∧ (∀ v, U v → V v) ∧
      ∀ f, R.failure f → f.isDefect = false →
        (code f).Follows R fun o => ∀ n, o = some n → n.Follows R V
  | .tap code => env.signal = g ∧ c = g ∧ (∀ v, U v → V v) ∧
      ∀ v, V v → (code v).Follows R fun a => match a with
        | .ok n => n.Follows R fun _ => True
        | .error f => R.failure f
  | .tapped v => env.signal = g ∧ c = g ∧ V v
  | .tapError code => env.signal = g ∧ c = g ∧ (∀ v, U v → V v) ∧
      ∀ f, R.Seen f → (code f).Follows R fun n => n.Follows R fun _ => True
  | .tapErrored f => env.signal = g ∧ c = g ∧ R.Permits V (s.isFired g) (.error f)
  | .ensuring code => env.signal = g ∧ c = g ∧ (∀ v, U v → V v) ∧
      code.Follows R fun n => n.Follows R fun _ => True
  | .ensured exit => c = env.signal ∧ (∃ n, c = .root n) ∧ R.Permits V (s.isFired g) exit
  | .timeout _ after child fallback => env.signal = g ∧ c = child ∧ (∃ n, child = g.child n) ∧
      (∀ v, U v → V v) ∧ Fallback.Follows R V after fallback
  | .draining after fallback => env.signal = g ∧ (∃ n, c = g.child n) ∧ s.isFired c = true ∧
      Fallback.Follows R V after fallback
  | .retry inner policy attempt => env.signal = g ∧ c = g ∧ (∀ v, U v → V v) ∧
      inner.Follows R V ∧ policy.Follows R ∧ (attempt ≠ 0 → R.Recoverable)
  | .acquire inner name attributes => env.signal = g ∧ c = g ∧ inner.Follows R V ∧
      ∀ v, U v → ∃ i : Instance H .tracer, v = ⟨.shared .tracer, i⟩ ∧
        i.value.Follows R name attributes
  | .entered inner tracer name => env.signal = g ∧ c = g ∧ inner.Follows R V ∧ tracer.Closes R name
  | .body tracer name => env.signal = g ∧ c = g ∧ (∀ v, U v → V v) ∧ tracer.Closes R name

/-- The same for a combinator, whose branches run under the signal `c`. -/
def Crew.Follows (R : Rules H) (s : Store H) (V : Value H → Prop) (g : Signal) (running : List Nat)
    (U : Value H → Prop) (c : Signal) : Crew H → Prop
  | .all cap collect pending values failure => c = g ∧
      Crew.Sound running (.all cap collect pending values failure) ∧
      (∀ p ∈ pending, p.2.Follows R U) ∧
      (∀ vs, (∀ v ∈ vs, U v) → R.Settles V (collect vs)) ∧ (∀ v, some v ∈ values → U v) ∧
      ∀ i f, failure = some (i, f) → R.Permits V (s.isFired g) (.error f)
  | .any child errors won => c = child ∧ (∃ n, child = g.child n) ∧ (∀ v, U v → V v) ∧
      (∀ es, (∀ f ∈ es, R.failure f) → R.failure (.aggregate es)) ∧
      (∀ f, some f ∈ errors → R.Permits V (s.isFired g) (.error f)) ∧
      ∀ v, won = some v → V v ∧ s.isFired child = true
  | .race child won => c = child ∧ (∃ n, child = g.child n) ∧ (∀ v, U v → V v) ∧
      (won = none → running = [] → R.failure (.ofMessage "race over no effects")) ∧
      ∀ e, won = some e → R.Permits V (s.isFired g) e ∧ s.isFired child = true

/-- What is under way keeps to the rules. It runs under the signal `g`, in contexts over the base
`b`, and may settle as `V` says. -/
inductive Execution.Follows (R : Rules H) (b : Nat) (s : Store H) :
    (Value H → Prop) → Signal → Execution H → Prop
  | enter {V g n env} (own : env.signal = g) (hn : n.Follows R V) (opens : s.Opens b env.scope) :
      Follows R b s V g (.enter n env)
  | task {V g guard t} (own : ∀ h, guard = .signal h → h = g)
      (ht : t.Follows R b (s.Opens b) (R.Permits V (s.isFired g))) :
      Follows R b s V g (.task guard t)
  | pause {V g till env n policy k} (own : env.signal = g) (hn : n.Follows R V)
      (hp : policy.Follows R) (again : R.Recoverable) (opens : s.Opens b env.scope) :
      Follows R b s V g (.pause till env n policy k)
  | frame {U V g c env f above} (hf : f.Follows R s V g env U c) (opens : s.Opens b env.scope)
      (ha : Follows R b s U c above) : Follows R b s V g (.frame env f above)
  | crew {U V g c env round} {crew : Crew H} {br : Branches H} (own : env.signal = g)
      (distinct : br.indices.Nodup) (hc : crew.Follows R s V g br.indices U c)
      (opens : s.Opens b env.scope) (hb : ∀ i e, br.find? i = some e → Follows R b s U c e) :
      Follows R b s V g (.crew env crew round br)
  | settled {V g exit} (h : R.Permits V (s.isFired g) exit) : Follows R b s V g (.settled exit)
  | unwound {V g p} (h : R.Panics p) : Follows R b s V g (.unwound p)

/-! What has been true stays so as stores go on -/

section Later

variable {U V : Value H → Prop} {g c : Signal} {env : Env}

theorem Frame.Follows.later {f : Frame H} (h : f.Follows R s V g env U c)
    (fired : s.fired ⊆ s'.fired) : f.Follows R s' V g env U c := by
  cases f with
  | tapErrored => exact ⟨h.1, h.2.1, h.2.2.later fired⟩
  | ensured => exact ⟨h.1, h.2.1, h.2.2.later fired⟩
  | draining =>
    obtain ⟨own, child, lapsed, fallback⟩ := h
    exact ⟨own, child, Store.isFired_of_subset fired lapsed, fallback⟩
  | _ => exact h

theorem Crew.Follows.later {running : List Nat} {crew : Crew H}
    (h : crew.Follows R s V g running U c) (fired : s.fired ⊆ s'.fired) :
    crew.Follows R s' V g running U c := by
  cases crew with
  | all =>
    obtain ⟨same, sound, pending, collects, values, failure⟩ := h
    exact ⟨same, sound, pending, collects, values, fun i f hf => (failure i f hf).later fired⟩
  | any =>
    obtain ⟨same, child, values, gathers, errors, won⟩ := h
    refine ⟨same, child, values, gathers, fun f hf => (errors f hf).later fired, fun v hv => ?_⟩
    exact ⟨(won v hv).1, Store.isFired_of_subset fired (won v hv).2⟩
  | race =>
    obtain ⟨same, child, values, none, won⟩ := h
    refine ⟨same, child, values, none, fun e he => ?_⟩
    exact ⟨(won e he).1.later fired, Store.isFired_of_subset fired (won e he).2⟩

theorem Execution.Follows.later {e : Execution H} (h : e.Follows R b s V g) (keeps : s.Keeps s')
    (fired : s.fired ⊆ s'.fired) : e.Follows R b s' V g := by
  induction h with
  | enter own hn opens => exact .enter own hn (opens.kept keeps)
  | task own ht =>
    exact .task own (ht.mono (fun _ hc => hc.kept keeps) fun _ he => he.later fired)
  | pause own hn hp again opens => exact .pause own hn hp again (opens.kept keeps)
  | frame hf opens _ ih => exact .frame (hf.later fired) (opens.kept keeps) ih
  | crew own distinct hc opens _ ih =>
    exact .crew own distinct (hc.later fired) (opens.kept keeps) ih
  | settled h => exact .settled (h.later fired)
  | unwound h => exact .unwound h

end Later

end ScopedEffects
