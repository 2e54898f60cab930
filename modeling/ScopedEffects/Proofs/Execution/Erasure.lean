import ScopedEffects.Proofs.Execution.Shapes

/-! Erased shapes never clash. Values travel through a run without their shapes, and each step takes
them back at the shape that it expects. In the runs of an effect that is built with the operations,
under tracers that keep to the values of their spans, every step is handed a value of just that
shape. -/

namespace ScopedEffects

variable {H : Host} {V : Value H → Prop}

/-- A step that takes values back expects the shape of this one: what the value holds goes to user
code, into a pair, or to a span that waits for its tracer. -/
def Frame.Fits (v : Value H) : Frame H → Prop
  | .map code => ∃ f, (code = fun w => Code.onValue v.1 w .fail f) ∧ code v = f v.2
  | .withService _ pair => ∃ f, (pair = fun w => (w.take v.1).map f) ∧ pair v = .ok (f v.2)
  | .tap code => ∃ f, (code = fun w => Code.onTap v.1 w f) ∧ code v = f v.2
  | .acquire .. => v.HasShape (.shared .tracer)
  | _ => True

/-- What is at hand fits: a step that goes on takes the value that it is handed, and a combinator that
collects holds values of the shape of its list, one for each branch when all have succeeded. -/
def Execution.Fits : Execution H → Prop
  | .frame _ f (.settled (.ok v)) => f.Fits v
  | .crew _ (.all _ collect pending values failure) _ b => ∃ a, collect = Value.takeAll a ∧
      (∀ v, some v ∈ values → v.HasShape a) ∧
      (failure = none → pending = [] → b.isEmpty = true →
        ∃ xs : List (a.El H), values = xs.map fun x => some ⟨a, x⟩)
  | _ => True

theorem Frame.Typed.fits {U : Value H → Prop} {f : Frame H} (h : f.Typed U V) {v : Value H}
    (hv : U v) : f.Fits v := by
  cases f with
  | map code =>
    obtain ⟨a, f, rfl, shapes, -⟩ := h
    obtain rfl : v.1 = a := shapes v hv
    exact ⟨f, rfl, Code.onValue_mk v.2 _ f⟩
  | withService t pair =>
    obtain ⟨a, f, rfl, shapes, -⟩ := h
    obtain rfl : v.1 = a := shapes v hv
    exact ⟨f, rfl, congrArg (Except.map f) (Value.take_mk v.1 v.2)⟩
  | tap code =>
    obtain ⟨a, b, f, rfl, shapes, -⟩ := h
    obtain rfl : v.1 = a := shapes v hv
    exact ⟨f, rfl, Code.onTap_mk v.2 f⟩
  | acquire => exact h.1 v hv
  | _ => trivial

namespace Execution

variable {e x : Execution H}

theorem Typed.fits (h : e.Typed V) : e.Fits := by
  cases h with
  | @frame U _ _ f above hf ha =>
    cases ha with
    | @settled _ exit h =>
      cases exit with
      | ok v => exact hf.fits h
      | error => trivial
    | _ => trivial
  | @crew U _ env round c b distinct hc hb =>
    cases c with
    | all cap collect pending values failure =>
      obtain ⟨a, takes, -, -, shaped, -, -, complete⟩ := hc
      refine ⟨a, takes, shaped, fun unfailed admitted empty => ?_⟩
      subst unfailed admitted
      rw [Branches.isEmpty_iff.1 empty] at complete
      exact values_of_complete complete shaped
    | _ => trivial
  | _ => trivial

theorem Typed.holds {exit : Exit H} (h : (Execution.settled exit).Typed V) : Exit.Holds V exit := by
  cases h with
  | settled h => exact h

theorem Typed.part? {hop : Hop} (h : e.Typed V) (hx : e.part? hop = some x) :
    ∃ U, x.Typed U := by
  cases h with
  | frame _ ha =>
    cases hop with
    | above =>
      cases hx
      exact ⟨_, ha⟩
    | branch => cases hx
  | crew _ _ hb =>
    cases hop with
    | above => cases hx
    | branch i => exact ⟨_, hb i x hx⟩
  | _ => cases hop <;> cases hx

theorem Typed.at? {α : List Hop} (h : e.Typed V) (hx : e.at? α = some x) : ∃ U, x.Typed U :=
  at?_of_part? (P := fun x => ∃ U, x.Typed U) (fun ⟨_, typed⟩ => typed.part?) ⟨V, h⟩ hx

end Execution

variable [Tracing H]

theorem Course.typed {c : Course H} (tracers : Tracing.Faithful H) (h : (c.state 0).Typed V)
    (t : Nat) : (c.state t).Typed V := by
  induction t with
  | zero => exact h
  | succ t ih =>
    rcases c.step t with ⟨policy, depth, moved⟩ | same
    · exact ih.move tracers moved
    · rw [same]
      exact ih

/-- What an effect that collects delivers is one value for each of its branches. -/
theorem Course.delivers_gathered {b : Shape H.Plain} {es : List (Effect H b)} {cap : Option Nat}
    {env : Env} {c : Course H} (tracers : Tracing.Faithful H) (effects : ∀ g ∈ es, g.Constructed)
    (begins : c.state 0 = .enter (Effect.gather cap es).node env) {t : Nat} {v : Value H}
    (settled : c.state t = .settled (.ok v)) :
    ∃ xs : List (b.El H), v = ⟨.list b, xs⟩ ∧ xs.length = es.length := by
  -- the property that is carried along counts the elements, which the shape alone does not
  have lists : (c.state 0).Typed fun v => ∃ xs : List (b.El H),
      v = ⟨.list b, xs⟩ ∧ xs.length = es.length := by
    rw [begins]
    exact .enter (Effect.typed_gather (fun g hg => (effects g hg).typed) fun xs same =>
      ⟨xs, rfl, same⟩)
  have typed := Course.typed tracers lists t
  rw [settled] at typed
  exact typed.holds

theorem Story.typed {r : Story H} (tracers : Tracing.Faithful H)
    (h : (r.state 0).execution.Typed V) {t : Nat} (ht : t ≤ r.last) :
    (r.state t).execution.Typed V := by
  induction t with
  | zero => exact h
  | succ t ih =>
    have before := ih (Nat.le_of_succ_le ht)
    rcases (r.step t ht).moves_or_waits with ⟨policy, moved⟩ | ⟨same, -⟩
    · exact before.move tracers moved
    · rw [same]
      exact before

namespace Runner

variable {a : Shape H.Plain} {runner : Runner H} {e : Effect H a} {signal : Signal}
  {alarms : List Alarm} {s s' s₁ : Store H} {scope : Scope} {x : Execution H}

omit [Tracing H] in
theorem typed_launch (constructed : e.Constructed)
    (launched : runner.launch e signal s = (.ok x, scope, s')) : x.Typed (Value.HasShape a) := by
  unfold launch at launched
  dsimp only at launched
  split at launched
  · cases launched
    refine .enter ?_
    unfold withDeadline
    split
    · exact (constructed.timeout _).typed
    · exact constructed.typed
  · cases launched

theorem typed_story (constructed : e.Constructed) (tracers : Tracing.Faithful H)
    (launched : runner.launch e signal s = (.ok x, scope, s')) {r : Story H}
    (first : r.state 0 = Machine.ring ⟨s', x, alarms⟩) {t : Nat} (ht : t ≤ r.last) :
    (r.state t).execution.Typed (Value.HasShape a) := by
  refine Story.typed tracers ?_ ht
  rw [first]
  exact typed_launch constructed launched

omit [Tracing H] in
/-- An exit holds what the effect delivers, and nothing is lost when that is taken back. -/
theorem result_of_holds {exit : Exit H} (h : Exit.Holds (Value.HasShape a) exit) :
    ∃ result : Except (Failure H) (a.El H),
      exit = result.map (⟨a, ·⟩) ∧ exit.bind (Value.take a) = result := by
  cases exit with
  | ok v =>
    obtain ⟨x, rfl⟩ := Value.hasShape_iff.1 h
    exact ⟨.ok x, rfl, Value.take_mk a x⟩
  | error f => exact ⟨.error f, rfl, rfl⟩

/-- A run that returns was refused, or its execution has settled with what it returns. -/
theorem run_returns (constructed : e.Constructed) (tracers : Tracing.Faithful H) {schedule : Schedule}
    {horizon : Clock} {fuel : Nat} {result : Except (Failure H) (a.El H)}
    (returns : runner.run schedule horizon fuel e signal alarms s = (some (.ok result), s₁)) :
    (∃ f, (runner.launch e signal s).1 = .error f ∧ result = .error f) ∨
      ∃ x scope s', runner.launch e signal s = (.ok x, scope, s') ∧
        ∃ r : Story H, r.state 0 = Machine.ring ⟨s', x, alarms⟩ ∧
          (r.state r.last).execution = .settled (result.map (⟨a, ·⟩)) := by
  unfold run at returns
  rcases launched : runner.launch e signal s with ⟨f | x, scope, s'⟩
  · rw [launched] at returns
    cases returns
    exact .inl ⟨f, rfl, rfl⟩
  · rcases ran : Machine.run schedule horizon fuel (Machine.ring ⟨s', x, alarms⟩) with ⟨ending, m⟩
    obtain ⟨r, first, last⟩ := Story.exists_of_run ran
    have typed := typed_story constructed tracers launched first (Nat.le_refl _)
    rw [last] at typed
    rw [launched] at returns
    dsimp only at returns
    rw [ran] at returns
    dsimp only at returns
    split at returns
    · rename_i exit settled
      rw [settled] at typed
      obtain ⟨delivered, same, taken⟩ := result_of_holds typed.holds
      rw [taken] at returns
      cases returns
      exact .inr ⟨x, scope, s', rfl, r, first, by rw [last, settled, same]⟩
    · cases returns
    · cases returns

/-- In the runs of an effect that is built with the operations, under whatever schedule, no step fails
for the shape of what it is handed: every step takes it at the shape that it has, and the exit of the
run holds a value of the effect's own shape, which is what the run returns. -/
theorem values_fit_their_steps (runner : Runner H) (e : Effect H a) (constructed : e.Constructed)
    (tracers : Tracing.Faithful H) (signal : Signal) (alarms : List Alarm) (s : Store H) :
    (∀ x scope s', runner.launch e signal s = (.ok x, scope, s') →
      ∀ r : Story H, r.state 0 = Machine.ring ⟨s', x, alarms⟩ → ∀ t, t ≤ r.last →
        (∀ α y, r.part? α t = some y → y.Fits) ∧
        ∀ exit, (r.state t).execution = .settled exit →
          ∃ result : Except (Failure H) (a.El H),
            exit = result.map (⟨a, ·⟩) ∧ exit.bind (Value.take a) = result) ∧
    (∀ schedule horizon fuel result s₁,
      runner.run schedule horizon fuel e signal alarms s = (some (.ok result), s₁) →
        (∃ f, (runner.launch e signal s).1 = .error f ∧ result = .error f) ∨
        ∃ x scope s', runner.launch e signal s = (.ok x, scope, s') ∧
          ∃ r : Story H, r.state 0 = Machine.ring ⟨s', x, alarms⟩ ∧
            (r.state r.last).execution = .settled (result.map (⟨a, ·⟩))) ∧
    ∀ (b : Shape H.Plain) (es : List (Effect H b)) (cap : Option Nat) (env : Env) (c : Course H),
      (∀ g ∈ es, g.Constructed) → c.state 0 = .enter (Effect.gather cap es).node env →
        ∀ t v, c.state t = .settled (.ok v) →
          ∃ xs : List (b.El H), v = ⟨.list b, xs⟩ ∧ xs.length = es.length := by
  refine ⟨fun x scope s' launched r first t ht => ?_, ?_, ?_⟩
  · have typed := typed_story constructed tracers launched first ht
    refine ⟨fun α y hy => ?_, fun exit settled => ?_⟩
    · obtain ⟨U, part⟩ := typed.at? hy
      exact part.fits
    · rw [settled] at typed
      exact result_of_holds typed.holds
  · exact fun schedule horizon fuel result s₁ => run_returns constructed tracers
  · exact fun b es cap env c effects begins t v => Course.delivers_gathered tracers effects begins

/-! A tracer that refuses spans -/

/-- A host like the counting one, whose tracers fail the spans of one name. -/
def vetoing : Host where
  Plain := Unit
  decPlain := inferInstance
  El _ := Nat
  State := Nat
  Tracer := String
  shapeName _ := "u64"
  kindName _ := "u64"

instance : Tracing vetoing where
  before _ _ _ := .done (.ok ⟨.unit, ()⟩)
  after (refused : String) name exit :=
    .done (if name = refused then .error (.ofMessage "vetoed") else exit)

theorem faithful_vetoing : Tracing.Faithful vetoing := by
  intro (refused : String) name exit
  show Exit.Holds _ (if name = refused then _ else exit)
  split
  · trivial
  · cases exit with
    | ok v => exact rfl
    | error => trivial

def vetoingRunner : Runner vetoing :=
  { provider := ⟨1, OrderedMap.empty.set (Token.tracer vetoing).key
      (.constant ⟨.tracer, ⟨.constant 0, .custom "refused"⟩⟩)⟩ }

def one : Effect vetoing (.plain ()) := .succeed (1 : Nat)

/-- A number that is mapped, beside one in a span. -/
def besideSpan : Effect vetoing (.list (.plain ())) :=
  .all [one.map fun n => Code.pure (Nat.succ n), one.span "kept" []]

theorem constructed_besideSpan : besideSpan.Constructed := by
  have first : one.Constructed := .succeed _
  refine .all fun e he => ?_
  rcases List.mem_cons.1 he with rfl | he
  · exact first.map _
  · exact List.mem_singleton.1 he ▸ first.span "kept" []

theorem besideSpan_fits : ∃ r : Story vetoing,
    (r.state r.last).execution = .settled (.ok ⟨.list (.plain ()), [(2 : Nat), (1 : Nat)]⟩) ∧
    ∀ t, t ≤ r.last → ∀ α y, r.part? α t = some y → y.Fits := by
  obtain ⟨fits, returns, -⟩ := values_fit_their_steps vetoingRunner besideSpan
    constructed_besideSpan faithful_vetoing (.root 0) [] { user := (0 : Nat) }
  rcases returns .standard 0 40 (.ok [(2 : Nat), (1 : Nat)]) _ rfl with
    ⟨f, -, no⟩ | ⟨x, scope, s', launched, r, first, last⟩
  · cases no
  · exact ⟨r, last, fun t ht => (fits x scope s' launched r first t ht).1⟩

end Runner

end ScopedEffects
