import ScopedEffects.Proofs.Effect.Shapes
import ScopedEffects.Proofs.Execution.Gather

/-! Shapes of what is under way. Every step of a typed execution is code on the values of one shape,
and what it waits for settles with values of that shape alone. No move changes that, whatever else
happens to the store, so that no step is ever handed a value that it cannot take. -/

namespace ScopedEffects

variable {H : Host} {U V : Value H → Prop}

/-- The step waits for values that have the property `U`, and settles with values that have the
property `V`. -/
def Frame.Typed (U V : Value H → Prop) : Frame H → Prop
  | .map code => ∃ a f, (code = fun v => Code.onValue a v .fail f) ∧ (∀ v, U v → v.HasShape a) ∧
      ∀ x, (f x).Gives (Next.Typed V (Node.Typed V))
  | .withService _ pair => ∃ a f, (pair = fun v => (v.take a).map f) ∧
      (∀ v, U v → v.HasShape a) ∧ ∀ x i, V (f x i)
  | .recover code => (∀ v, U v → V v) ∧ ∀ f, (code f).Gives fun o => ∀ n, o = some n → n.Typed V
  | .tap code => ∃ a b f, (code = fun v => Code.onTap a v f) ∧ (∀ v, U v → v.HasShape a) ∧
      (∀ v, U v → V v) ∧ ∀ x, (f x).Gives fun r => ∀ n, r = .ok n → n.Typed (Value.HasShape b)
  | .tapped v => V v
  | .tapError code => (∀ v, U v → V v) ∧ ∃ b, ∀ f, (code f).Gives (Node.Typed (Value.HasShape b))
  | .tapErrored _ => True
  | .ensuring code => (∀ v, U v → V v) ∧ ∃ b, code.Gives (Node.Typed (Value.HasShape b))
  | .ensured exit => Exit.Holds V exit
  | .timeout _ _ _ fallback => (∀ v, U v → V v) ∧ ∀ n, fallback = some n → n.Typed V
  | .draining _ fallback => ∀ n, fallback = some n → n.Typed V
  | .retry inner _ _ => (∀ v, U v → V v) ∧ inner.Typed V
  | .acquire inner _ _ => (∀ v, U v → v.HasShape (.shared .tracer)) ∧ inner.Typed V
  | .entered inner _ _ => inner.Typed V
  | .body _ _ => ∀ v, U v → V v

/-- Unless a branch has failed, each is to be admitted yet, or is under way, or has left its value. -/
def Crew.Complete (running : List Nat) : Crew H → Prop
  | .all _ _ pending values failure => failure = none → ∀ i < values.length,
      i ∈ pending.map Prod.fst ∨ i ∈ running ∨ ∃ v, values[i]? = some (some v)
  | _ => True

/-- The same for a combinator, with the branches `running`. -/
def Crew.Typed (running : List Nat) (U V : Value H → Prop) (c : Crew H) : Prop :=
  match c with
  | .all _ collect pending values _ => ∃ a, collect = Value.takeAll a ∧
      (∀ v, U v → v.HasShape a) ∧ (∀ p ∈ pending, p.2.Typed U) ∧
      (∀ v, some v ∈ values → v.HasShape a) ∧
      (∀ xs : List (a.El H), xs.length = values.length → V ⟨.list a, xs⟩) ∧
      c.Sound running ∧ c.Complete running
  | .any _ _ won => (∀ v, U v → V v) ∧ ∀ v, won = some v → V v
  | .race _ won => (∀ v, U v → V v) ∧ ∀ exit, won = some exit → Exit.Holds V exit

/-- What is under way settles with no value but those that have the property `V`. -/
inductive Execution.Typed : (Value H → Prop) → Execution H → Prop
  | enter {V n env} (hn : n.Typed V) : Typed V (.enter n env)
  | task {V guard t} (ht : t.Promises V) : Typed V (.task guard t)
  | pause {V till env n policy k} (hn : n.Typed V) : Typed V (.pause till env n policy k)
  | frame {U V env f above} (hf : f.Typed U V) (ha : Typed U above) : Typed V (.frame env f above)
  | crew {U V env round} {c : Crew H} {b : Branches H} (distinct : b.indices.Nodup)
      (hc : c.Typed b.indices U V) (hb : ∀ i e, b.find? i = some e → Typed U e) :
      Typed V (.crew env c round b)
  | settled {V exit} (h : Exit.Holds V exit) : Typed V (.settled exit)
  | unwound {V p} : Typed V (.unwound p)

/-- A tracer settles its span with no other value than that of the body. -/
def Tracing.Faithful (H : Host) [Tracing H] : Prop :=
  ∀ t name exit, (Tracing.after (H := H) t name exit).Promises fun v => exit = .ok v

namespace Execution

variable {s s' : Store H} {env : Env}

/-! Entering nodes -/

theorem typed_build {α : Type} {P : α → Prop} {code : Code H α} {next : α → Execution H}
    (h : code.Gives P) (hn : ∀ x, P x → (next x).Typed V) : (build s code next).1.Typed V := by
  unfold build
  split
  · rename_i x _ hp
    exact hn x (h s.now s.user x (Prod.mk.inj hp).1)
  · exact .settled trivial

theorem typed_source {x : Execution H × Store H} (h : x.1.Typed V) :
    (source env s x).1.Typed V := by
  unfold source
  split
  · exact .settled trivial
  · exact h

theorem typed_ofNodes {nodes : List (Node H)} (h : ∀ n ∈ nodes, n.Typed V) {k i : Nat}
    {e : Execution H} (found : (Branches.ofNodes env k nodes).find? i = some e) : e.Typed V := by
  obtain ⟨n, hn, rfl⟩ := Branches.find?_ofNodes found
  exact .enter (h n hn)

theorem typed_program {guard : Guard} {p : Program H} (h : p.Promises V) :
    (task guard (.run p)).Typed V := .task h

theorem typed_service {guard : Guard} {t : Token H} {wrap : Instance H t.kind → Value H}
    (h : ∀ i, V (wrap i)) : (task guard (.run (serviceProgram env t wrap))).Typed V := by
  refine typed_program fun r => ?_
  show Exit.Holds V ((r.bind t.view).map wrap)
  cases r.bind t.view with
  | ok i => exact h i
  | error => trivial

/-- To begin with, all branches are to be admitted yet. -/
theorem complete_unstarted (cap : Option Nat) (collect : List (Value H) → Exit H)
    (nodes : List (Node H)) : Crew.Complete []
      (.all cap collect (nodes.zipIdx.map Prod.swap) (nodes.map fun _ => none) none) := by
  intro _ i hi
  rw [List.length_map] at hi
  have listed : (nodes[i], i) ∈ nodes.zipIdx := List.mk_mem_zipIdx_iff_getElem?.2 (by simp [hi])
  exact .inl (List.mem_map.2 ⟨(i, nodes[i]), List.mem_map.2 ⟨_, listed, rfl⟩, rfl⟩)

theorem typed_start {n : Node H} (h : n.Typed V) : (start env s n).1.Typed V := by
  cases h with
  | sync h => exact typed_source (typed_build h fun _ => .settled)
  | program h => exact typed_source (typed_build h fun _ => typed_program)
  | cancellable h => exact typed_source (typed_build (h env.signal) fun _ => typed_program)
  | suspend h => exact typed_source (typed_build h fun _ => .enter)
  | service h => exact typed_source (typed_service h)
  | @all _ a cap nodes h lists =>
    refine typed_source (.crew (U := Value.HasShape a) List.nodup_nil ?_ nofun)
    refine ⟨a, rfl, fun _ => id, fun p hp => ?_, fun v hv => ?_, fun xs same => ?_,
      Crew.sound_unstarted cap _ nodes, complete_unstarted cap _ nodes⟩
    · obtain ⟨q, hq, rfl⟩ := List.mem_map.1 hp
      exact h _ (List.fst_mem_of_mem_zipIdx hq)
    · obtain ⟨-, -, hv⟩ := List.mem_map.1 hv
      cases hv
    · exact lists xs (same.trans (List.length_map _))
  | any h =>
    exact typed_source (.crew (Branches.nodup_ofNodes ..) ⟨fun _ => id, nofun⟩
      fun _ _ => typed_ofNodes h)
  | race h =>
    exact typed_source (.crew (Branches.nodup_ofNodes ..) ⟨fun _ => id, nofun⟩
      fun _ _ => typed_ofNodes h)
  | map inner f h effects =>
    exact .frame ⟨_, f, rfl, fun _ => id, fun x => Code.gives_next (h x) (effects x)⟩ (.enter inner)
  | withService inner f h => exact .frame ⟨_, f, rfl, fun _ => id, h⟩ (.enter inner)
  | recover inner h =>
    exact .frame ⟨fun _ => id, fun f now s o ho n hn => h f now s n (hn ▸ ho)⟩ (.enter inner)
  | tap inner keeps f h =>
    exact .frame ⟨_, _, f, rfl, fun _ => id, keeps, fun x now s r hr n hn => h x now s n (hn ▸ hr)⟩
      (.enter inner)
  | tapError inner h => exact .frame ⟨fun _ => id, _, h⟩ (.enter inner)
  | ensuring inner h => exact .frame ⟨fun _ => id, _, h⟩ (.enter inner)
  | timeout inner h => exact .frame ⟨fun _ => id, h⟩ (.enter inner)
  | retry inner => exact .frame ⟨fun _ => id, inner⟩ (.enter inner)
  | provide inner => exact .enter inner
  | span inner =>
    exact .frame (U := Value.HasShape _) ⟨fun _ => id, inner⟩ (typed_service fun _ => rfl)

/-! Going on with steps -/

theorem typed_next {n : Next H (Node H)} (h : n.Typed V (Node.Typed V)) :
    (n.execution env).Typed V := by
  cases n with
  | value v => exact .settled h
  | fail f => exact .settled trivial
  | program p => exact typed_program h
  | effect n => exact .enter h

theorem typed_concludeFinalizer {exit cleanup : Exit H} (h : Exit.Holds V exit) :
    (concludeFinalizer exit cleanup s).1.Typed V := by
  unfold concludeFinalizer
  split
  · exact .settled h
  · exact .settled trivial
  · exact .settled trivial

theorem typed_retryAfter {inner : Node H} {policy : RetryPolicy H} {attempt : Nat} {f : Failure H}
    (h : inner.Typed V) : (retryAfter env inner policy attempt f s).1.Typed V := by
  have goes := retries env inner policy attempt f s
  generalize retryAfter env inner policy attempt f s = x at goes ⊢
  cases goes with
  | exhausted | declines => exact .settled trivial
  | asking | drawing => exact .unwound
  | again => exact .frame ⟨fun _ => id, h⟩ (.enter h)
  | pauses => exact .pause h

theorem typed_after [Tracing H] (tracers : Tracing.Faithful H) (t : TracerChoice H) (name : String)
    (exit : Exit H) : (t.after name exit).Promises fun v => exit = .ok v := by
  cases t with
  | standard =>
    cases exit with
    | ok v => exact rfl
    | error f => trivial
  | custom t => exact tracers t name exit

theorem typed_resume [Tracing H] (tracers : Tracing.Faithful H) {f : Frame H} {exit : Exit H}
    (hf : f.Typed U V) (h : Exit.Holds U exit) : (f.resume env exit s).1.Typed V := by
  cases f with
  | map code =>
    obtain ⟨a, f, rfl, shapes, next⟩ := hf
    cases exit with
    | ok v =>
      obtain ⟨x, rfl⟩ := Value.hasShape_iff.1 (shapes v h)
      refine typed_build ?_ fun _ => typed_next
      dsimp only
      rw [Code.onValue_mk]
      exact next x
    | error => exact .settled trivial
  | withService t pair =>
    obtain ⟨a, f, rfl, shapes, values⟩ := hf
    cases exit with
    | ok v =>
      obtain ⟨x, rfl⟩ := Value.hasShape_iff.1 (shapes v h)
      simp only [Frame.resume, Value.take_mk, Except.map]
      exact typed_service (values x)
    | error => exact .settled trivial
  | recover code =>
    obtain ⟨values, effects⟩ := hf
    cases exit with
    | ok v => exact .settled (values v h)
    | error f =>
      unfold Frame.resume
      dsimp only
      split
      · exact .settled trivial
      · refine typed_build (effects f) fun o ho => ?_
        cases o with
        | some n => exact .enter (ho n rfl)
        | none => exact .settled trivial
  | tap code =>
    obtain ⟨a, b, f, rfl, shapes, values, effects⟩ := hf
    cases exit with
    | ok v =>
      obtain ⟨x, rfl⟩ := Value.hasShape_iff.1 (shapes v h)
      refine typed_build (P := fun r => ∀ n, r = .ok n → n.Typed (Value.HasShape b)) ?_
        fun r hr => ?_
      · dsimp only
        rw [Code.onTap_mk]
        exact effects x
      · cases r with
        | ok n => exact .frame (f := .tapped ⟨a, x⟩) (values _ h) (.enter (hr n rfl))
        | error => exact .settled trivial
    | error => exact .settled trivial
  | tapped v =>
    cases exit with
    | ok => exact .settled hf
    | error => exact .settled trivial
  | tapError code =>
    obtain ⟨values, b, effects⟩ := hf
    cases exit with
    | ok v => exact .settled (values v h)
    | error f =>
      exact typed_build (effects f) fun n hn => .frame (f := .tapErrored f) trivial (.enter hn)
  | tapErrored f => cases exit <;> exact .settled trivial
  | ensuring code =>
    obtain ⟨values, b, effects⟩ := hf
    have passes := h.mono values
    unfold Frame.resume
    dsimp only
    split
    · rename_i n s₁ performed
      have built : n.Typed (Value.HasShape b) := effects _ _ n (Prod.mk.inj performed).1
      exact .frame (f := .ensured exit) passes (.enter built)
    · exact typed_concludeFinalizer passes
  | ensured first => exact typed_concludeFinalizer hf
  | timeout => exact .settled (h.mono hf.1)
  | draining after fallback =>
    cases fallback with
    | none => exact .settled trivial
    | some n => exact .enter (hf n rfl)
  | retry inner policy attempt =>
    obtain ⟨values, typed⟩ := hf
    cases exit with
    | ok v => exact .settled (values v h)
    | error f => exact typed_retryAfter typed
  | acquire inner name attributes =>
    obtain ⟨shapes, typed⟩ := hf
    cases exit with
    | ok v =>
      obtain ⟨i, rfl⟩ := Value.hasShape_iff.1 (shapes v h)
      have taken : (Except.ok ⟨.shared .tracer, i⟩ : Exit H).bind (Value.take (.shared .tracer)) =
        .ok i := Value.take_mk (.shared .tracer) i
      simp only [Frame.resume, taken]
      exact .frame (U := fun _ => True) (f := .entered inner i.value name) typed
        (typed_program (Program.promises_true _))
    | error f => exact .settled trivial
  | entered inner tracer name =>
    cases exit with
    | ok => exact .frame (f := .body tracer name) (fun _ => id) (.enter hf)
    | error => exact .settled trivial
  | body tracer name =>
    refine typed_program ((typed_after tracers tracer name exit).mono fun v same => hf v ?_)
    rw [same] at h
    exact h

/-! Moves -/

variable {policy : Policy} {depth : Nat} {e e' : Execution H}

theorem typed_moveTask {guard : Guard} {t : Task H} (h : t.Promises V)
    (hm : moveTask policy depth s guard t = some (e', s')) : e'.Typed V := by
  cases moveTask_moves hm with
  | settles settled => exact .settled (h.outcome settled)
  | unwinds => exact .unwound
  | catches | aborts => exact .settled trivial
  | steps _ moved => exact .task (h.step moved)

/-! Combinators -/

variable {c rest : Crew H} {b : Branches H} {running : List Nat} {exit : Exit H}
  {i : Nat} {n : Node H}

theorem complete_absorb (h : c.Complete running) (i : Nat) (exit : Exit H) (s : Store H) :
    (c.absorb i exit s).1.Complete (running.erase i) := by
  cases c with
  | all cap collect pending values failure =>
    cases exit with
    | error f => exact fun unfailed => nomatch unfailed
    | ok v =>
      intro unfailed j hj
      rw [List.length_set] at hj
      by_cases same : j = i
      · subst same
        exact .inr (.inr ⟨v, List.getElem?_set_self hj⟩)
      · rw [List.getElem?_set_ne (Ne.symm same), List.mem_erase_of_ne same]
        exact h unfailed j hj
  | any child errors won => cases won <;> cases exit <;> trivial
  | race child won => cases won <;> trivial

theorem typed_absorb (h : c.Typed b.indices U V) (he : Exit.Holds U exit) :
    (c.absorb i exit s).1.Typed (b.erase i).indices U V := by
  cases c with
  | all cap collect pending values failure =>
    obtain ⟨a, rfl, shapes, nodes, shaped, lists, sound, complete⟩ := h
    have sound' := sound_absorb sound i exit s
    have complete' := complete_absorb complete i exit s
    rw [← Branches.indices_erase] at complete'
    cases exit with
    | error f => exact ⟨a, rfl, shapes, nodes, shaped, lists, sound', complete'⟩
    | ok v =>
      refine ⟨a, rfl, shapes, nodes, fun w hw => ?_, fun xs same => lists xs ?_, sound', complete'⟩
      · rcases List.mem_or_eq_of_mem_set hw with old | new
        · exact shaped w old
        · cases new
          exact shapes v he
      · rw [same, List.length_set]
  | any child errors won =>
    obtain ⟨values, hwon⟩ := h
    cases won with
    | some v => exact ⟨values, hwon⟩
    | none =>
      cases exit with
      | ok v => exact ⟨values, fun w hw => Option.some.inj hw ▸ values v he⟩
      | error f => exact ⟨values, nofun⟩
  | race child won =>
    obtain ⟨values, hwon⟩ := h
    cases won with
    | some won => exact ⟨values, hwon⟩
    | none => exact ⟨values, fun e he' => Option.some.inj he' ▸ he.mono values⟩

theorem typed_next? {k : Nat} (h : c.Typed b.indices U V)
    (hn : c.next? env k = some (i, n, rest)) :
    n.Typed U ∧ i ∉ b.indices ∧ rest.Typed (b.indices ++ [i]) U V := by
  obtain ⟨cap, collect, pending, values, rfl, rfl⟩ := Crew.next?_some hn
  obtain ⟨a, rfl, shapes, nodes, shaped, lists, sound, complete⟩ := h
  obtain ⟨new, sound'⟩ := sound_next? sound hn
  refine ⟨nodes (i, n) List.mem_cons_self, new, a, rfl, shapes,
    fun p hp => nodes p (List.mem_cons_of_mem _ hp), shaped, lists, sound', fun unfailed j hj => ?_⟩
  rcases complete unfailed j hj with waiting | under_way | left_value
  · rcases List.mem_cons.1 waiting with same | waiting
    · exact .inr (.inl (List.mem_append_right _ (List.mem_singleton.2 same)))
    · exact .inl waiting
  · exact .inr (.inl (List.mem_append_left _ under_way))
  · exact .inr (.inr left_value)

/-- When no branch is left and none has failed, every branch has left a value, all of one shape. -/
theorem values_of_complete {cap : Option Nat} {collect : List (Value H) → Exit H}
    {values : List (Option (Value H))} {a : Shape H.Plain}
    (complete : (Crew.all cap collect [] values none).Complete [])
    (shaped : ∀ v, some v ∈ values → v.HasShape a) :
    ∃ xs : List (a.El H), values = xs.map fun x => some ⟨a, x⟩ := by
  have typed : ∀ o ∈ values, ∃ x, some (⟨a, x⟩ : Value H) = o := by
    intro o ho
    obtain ⟨i, hi, here⟩ := List.mem_iff_getElem.1 ho
    rcases complete rfl i hi with waiting | under_way | ⟨v, left_value⟩
    · cases waiting
    · cases under_way
    · have same : o = some v := by
        rw [List.getElem?_eq_getElem hi, here] at left_value
        exact Option.some.inj left_value
      obtain ⟨x, rfl⟩ := Value.hasShape_iff.1 (shaped v (same ▸ ho))
      exact ⟨x, same.symm⟩
  have listed : values ∈ Set.range (List.map fun x : a.El H => some (⟨a, x⟩ : Value H)) := by
    rw [Set.range_list_map]
    exact typed
  obtain ⟨xs, same⟩ := listed
  exact ⟨xs, same.symm⟩

theorem holds_conclude (h : c.Typed [] U V) (none_left : c.next? env 0 = none) :
    Exit.Holds V (c.conclude env s) := by
  cases c with
  | all cap collect pending values failure =>
    obtain ⟨a, rfl, -, -, shaped, lists, -, complete⟩ := h
    cases failure with
    | some failed => trivial
    | none =>
      obtain rfl := Crew.pending_of_next? none_left
      obtain ⟨xs, rfl⟩ := values_of_complete complete shaped
      show Exit.Holds V (Value.takeAll a _)
      rw [Gathering.takeAll_values]
      exact lists xs (List.length_map _).symm
  | any child errors won =>
    cases won with
    | some v => exact h.2 v rfl
    | none =>
      unfold Crew.conclude
      dsimp only
      split <;> trivial
  | race child won =>
    cases won with
    | some exit => exact h.2 exit rfl
    | none => trivial

/-- What is typed goes on so with every move, on whatever store. -/
theorem Typed.move [Tracing H] (h : e.Typed V) (tracers : Tracing.Faithful H)
    (hm : e.move policy depth s = some (e', s')) : e'.Typed V := by
  -- a part that moves keeps its own property, so that what waits for it need not be looked at again
  induction h generalizing policy depth e' s' with
  | @enter V n env hn =>
    rw [Execution.move] at hm
    have entered : (start env s n).1.Typed V := typed_start hn
    rw [Option.some.inj hm] at entered
    exact entered
  | task ht =>
    rw [Execution.move] at hm
    exact typed_moveTask ht hm
  | pause hn =>
    rw [Execution.move] at hm
    split at hm
    · cases hm
      exact .settled trivial
    · split at hm
      · cases hm
        exact .frame ⟨fun _ => id, hn⟩ (.enter hn)
      · cases hm
  | frame hf ha ih =>
    cases move_frame hm with
    | resumes settled =>
      subst settled
      cases ha with
      | settled h => exact typed_resume tracers hf h
    | passes => exact .unwound
    | moves _ moved => exact .frame hf (ih moved)
    | expires _ timeout =>
      subst timeout
      exact .frame hf.2 ha
  | @crew U V env round c b distinct hc hb ih =>
    cases move_crew distinct hm with
    | keeps hk =>
      cases hk with
      | panics => exact .settled trivial
      | @absorbs i exit line settled =>
        have absorbed := hb i _ settled
        cases absorbed with
        | settled h =>
          exact .crew (Branches.nodup_erase distinct i) (typed_absorb hc h) fun j y hj =>
            hb j y (Branches.find?_of_erase distinct hj).2
      | @admits i n rest line next =>
        obtain ⟨hn, new, rest⟩ := typed_next? hc next
        rw [← Branches.indices_push b i (.enter n env)] at rest
        refine .crew (Branches.nodup_push distinct new _) rest fun j y hj => ?_
        rcases Branches.find?_of_push new hj with rfl | old
        · exact .enter hn
        · exact hb j y old
      | concludes next none_left =>
        rw [none_left] at hc
        exact .settled (holds_conclude hc next)
    | @moves i f f' b' line policy' depth' s₁ idle same others found found' moved =>
      refine .crew (same ▸ distinct) (same ▸ hc) fun j y hj => ?_
      by_cases here : j = i
      · rw [here, found'] at hj
        cases hj
        exact ih i f found moved
      · rw [others j here] at hj
        exact hb j y hj
  | settled => rw [Execution.move] at hm; cases hm
  | unwound => rw [Execution.move] at hm; cases hm

end Execution

end ScopedEffects
