import ScopedEffects.Proofs.Execution.Sound
import ScopedEffects.Proofs.Traffic.Polls

/-! Signals. Tasks take no numbers from the supply, and executions only take the next one: a number
that was handed out is never handed out again. Apart from what user code fires, executions fire only
signals that descend from others. -/

namespace ScopedEffects

variable {H : Host} {s s' : Store H}

/-! Operations that take no numbers -/

namespace Store

theorem signals_join (s : Store H) (c : Scope) (k : Key) : (s.join c k).signals = s.signals := by
  unfold join
  split
  · rfl
  · split
    · rfl
    · split <;> rfl

theorem signals_request (s : Store H) (via : Access) (key : Key) :
    (s.request via key).2.signals = s.signals := by
  have enlist : ∀ c a, (s.enlist c key a).2.signals = s.signals := by
    intro c a
    unfold Store.enlist
    split
    · split
      · rfl
      · exact signals_join ..
    · exact signals_join ..
  have resolve : ∀ c a, (s.resolve c key a).2.signals = s.signals := by
    intro c a
    unfold Store.resolve
    split
    · exact enlist ..
    · rfl
    · rfl
  cases via with
  | context c => exact resolve ..
  | resolver r =>
    unfold request
    dsimp only
    split
    · exact resolve ..
    · rfl

theorem signals_finishWait (s : Store H) (w : Wait) : (s.finishWait w).signals = s.signals := by
  unfold finishWait
  split
  · rfl
  · split <;> rfl

theorem signals_finishWaits (ws : List Wait) (s : Store H) :
    (ws.foldl finishWait s).signals = s.signals := by
  induction ws generalizing s with
  | nil => rfl
  | cons w rest ih => rw [List.foldl_cons, ih, signals_finishWait]

theorem signals_fire (s : Store H) (g : Signal) : (s.fire g).signals = s.signals := by
  unfold fire
  split <;> rfl

theorem signals_fireAll (gs : List Signal) (s : Store H) : (s.fireAll gs).signals = s.signals := by
  unfold fireAll
  induction gs generalizing s with
  | nil => rfl
  | cons g rest ih => rw [List.foldl_cons, ih, signals_fire]

theorem fired_finishWaits (ws : List Wait) (s : Store H) :
    (ws.foldl finishWait s).fired = s.fired := by
  induction ws generalizing s with
  | nil => rfl
  | cons w rest ih =>
    have same : (s.finishWait w).fired = s.fired := by
      unfold finishWait
      split
      · rfl
      · split <;> rfl
    rw [List.foldl_cons, ih, same]

theorem mem_fired_fire {s : Store H} {g h : Signal} (hg : g ∈ (s.fire h).fired) :
    g ∈ s.fired ∨ g = h := by
  unfold fire at hg
  split at hg
  · exact .inl hg
  · exact (List.mem_cons.1 hg).symm

theorem mem_fired_fireAll {gs : List Signal} {s : Store H} {g : Signal}
    (hg : g ∈ (s.fireAll gs).fired) : g ∈ s.fired ∨ g ∈ gs := by
  unfold fireAll at hg
  induction gs generalizing s with
  | nil => exact .inl hg
  | cons h rest ih =>
    rw [List.foldl_cons] at hg
    rcases ih hg with hg | hg
    · rcases mem_fired_fire hg with old | rfl
      · exact .inl old
      · exact .inr List.mem_cons_self
    · exact .inr (List.mem_cons_of_mem h hg)

theorem signals_perform {α : Type} (s : Store H) (c : Code H α) :
    (s.perform c).2.signals = s.signals := signals_fireAll ..

end Store

/-! Tasks -/

namespace Task

variable {t t' : Task H}

theorem Quiet.signals (h : Quiet s t s' t') : s'.signals = s.signals := by
  cases h with
  | fire => exact Store.signals_fire ..
  | _ => rfl

theorem Acts.signals {d : Deed H} (h : Acts s t d s' t') : s'.signals = s.signals := by
  induction h with
  | quiet h => exact h.signals
  | @begin via key _ _ _ h =>
    have same := s.signals_request via key
    rwa [h] at same
  | @refuse via key _ _ _ h =>
    have same := s.signals_request via key
    rwa [h] at same
  | answer => exact Store.signals_finishWait ..
  | panicLeft | panicRight | winLeft | winRight => exact Store.signals_finishWaits ..
  | bothLeft _ ih | bothRight _ ih | firstLeft _ ih | firstRight _ ih => exact ih

end Task

theorem Store.Driven.signals {busy : List Place} {L : List (Happening H)}
    (h : Store.Driven busy s L s') : s'.signals = s.signals := by
  induction h with
  | nil => rfl
  | act _ _ _ h ih => exact h.signals.trans ih
  | settle _ _ _ _ _ ih => exact ih

theorem Task.signals_step {t t' : Task H} {policy : Policy} {depth : Nat}
    (h : t.step policy depth s = some (t', s')) : s'.signals = s.signals := by
  have explained : t.Explained [] s s' t' := Task.move_explained Store.moveSlot_driven h
  cases explained with
  | itself h => exact h.signals
  | others hL h => exact h.signals.trans hL.signals

/-! User code that fires only certain signals -/

section Confined

variable (K : Signal → Prop)

def Code.Confined {α : Type} (c : Code H α) : Prop := ∀ now u, ∀ g ∈ (c now u).fired, K g

def Task.Confined (s : Store H) (t : Task H) : Prop :=
  ∀ policy depth t' s', t.step policy depth s = some (t', s') → ∀ g ∈ s'.fired, g ∈ s.fired ∨ K g

/-- The code of the node itself. -/
def Node.Confined : Node H → Prop
  | .sync code => Code.Confined K code
  | .program code => Code.Confined K code
  | .cancellable code => ∀ g, Code.Confined K (code g)
  | .suspend code => Code.Confined K code
  | _ => True

def Frame.Confined : Frame H → Prop
  | .map code => ∀ v, (code v).Confined K
  | .recover code => ∀ f, (code f).Confined K
  | .tap code => ∀ v, (code v).Confined K
  | .tapError code => ∀ f, (code f).Confined K
  | .ensuring code => code.Confined K
  | .retry _ policy _ => ∀ f, (policy.accepts f).Confined K
  | _ => True

mutual

/-- The user code that the execution may run next fires only signals that satisfy `K`. -/
def Execution.Confined (s : Store H) : Execution H → Prop
  | .enter n _ => n.Confined K
  | .task _ t => t.Confined K s
  | .frame _ f above => f.Confined K ∧ above.Confined s
  | .crew _ _ _ b => Branches.Confined s b
  | _ => True

def Branches.Confined (s : Store H) : Branches H → Prop
  | .nil => True
  | .cons _ e rest => e.Confined s ∧ Branches.Confined s rest

end

variable {K}

theorem Branches.Confined.find? {b : Branches H} {i : Nat} {e : Execution H} (h : b.Confined K s)
    (hi : b.find? i = some e) : e.Confined K s := by
  induction b with
  | nil => cases hi
  | cons j f rest ih =>
    rcases find?_cons hi with ⟨-, rfl⟩ | hi
    · exact h.1
    · exact ih h.2 hi

theorem Node.confined_true (n : Node H) : n.Confined fun _ => True := by
  unfold Node.Confined Code.Confined
  split <;> intros <;> trivial

theorem Frame.confined_true (f : Frame H) : f.Confined fun _ => True := by
  unfold Frame.Confined Code.Confined
  split <;> intros <;> trivial

mutual

theorem Execution.confined_true (s : Store H) : ∀ e : Execution H, e.Confined (fun _ => True) s
  | .enter n _ => n.confined_true
  | .task .. => fun _ _ _ _ _ _ _ => .inr trivial
  | .frame _ f above => ⟨f.confined_true, above.confined_true s⟩
  | .crew _ _ _ b => Branches.confined_true s b
  | .pause .. => trivial
  | .settled _ => trivial
  | .unwound _ => trivial

theorem Branches.confined_true (s : Store H) : ∀ b : Branches H, b.Confined (fun _ => True) s
  | .nil => trivial
  | .cons _ e rest => ⟨e.confined_true s, Branches.confined_true s rest⟩

end

end Confined

/-! Stores on their way -/

/-- No number comes back, and the signals that have been fired since descend from others or satisfy
`K`. -/
structure Store.Grows (K : Signal → Prop) (s s' : Store H) : Prop where
  supply : s.signals.next ≤ s'.signals.next
  fired : ∀ g ∈ s'.fired, g ∈ s.fired ∨ g.IsChild ∨ K g

namespace Store

variable {K : Signal → Prop} {s₁ : Store H}

theorem grows_of_eq (supply : s'.signals = s.signals) (fired : s'.fired = s.fired) :
    s.Grows K s' :=
  ⟨Nat.le_of_eq (congrArg Supply.next supply.symm), fun _ hg => .inl (fired ▸ hg)⟩

theorem Grows.refl (s : Store H) : s.Grows K s := grows_of_eq rfl rfl

theorem Grows.trans (h : s.Grows K s₁) (h' : s₁.Grows K s') : s.Grows K s' := by
  refine ⟨h.supply.trans h'.supply, fun g hg => ?_⟩
  rcases h'.fired g hg with hg | new
  · exact h.fired g hg
  · exact .inr new

theorem grows_supply (n : Nat) : s.Grows K { s with signals := ⟨s.signals.next + n⟩ } :=
  ⟨Nat.le_add_right _ n, fun _ hg => .inl hg⟩

theorem grows_fire {c : Signal} (h : c.IsChild) (s : Store H) : s.Grows K (s.fire c) := by
  refine ⟨Nat.le_of_eq (congrArg Supply.next (s.signals_fire c).symm), fun g hg => ?_⟩
  rcases mem_fired_fire hg with old | rfl
  · exact .inl old
  · exact .inr (.inl h)

theorem grows_perform {α : Type} {code : Code H α} (h : code.Confined K) (s : Store H) :
    s.Grows K (s.perform code).2 := by
  refine ⟨Nat.le_of_eq (congrArg Supply.next (s.signals_perform code).symm), fun g hg => ?_⟩
  unfold perform at hg
  rcases mem_fired_fireAll hg with old | new
  · exact .inl old
  · exact .inr (.inr (h _ _ g new))

theorem grows_draw (s : Store H) (p : RetryPolicy H) : s.Grows K (s.draw p).2 := by
  unfold draw
  split <;> exact grows_of_eq rfl rfl

theorem grows_layer (s : Store H) (c : Scope) (p : Provider H) : s.Grows K (s.layer c p).2 := by
  unfold layer
  dsimp only
  split <;> exact grows_of_eq rfl rfl

end Store

/-! Executions -/

namespace Execution

variable {K : Signal → Prop} {env : Env}

theorem grows_source {x : Execution H × Store H} (h : s.Grows K x.2) :
    s.Grows K (source env s x).2 := by
  unfold source
  split
  · exact Store.Grows.refl s
  · exact h

theorem grows_build {α : Type} {code : Code H α} (h : code.Confined K) (s : Store H)
    (next : α → Execution H) : s.Grows K (build s code next).2 := by
  have grows := Store.grows_perform h s
  unfold build
  split
  · rename_i hp
    rwa [hp] at grows
  · rename_i hp
    rwa [hp] at grows

theorem grows_start (env : Env) (s : Store H) {n : Node H} (h : n.Confined K) :
    s.Grows K (start env s n).2 := by
  cases n with
  | sync => exact grows_source (grows_build h s _)
  | program => exact grows_source (grows_build h s _)
  | suspend => exact grows_source (grows_build h s _)
  | cancellable => exact grows_source (grows_build (h env.signal) s _)
  | service | all => exact grows_source (Store.Grows.refl s)
  | any | race => exact grows_source (Store.grows_supply 1)
  | timeout => exact Store.grows_supply 1
  | provide _ p => exact Store.grows_layer s env.scope p
  | _ => exact Store.Grows.refl s

theorem grows_concludeFinalizer (exit cleanup : Exit H) (s : Store H) :
    s.Grows K (concludeFinalizer exit cleanup s).2 := by
  unfold concludeFinalizer
  split <;> exact Store.grows_of_eq rfl rfl

theorem grows_retryAfter (env : Env) (inner : Node H) {policy : RetryPolicy H} (attempt : Nat)
    {f : Failure H} (h : (policy.accepts f).Confined K) (s : Store H) :
    s.Grows K (retryAfter env inner policy attempt f s).2 := by
  have performed := Store.grows_perform h s
  have goes := retries env inner policy attempt f s
  generalize retryAfter env inner policy attempt f s = x at goes ⊢
  cases goes with
  | exhausted => exact Store.Grows.refl s
  | asking _ asked | declines _ asked => rwa [asked] at performed
  | drawing _ asked =>
    rw [asked] at performed
    exact performed.trans (Store.grows_draw ..)
  | again _ asked | pauses _ asked =>
    rw [asked] at performed
    exact (performed.trans (Store.grows_draw ..)).trans (Store.grows_of_eq rfl rfl)

theorem grows_resume [Tracing H] (env : Env) (exit : Exit H) (s : Store H) {f : Frame H}
    (h : f.Confined K) : s.Grows K (f.resume env exit s).2 := by
  cases f with
  | ensuring code =>
    have own : s.Grows K s.newSignal.2 := Store.grows_supply 1
    have performed := own.trans (Store.grows_perform h s.newSignal.2)
    unfold Frame.resume
    dsimp only
    split
    · rename_i hp
      rwa [hp] at performed
    · rename_i hp
      rw [hp] at performed
      exact performed.trans (grows_concludeFinalizer ..)
  | ensured => exact grows_concludeFinalizer ..
  | map =>
    cases exit with
    | ok v => exact grows_build (h v) s _
    | error => exact Store.Grows.refl s
  | tap =>
    cases exit with
    | ok v => exact grows_build (h v) s _
    | error => exact Store.Grows.refl s
  | tapError =>
    cases exit with
    | ok => exact Store.Grows.refl s
    | error f => exact grows_build (h f) s _
  | recover =>
    cases exit with
    | ok => exact Store.Grows.refl s
    | error f =>
      unfold Frame.resume
      dsimp only
      split
      · exact Store.Grows.refl s
      · exact grows_build (h f) s _
  | retry =>
    cases exit with
    | ok => exact Store.Grows.refl s
    | error f => exact grows_retryAfter env _ _ (h f) s
  | withService t pair =>
    cases exit with
    | ok v =>
      unfold Frame.resume
      dsimp only
      split <;> exact Store.Grows.refl s
    | error => exact Store.Grows.refl s
  | draining after fallback => cases fallback <;> exact Store.Grows.refl s
  | acquire =>
    unfold Frame.resume
    dsimp only
    split <;> exact Store.Grows.refl s
  | tapped | tapErrored | entered => cases exit <;> exact Store.Grows.refl s
  | timeout | body => exact Store.Grows.refl s

theorem grows_moveTask {policy : Policy} {depth : Nat} {g : Guard} {t : Task H} {e' : Execution H}
    (h : t.Confined K s) (hm : moveTask policy depth s g t = some (e', s')) : s.Grows K s' := by
  cases moveTask_moves hm with
  | settles | unwinds | catches => exact Store.Grows.refl s
  | aborts => exact Store.grows_of_eq (Store.signals_finishWaits ..) (Store.fired_finishWaits ..)
  | steps _ step =>
    have same := Task.signals_step step
    exact ⟨Nat.le_of_eq (congrArg Supply.next same.symm), fun g hg =>
      (h _ _ _ _ step g hg).imp_right .inr⟩

theorem grows_absorb {c : Crew H} {running : List Nat} (h : c.Sound running) (i : Nat)
    (exit : Exit H) (s : Store H) : s.Grows K (c.absorb i exit s).2 := by
  unfold Crew.absorb
  cases c with
  | all => cases exit <;> exact Store.grows_of_eq rfl rfl
  | any child errors won =>
    cases won with
    | some => exact Store.Grows.refl s
    | none =>
      cases exit with
      | ok =>
        have noted : s.Grows K (s.record (.branchSucceeded i)) := Store.grows_of_eq rfl rfl
        exact noted.trans (Store.grows_fire h _)
      | error => exact Store.Grows.refl s
  | race child won =>
    cases won with
    | some => exact Store.Grows.refl s
    | none => exact Store.grows_fire h s

theorem grows_move [Tracing H] {policy : Policy} {depth : Nat} {e e' : Execution H} (h : e.Sound)
    (hc : e.Confined K s) (hm : e.move policy depth s = some (e', s')) : s.Grows K s' := by
  induction e generalizing policy depth e' s' with
  | enter n env =>
    rw [move] at hm
    have grows := grows_start env s hc
    rw [Option.some.inj hm] at grows
    exact grows
  | task g t =>
    rw [move] at hm
    exact grows_moveTask hc hm
  | pause till env inner policy attempt =>
    rw [move] at hm
    split at hm
    · cases hm
      exact Store.Grows.refl s
    · split at hm
      · cases hm
        exact Store.Grows.refl s
      · cases hm
  | frame env f above ih =>
    cases move_frame hm with
    | resumes => exact grows_resume env _ s hc.1
    | passes => exact Store.Grows.refl s
    | moves _ moved => exact ih h.2.2 hc.2 moved
    | @expires deadline after child fallback _ _ _ timeout =>
      subst timeout
      have noted : s.Grows K (s.record (.timeoutExpired after)) := Store.grows_of_eq rfl rfl
      exact noted.trans (Store.grows_fire h.2.1 _)
  | crew env c round b ih =>
    obtain ⟨-, crew, distinct, sound⟩ := h
    cases move_crew distinct hm with
    | keeps hk =>
      cases hk with
      | panics unwound => exact (sound.find? unwound).elim
      | absorbs => exact grows_absorb crew ..
      | admits => exact Store.Grows.refl s
      | concludes => exact Store.Grows.refl s
    | moves _ _ _ found _ moved => exact ih _ _ found (sound.find? found) (hc.find? found) moved
  | settled => rw [move] at hm; cases hm
  | unwound => rw [move] at hm; cases hm

end Execution

end ScopedEffects
