import ScopedEffects.Proofs.Execution.Story

/-! The operations that moves of executions are made of. What each operation does to a store, or
leaves as it is, every move does: the clock stands still, and signals that have fired stay fired. -/

namespace ScopedEffects

variable {H : Host} {s s' : Store H}

namespace Store

inductive Operation (s : Store H) : Store H → Prop
  | record (e : Event) : Operation s (s.record e)
  | number (n : Nat) : Operation s { s with signals := ⟨s.signals.next + n⟩ }
  | draw (p : RetryPolicy H) : Operation s (s.draw p).2
  | perform {α : Type} (code : Code H α) : Operation s (s.perform code).2
  | fire (g : Signal) : Operation s (s.fire g)
  | layer (c : Scope) (p : Provider H) : Operation s (s.layer c p).2
  | step {policy depth t t' s'} (h : Task.step policy depth t s = some (t', s')) : Operation s s'
  | finish (ws : List Wait) : Operation s (ws.foldl finishWait s)

/-- One operation after another, and perhaps none. -/
abbrev Works : Store H → Store H → Prop := Relation.ReflTransGen Operation

theorem Operation.works (h : s.Operation s') : s.Works s' := .single h

end Store

open Store

namespace Execution

variable {env : Env} {policy : Policy} {depth : Nat} {e e' : Execution H}

theorem works_source {x : Execution H × Store H} (h : s.Works x.2) : s.Works (source env s x).2 := by
  unfold source
  split
  · exact .refl
  · exact h

theorem works_build {α : Type} (s : Store H) (code : Code H α) (next : α → Execution H) :
    s.Works (build s code next).2 := by
  have performed := (Operation.perform (s := s) code).works
  unfold build
  split
  · rename_i hp
    rwa [hp] at performed
  · rename_i hp
    rwa [hp] at performed

theorem works_start (env : Env) (s : Store H) (n : Node H) : s.Works (start env s n).2 := by
  cases n with
  | sync | program | cancellable | suspend => exact works_source (works_build ..)
  | service | all => exact works_source .refl
  | any | race => exact works_source (Operation.number 1).works
  | timeout => exact (Operation.number 1).works
  | provide _ p => exact (Operation.layer env.scope p).works
  | _ => exact .refl

theorem works_concludeFinalizer (exit cleanup : Exit H) (s : Store H) :
    s.Works (concludeFinalizer exit cleanup s).2 := by
  unfold concludeFinalizer
  split
  · exact .refl
  · exact .refl
  · exact (Operation.record _).works

theorem works_retryAfter (env : Env) (inner : Node H) (policy : RetryPolicy H) (attempt : Nat)
    (f : Failure H) (s : Store H) : s.Works (retryAfter env inner policy attempt f s).2 := by
  have performed := (Operation.perform (s := s) (policy.accepts f)).works
  have goes := retries env inner policy attempt f s
  generalize retryAfter env inner policy attempt f s = x at goes ⊢
  cases goes with
  | exhausted => exact .refl
  | asking _ asked | declines _ asked => rwa [asked] at performed
  | drawing _ asked =>
    rw [asked] at performed
    exact performed.tail (.draw policy)
  | again _ asked | pauses _ asked =>
    rw [asked] at performed
    exact (performed.tail (.draw policy)).tail (.record _)

theorem works_resume [Tracing H] (env : Env) (exit : Exit H) (s : Store H) (f : Frame H) :
    s.Works (f.resume env exit s).2 := by
  cases f with
  | ensuring code =>
    have own : s.Works s.newSignal.2 := (Operation.number 1).works
    have performed := own.tail (.perform code)
    unfold Frame.resume
    dsimp only
    split
    · rename_i hp
      rwa [hp] at performed
    · rename_i hp
      rw [hp] at performed
      exact performed.trans (works_concludeFinalizer ..)
  | ensured => exact works_concludeFinalizer ..
  | map | tap =>
    cases exit with
    | ok => exact works_build ..
    | error => exact .refl
  | tapError =>
    cases exit with
    | ok => exact .refl
    | error => exact works_build ..
  | recover =>
    cases exit with
    | ok => exact .refl
    | error =>
      unfold Frame.resume
      dsimp only
      split
      · exact .refl
      · exact works_build ..
  | retry =>
    cases exit with
    | ok => exact .refl
    | error => exact works_retryAfter ..
  | withService =>
    cases exit with
    | ok =>
      unfold Frame.resume
      dsimp only
      split <;> exact .refl
    | error => exact .refl
  | draining _ fallback => cases fallback <;> exact .refl
  | acquire =>
    unfold Frame.resume
    dsimp only
    split <;> exact .refl
  | tapped | tapErrored | entered => cases exit <;> exact .refl
  | timeout | body => exact .refl

theorem works_moveTask {g : Guard} {t : Task H}
    (hm : moveTask policy depth s g t = some (e', s')) : s.Works s' := by
  cases moveTask_moves hm with
  | settles | unwinds | catches => exact .refl
  | aborts => exact (Operation.finish t.waits).works
  | steps _ step => exact (Operation.step step).works

theorem works_absorb (c : Crew H) (i : Nat) (exit : Exit H) (s : Store H) :
    s.Works (c.absorb i exit s).2 := by
  unfold Crew.absorb
  cases c with
  | all =>
    cases exit with
    | ok => exact .refl
    | error => exact (Operation.record _).works
  | any child errors won =>
    cases won with
    | some => exact .refl
    | none =>
      cases exit with
      | ok => exact (Operation.record _).works.tail (.fire child)
      | error => exact .refl
  | race child won =>
    cases won with
    | some => exact .refl
    | none => exact (Operation.fire child).works

theorem works_moveCrew {c : Crew H} {round : Round} {b : Branches H}
    (hm : moveCrew s env c round b = some (e', s')) : s.Works s' := by
  unfold moveCrew at hm
  split at hm
  · cases hm
    exact (Operation.finish (branchWaits b)).works
  · rename_i i exit _ _
    cases hm
    exact works_absorb c i exit s
  · cases hm
    exact .refl
  · split at hm
    · cases hm
      exact .refl
    · cases hm

variable [Tracing H]

theorem works_move (hm : e.move policy depth s = some (e', s')) : s.Works s' := by
  induction e generalizing policy depth e' s' with
  | enter n env =>
    rw [move] at hm
    have works := works_start env s n
    rw [Option.some.inj hm] at works
    exact works
  | task g t =>
    rw [move] at hm
    exact works_moveTask hm
  | pause till env inner policy attempt =>
    rw [move] at hm
    split at hm
    · cases hm
      exact .refl
    · split at hm
      · cases hm
        exact .refl
      · cases hm
  | frame env f above ih =>
    cases move_frame hm with
    | resumes => exact works_resume ..
    | passes => exact .refl
    | moves _ moved => exact ih moved
    | expires => exact (Operation.record _).works.tail (.fire _)
  | crew env c round b ih =>
    rcases move_crew_cases hm with kept | ⟨-, i, f, f', _, _, found, hf, -⟩
    · exact works_moveCrew kept
    · exact ih i f found hf
  | settled => rw [move] at hm; cases hm
  | unwound => rw [move] at hm; cases hm

end Execution

/-! Requests change contexts and the trace, and nothing besides -/

namespace Store

structure SameRest (s s' : Store H) : Prop where
  now : s'.now = s.now
  user : s'.user = s.user
  fired : s'.fired = s.fired

namespace SameRest

variable {s'' : Store H}

theorem refl (s : Store H) : s.SameRest s := ⟨rfl, rfl, rfl⟩

theorem trans (h : s.SameRest s') (h' : s'.SameRest s'') : s.SameRest s'' :=
  ⟨h'.now.trans h.now, h'.user.trans h.user, h'.fired.trans h.fired⟩

end SameRest

theorem sameRest_changeContext (s : Store H) (c : Scope) (f : Context H → Context H) :
    s.SameRest (s.changeContext c f) := ⟨rfl, rfl, rfl⟩

theorem sameRest_setSlot (s : Store H) (c : Scope) (key : Key) (x : Slot H) :
    s.SameRest (s.setSlot c key x) := ⟨rfl, rfl, rfl⟩

theorem sameRest_join (s : Store H) (c : Scope) (key : Key) : s.SameRest (s.join c key) := by
  unfold join
  split
  · exact .refl s
  · split
    · exact ⟨rfl, rfl, rfl⟩
    · split
      · exact .refl s
      · exact ⟨rfl, rfl, rfl⟩

theorem sameRest_enlist (s : Store H) (c : Scope) (key : Key) (a : Option Key) :
    s.SameRest (s.enlist c key a).2 := by
  unfold enlist
  split
  · split
    · exact ⟨rfl, rfl, rfl⟩
    · exact (s.sameRest_changeContext c _).trans (sameRest_join ..)
  · exact sameRest_join ..

theorem sameRest_resolve (s : Store H) (c : Scope) (key : Key) (a : Option Key) :
    s.SameRest (s.resolve c key a).2 := by
  unfold resolve
  split
  · exact sameRest_enlist ..
  · exact .refl s
  · exact .refl s

theorem sameRest_request (s : Store H) (via : Access) (key : Key) :
    s.SameRest (s.request via key).2 := by
  unfold request
  split
  · exact sameRest_resolve ..
  · split
    · exact sameRest_resolve ..
    · exact .refl s

theorem sameRest_finishWait (s : Store H) (w : Wait) : s.SameRest (s.finishWait w) := by
  unfold finishWait
  split
  · exact .refl s
  · split
    · exact ⟨rfl, rfl, rfl⟩
    · exact .refl s

theorem sameRest_finishWaits (ws : List Wait) (s : Store H) :
    s.SameRest (ws.foldl finishWait s) := by
  induction ws generalizing s with
  | nil => exact .refl s
  | cons w rest ih => exact (s.sameRest_finishWait w).trans (ih (s.finishWait w))

end Store

/-! Time stands still while something moves, and signals that have fired stay fired -/

namespace Store

structure AtOnce (s s' : Store H) : Prop where
  now : s'.now = s.now
  fired : s.fired ⊆ s'.fired

namespace AtOnce

variable {s'' : Store H}

theorem refl (s : Store H) : s.AtOnce s := ⟨rfl, List.Subset.refl _⟩

theorem trans (h : s.AtOnce s') (h' : s'.AtOnce s'') : s.AtOnce s'' :=
  ⟨h'.now.trans h.now, List.Subset.trans h.fired h'.fired⟩

end AtOnce

theorem SameRest.atOnce (h : s.SameRest s') : s.AtOnce s' := ⟨h.now, fun _ hg => h.fired.symm ▸ hg⟩

theorem atOnce_fire (s : Store H) (g : Signal) : s.AtOnce (s.fire g) := by
  unfold fire
  split
  · exact .refl s
  · exact ⟨rfl, List.subset_cons_self ..⟩

theorem atOnce_fireAll (gs : List Signal) (s : Store H) : s.AtOnce (s.fireAll gs) := by
  unfold fireAll
  induction gs generalizing s with
  | nil => exact .refl s
  | cons g rest ih => exact (s.atOnce_fire g).trans (ih (s.fire g))

theorem fired_fireAll (gs : List Signal) (s : Store H) : s.fired ⊆ (s.fireAll gs).fired :=
  (atOnce_fireAll gs s).fired

end Store

theorem Task.Acts.atOnce {t t' : Task H} {d : Deed H} (h : Acts s t d s' t') : s.AtOnce s' := by
  induction h with
  | quiet h =>
    cases h with
    | fire => exact s.atOnce_fire _
    | _ => exact ⟨rfl, List.Subset.refl _⟩
  | @begin via key _ _ _ h =>
    have requested := s.sameRest_request via key
    rw [h] at requested
    exact requested.atOnce
  | @refuse via key _ _ _ h =>
    have requested := s.sameRest_request via key
    rw [h] at requested
    exact requested.atOnce
  | answer => exact (s.sameRest_finishWait _).atOnce
  | panicLeft | panicRight | winLeft | winRight => exact (s.sameRest_finishWaits _).atOnce
  | bothLeft _ ih | bothRight _ ih | firstLeft _ ih | firstRight _ ih => exact ih

namespace Store

theorem Driven.atOnce {busy : List Place} {L : List (Happening H)} (h : Driven busy s L s') :
    s.AtOnce s' := by
  induction h with
  | nil => exact .refl _
  | act _ _ _ h ih => exact (ih.trans h.atOnce).trans (sameRest_setSlot ..).atOnce
  | settle _ _ _ _ _ ih => exact ih.trans (sameRest_setSlot ..).atOnce

theorem Operation.atOnce (h : s.Operation s') : s.AtOnce s' := by
  cases h with
  | record | number => exact ⟨rfl, List.Subset.refl _⟩
  | draw p =>
    unfold Store.draw
    split <;> exact ⟨rfl, List.Subset.refl _⟩
  | perform code =>
    have told : s.AtOnce { s with user := (code s.now s.user).state } := ⟨rfl, List.Subset.refl _⟩
    exact told.trans (atOnce_fireAll ..)
  | fire => exact s.atOnce_fire _
  | layer =>
    unfold Store.layer
    dsimp only
    split <;> exact ⟨rfl, List.Subset.refl _⟩
  | @step _ _ t t' _ h =>
    have explained : t.Explained [] s s' t' := Task.move_explained Store.moveSlot_driven h
    cases explained with
    | itself h => exact h.atOnce
    | others hL h => exact hL.atOnce.trans h.atOnce
  | finish ws => exact (s.sameRest_finishWaits ws).atOnce

theorem Works.atOnce (h : s.Works s') : s.AtOnce s' := by
  induction h with
  | refl => exact .refl s
  | tail _ op ih => exact ih.trans op.atOnce

theorem Works.fired (h : s.Works s') : s.fired ⊆ s'.fired := h.atOnce.fired

end Store

/-! What has fired with a signal -/

theorem Store.isFired_of_subset {g : Signal} (h : s.fired ⊆ s'.fired) (hg : s.isFired g = true) :
    s'.isFired g = true := by
  obtain ⟨c, hc, descends⟩ := List.any_eq_true.1 hg
  exact List.any_eq_true.2 ⟨c, h hc, descends⟩

theorem Signal.descendsFrom_refl (g : Signal) : g.descendsFrom g = true := by
  unfold descendsFrom
  rw [List.isSuffixOf_iff_suffix]

theorem Signal.descendsFrom_trans {a b c : Signal} (h : a.descendsFrom b = true)
    (h' : b.descendsFrom c = true) : a.descendsFrom c = true := by
  unfold descendsFrom at h h' ⊢
  rw [List.isSuffixOf_iff_suffix] at h h' ⊢
  exact h'.trans h

theorem Signal.descendsFrom_child (g : Signal) (n : Nat) : (g.child n).descendsFrom g = true := by
  unfold descendsFrom
  rw [List.isSuffixOf_iff_suffix]
  exact List.suffix_cons n g.lineage

/-- A signal has fired once one has that it descends from. -/
theorem Store.isFired_of_descends {g h : Signal} (hd : g.descendsFrom h = true)
    (hh : s.isFired h = true) : s.isFired g = true := by
  obtain ⟨c, hc, descends⟩ := List.any_eq_true.1 hh
  exact List.any_eq_true.2 ⟨c, hc, Signal.descendsFrom_trans hd descends⟩

theorem Store.isFired_fire_self (s : Store H) (g : Signal) : (s.fire g).isFired g = true := by
  unfold fire
  split
  · assumption
  · exact List.any_eq_true.2 ⟨g, List.mem_cons_self, g.descendsFrom_refl⟩

theorem Machine.Step.fired [Tracing H] {m m' : Machine H} (h : m.Step m') :
    m.store.fired ⊆ m'.store.fired := by
  cases h with
  | moves hm => exact (Execution.works_move hm).fired
  | rings => exact Store.fired_fireAll ..
  | passes => exact List.Subset.refl _

theorem Story.isFired_of_before [Tracing H] {r : Story H} {t u : Nat} {g : Signal} (htu : t ≤ u)
    (hu : u ≤ r.last) (hg : (r.state t).store.isFired g = true) :
    (r.state u).store.isFired g = true := by
  induction htu with
  | refl => exact hg
  | step _ ih => exact Store.isFired_of_subset (r.step _ hu).fired (ih (Nat.le_of_succ_le hu))

end ScopedEffects
