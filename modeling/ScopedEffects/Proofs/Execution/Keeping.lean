import ScopedEffects.Proofs.Execution.Story
import ScopedEffects.Proofs.Traffic.Lifetimes

/-! What executions keep. Executions open layers, and their tasks make requests; neither changes the
provider or the handles of a context that is there. So a context that lives goes on living, and goes
on providing what it provides. -/

namespace ScopedEffects

variable {H : Host} {s s' : Store H}

namespace Store

/-- All contexts of `s` are there in `s'`, with their providers and their handles. -/
structure Keeps (s s' : Store H) : Prop where
  providers : s.Extends s'
  handles : ∀ c, (s.context? c).isSome → s.SameHandles s' c

namespace Keeps

variable {s'' : Store H} {c : Scope} {key : Key}

theorem refl (s : Store H) : s.Keeps s := ⟨.refl s, fun _ _ => rfl⟩

theorem trans (h : s.Keeps s') (h' : s'.Keeps s'') : s.Keeps s'' :=
  ⟨h.providers.trans h'.providers,
    fun c hc => (h.handles c hc).trans (h'.handles c (h.providers.isSome hc))⟩

theorem lives (h : s.Keeps s') (hl : s.lives c = true) : s'.lives c = true := by
  have held : ∀ {c}, s.Held c → s'.Held c := by
    rintro c ⟨x, hx, positive⟩
    exact (h.handles c (by rw [hx]; rfl)).held.2 ⟨x, hx, positive⟩
  obtain ⟨base, layers⟩ := c
  induction layers with
  | nil => exact (lives_nil s' base).2 (held ((lives_nil s base).1 hl))
  | cons p below ih =>
    refine (lives_cons s' base p below).2 ?_
    rcases (lives_cons s base p below).1 hl with hl | ⟨hx, hl⟩
    · exact .inl (held hl)
    · exact .inr ⟨h.providers.isSome hx, ih hl⟩

theorem bound (h : s.Keeps s') {base : Nat} {layers : List Nat}
    (hb : servingAt.bound s base key layers = true) :
    servingAt.bound s' base key layers = true := by
  have there : (s.context? ⟨base, layers⟩).isSome := by
    unfold servingAt.bound at hb
    split at hb
    · rename_i hx
      rw [hx]
      rfl
    · cases hb
  rw [h.providers.bound there]
  exact hb

theorem provides (h : s.Keeps s') (hp : s.provides c key = true) : s'.provides c key = true := by
  obtain ⟨base, layers⟩ := c
  induction layers with
  | nil => exact h.bound hp
  | cons p below ih =>
    refine (provides_cons s' base p below key).2 ?_
    rcases (provides_cons s base p below key).1 hp with hb | ⟨hl, hp⟩
    · exact .inl (h.bound hb)
    · exact .inr ⟨h.lives hl, ih hp⟩

end Keeps

theorem SameContexts.keeps (h : s.SameContexts s') : s.Keeps s' :=
  ⟨extends_of_fixed h.fixed, fun c _ => h.sameHandles c⟩

theorem keeps_finishWaits (ws : List Wait) (s : Store H) : s.Keeps (ws.foldl finishWait s) :=
  ⟨extends_of_fixed (fixed_finishWaits ws s), fun c _ => sameHandles_finishWaits ws s c⟩

theorem keeps_layer (s : Store H) (c : Scope) (p : Provider H) : s.Keeps (s.layer c p).2 := by
  rcases layer_cases s c p with same | ⟨free, below, hb, new⟩
  · rw [same]
    exact .refl s
  · have old : ∀ d, (s.context? d).isSome → (s.layer c p).2.context? d = s.context? d := by
      intro d hd
      rw [new, if_neg]
      rintro rfl
      rw [free] at hd
      cases hd
    exact ⟨fun d hd => by rw [Fixed, old d hd], fun d hd => by rw [SameHandles, old d hd]⟩

/-! Operations that leave the contexts alone -/

theorem sameContexts_fireAll (gs : List Signal) (s : Store H) : s.SameContexts (s.fireAll gs) := by
  unfold fireAll
  induction gs generalizing s with
  | nil => exact .refl s
  | cons g rest ih => exact (s.sameContexts_fire g).trans (ih (s.fire g))

theorem sameContexts_perform {α : Type} (s : Store H) (code : Code H α) :
    s.SameContexts (s.perform code).2 := by
  have told : s.SameContexts { s with user := (code s.now s.user).state } := ⟨rfl, rfl⟩
  exact told.trans (sameContexts_fireAll ..)

theorem sameContexts_draw (s : Store H) (p : RetryPolicy H) : s.SameContexts (s.draw p).2 := by
  unfold draw
  split <;> exact ⟨rfl, rfl⟩

end Store

namespace Execution

variable {env : Env} {policy : Policy} {depth : Nat} {e e' : Execution H}

theorem sameContexts_build {α : Type} (s : Store H) (code : Code H α) (next : α → Execution H) :
    s.SameContexts (build s code next).2 := by
  have performed := s.sameContexts_perform code
  unfold build
  split
  · rename_i hp
    rwa [hp] at performed
  · rename_i hp
    rwa [hp] at performed

theorem keeps_source {x : Execution H × Store H} (h : s.Keeps x.2) :
    s.Keeps (source env s x).2 := by
  unfold source
  split
  · exact .refl s
  · exact h

theorem keeps_start (env : Env) (s : Store H) (n : Node H) : s.Keeps (start env s n).2 := by
  have numbered : ∀ rest, s.Keeps { s with signals := rest } := fun _ =>
    Store.SameContexts.keeps ⟨rfl, rfl⟩
  cases n with
  | sync | program | cancellable | suspend => exact keeps_source (sameContexts_build ..).keeps
  | service | all => exact keeps_source (.refl s)
  | any | race => exact keeps_source (numbered _)
  | timeout => exact numbered _
  | provide _ p => exact s.keeps_layer env.scope p
  | _ => exact .refl s

theorem sameContexts_concludeFinalizer (exit cleanup : Exit H) (s : Store H) :
    s.SameContexts (concludeFinalizer exit cleanup s).2 := by
  unfold concludeFinalizer
  split <;> exact ⟨rfl, rfl⟩

theorem sameContexts_retryAfter (env : Env) (inner : Node H) (policy : RetryPolicy H)
    (attempt : Nat) (f : Failure H) (s : Store H) :
    s.SameContexts (retryAfter env inner policy attempt f s).2 := by
  have performed := s.sameContexts_perform (policy.accepts f)
  have goes := retries env inner policy attempt f s
  generalize retryAfter env inner policy attempt f s = x at goes ⊢
  cases goes with
  | exhausted => exact .refl s
  | asking _ asked | declines _ asked => rwa [asked] at performed
  | drawing _ asked =>
    rw [asked] at performed
    exact performed.trans (Store.sameContexts_draw ..)
  | again _ asked | pauses _ asked =>
    rw [asked] at performed
    exact (performed.trans (Store.sameContexts_draw ..)).trans (Store.sameContexts_record ..)

theorem sameContexts_resume [Tracing H] (env : Env) (exit : Exit H) (s : Store H) (f : Frame H) :
    s.SameContexts (f.resume env exit s).2 := by
  cases f with
  | ensuring code =>
    have own : s.SameContexts s.newSignal.2 := ⟨rfl, rfl⟩
    have performed := own.trans (s.newSignal.2.sameContexts_perform code)
    unfold Frame.resume
    dsimp only
    split
    · rename_i hp
      rwa [hp] at performed
    · rename_i hp
      rw [hp] at performed
      exact performed.trans (sameContexts_concludeFinalizer ..)
  | ensured => exact sameContexts_concludeFinalizer ..
  | map | tap =>
    cases exit with
    | ok => exact sameContexts_build ..
    | error => exact .refl s
  | tapError =>
    cases exit with
    | ok => exact .refl s
    | error => exact sameContexts_build ..
  | recover =>
    cases exit with
    | ok => exact .refl s
    | error =>
      unfold Frame.resume
      dsimp only
      split
      · exact .refl s
      · exact sameContexts_build ..
  | retry =>
    cases exit with
    | ok => exact .refl s
    | error => exact sameContexts_retryAfter ..
  | withService =>
    cases exit with
    | ok =>
      unfold Frame.resume
      dsimp only
      split <;> exact .refl s
    | error => exact .refl s
  | draining _ fallback => cases fallback <;> exact .refl s
  | acquire =>
    unfold Frame.resume
    dsimp only
    split <;> exact .refl s
  | tapped | tapErrored | entered => cases exit <;> exact .refl s
  | timeout | body => exact .refl s

theorem keeps_step {t t' : Task H} (h : t.step policy depth s = some (t', s')) : s.Keeps s' := by
  have here : (⟨s, [t]⟩ : Traffic H).clients[0]? = some t := rfl
  obtain ⟨L, run, inner⟩ := Traffic.run_of_step here h
  obtain ⟨fixed, handles⟩ := run.keeps_of_inner inner
  exact ⟨Store.extends_of_fixed fixed, fun c _ => handles c⟩

theorem keeps_moveTask {g : Guard} {t : Task H}
    (hm : moveTask policy depth s g t = some (e', s')) : s.Keeps s' := by
  cases moveTask_moves hm with
  | settles | unwinds | catches => exact .refl s
  | aborts => exact Store.keeps_finishWaits ..
  | steps _ step => exact keeps_step step

theorem sameContexts_absorb (c : Crew H) (i : Nat) (exit : Exit H) (s : Store H) :
    s.SameContexts (c.absorb i exit s).2 := by
  unfold Crew.absorb
  cases c with
  | all => cases exit <;> exact ⟨rfl, rfl⟩
  | any child errors won =>
    cases won with
    | some => exact .refl s
    | none =>
      cases exit with
      | ok => exact (s.sameContexts_record _).trans (Store.sameContexts_fire ..)
      | error => exact .refl s
  | race child won =>
    cases won with
    | some => exact .refl s
    | none => exact s.sameContexts_fire child

theorem keeps_moveCrew {c : Crew H} {round : Round} {b : Branches H}
    (hm : moveCrew s env c round b = some (e', s')) : s.Keeps s' := by
  unfold moveCrew at hm
  split at hm
  · cases hm
    exact Store.keeps_finishWaits ..
  · rename_i i exit _ _
    cases hm
    exact (sameContexts_absorb c i exit s).keeps
  · cases hm
    exact .refl s
  · split at hm
    · cases hm
      exact .refl s
    · cases hm

variable [Tracing H]

theorem keeps_move (hm : e.move policy depth s = some (e', s')) : s.Keeps s' := by
  induction e generalizing policy depth e' s' with
  | enter n env =>
    rw [move] at hm
    have keeps := keeps_start env s n
    rw [Option.some.inj hm] at keeps
    exact keeps
  | task g t =>
    rw [move] at hm
    exact keeps_moveTask hm
  | pause till env inner policy attempt =>
    rw [move] at hm
    split at hm
    · cases hm
      exact .refl s
    · split at hm
      · cases hm
        exact .refl s
      · cases hm
  | frame env f above ih =>
    cases move_frame hm with
    | resumes => exact (sameContexts_resume ..).keeps
    | passes => exact .refl s
    | moves _ moved => exact ih moved
    | expires => exact ((s.sameContexts_record _).trans (Store.sameContexts_fire ..)).keeps
  | crew env c round b ih =>
    rcases move_crew_cases hm with kept | ⟨-, i, f, f', _, _, found, hf, -⟩
    · exact keeps_moveCrew kept
    · exact ih i f found hf
  | settled => rw [move] at hm; cases hm
  | unwound => rw [move] at hm; cases hm

end Execution

variable [Tracing H]

theorem Machine.Step.keeps {m m' : Machine H} (h : m.Step m') : m.store.Keeps m'.store := by
  cases h with
  | moves hm => exact Execution.keeps_move hm
  | rings => exact (Store.sameContexts_fireAll ..).keeps
  | passes now => exact (m.store.sameContexts_now now).keeps

theorem Story.keeps {r : Story H} {t u : Nat} (htu : t ≤ u) (hu : u ≤ r.last) :
    (r.state t).store.Keeps (r.state u).store := by
  induction htu with
  | refl => exact .refl _
  | step _ ih => exact (ih (Nat.le_of_succ_le hu)).trans (r.step _ hu).keeps

end ScopedEffects
