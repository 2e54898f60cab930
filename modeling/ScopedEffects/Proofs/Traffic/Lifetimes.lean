import ScopedEffects.Proofs.Store.Liveness
import ScopedEffects.Proofs.Traffic.Sharing

/-! The lifetimes of contexts over a run. A handle of a context comes from another handle, or from a
resolver whose context still lives; so a context that is gone is never held again, and stays gone. -/

namespace ScopedEffects

variable {H : Host}

/-- A context is held once more only while it lives. -/
def Happening.Feasible (σ : Traffic H) : Happening H → Prop
  | .held c => σ.store.lives c = true
  | _ => True

theorem Happening.Inner.feasible {e : Happening H} (h : e.Inner) (σ : Traffic H) : e.Feasible σ := by
  cases e <;> trivial

namespace Traffic

/-- Runs in which everything is feasible when it happens. -/
inductive FeasibleRun : Traffic H → List (Happening H) → Traffic H → Prop
  | nil (σ) : FeasibleRun σ [] σ
  | snoc {σ L τ e ρ} (run : FeasibleRun σ L τ) (step : Step τ e ρ) (feasible : e.Feasible τ) :
      FeasibleRun σ (L ++ [e]) ρ

variable {σ τ ρ : Traffic H} {e : Happening H} {L M : List (Happening H)} {c : Scope}

theorem FeasibleRun.run (h : FeasibleRun σ L τ) : Run σ L τ := by
  induction h with
  | nil => exact .nil _
  | snoc _ step _ ih => exact .snoc ih step

theorem FeasibleRun.append (run : FeasibleRun σ L τ) (run' : FeasibleRun τ M ρ) :
    FeasibleRun σ (L ++ M) ρ := by
  induction run' with
  | nil => simpa using run
  | snoc _ step feasible ih => rw [← List.append_assoc]; exact .snoc ih step feasible

/-- Whatever goes on among the tasks themselves is feasible. -/
theorem Run.feasible (run : Run σ L τ) (inner : ∀ e ∈ L, e.Inner) : FeasibleRun σ L τ := by
  induction run with
  | nil => exact .nil _
  | snoc _ step ih =>
    have last := inner _ (List.mem_append_right _ (List.mem_singleton.2 rfl))
    exact .snoc (ih fun e he => inner e (List.mem_append_left _ he)) step (last.feasible _)

/-- Contexts have numbers that were handed out, and are opened over contexts that are there. -/
structure Founded (σ : Traffic H) : Prop where
  numbered : σ.store.Numbered
  grounded : σ.store.Grounded

theorem Step.extends (hs : Step σ e τ) (hn : σ.store.Numbered) : σ.store.Extends τ.store := by
  intro c hc
  obtain ⟨x, hx⟩ := Option.isSome_iff_exists.1 hc
  exact hs.fixed hn hx

/-- What opens no context and holds none keeps all handles. -/
theorem Step.sameHandles (hs : Step σ e τ) (he : e.Inner) (c : Scope) :
    σ.store.SameHandles τ.store c := by
  cases hs with
  | client _ h => exact h.effect.sameHandles c
  | factory _ h => exact (h.effect.sameHandles c).trans (Store.sameHandles_setSlot ..)
  | settle => exact Store.sameHandles_setSlot ..
  | _ => cases he

theorem Step.fixed_of_inner (hs : Step σ e τ) (he : e.Inner) (c : Scope) :
    σ.store.Fixed τ.store c := by
  cases hs with
  | client _ ha => exact ha.effect.fixed c
  | factory _ ha => exact (ha.effect.fixed c).trans (Store.fixed_setSlot ..)
  | settle => exact Store.fixed_setSlot ..
  | _ => cases he

/-- What goes on among the tasks changes no provider and no handle. -/
theorem Run.keeps_of_inner (run : Run σ L τ) (inner : ∀ e ∈ L, e.Inner) :
    (∀ c, σ.store.Fixed τ.store c) ∧ ∀ c, σ.store.SameHandles τ.store c := by
  induction run with
  | nil => exact ⟨fun _ => rfl, fun _ => rfl⟩
  | snoc _ step ih =>
    obtain ⟨fixed, handles⟩ := ih fun e he => inner e (List.mem_append_left _ he)
    have last := inner _ (List.mem_append_right _ (List.mem_singleton.2 rfl))
    exact ⟨fun c => (fixed c).trans (step.fixed_of_inner last c),
      fun c => (handles c).trans (step.sameHandles last c)⟩

theorem sameHandles_drop (t : Task H) (s : Store H) (c : Scope) : s.SameHandles (t.drop s) c :=
  Store.sameHandles_finishWaits t.waits s c

theorem Step.grounded (hs : Step σ e τ) (h : σ.Founded) : τ.store.Grounded := by
  cases hs with
  | client _ h' => exact h.grounded.congr h'.effect.sameHandles
  | factory _ h' =>
    exact (h.grounded.congr h'.effect.sameHandles).congr fun c => Store.sameHandles_setSlot ..
  | settle => exact h.grounded.congr fun c => Store.sameHandles_setSlot ..
  | arrive => exact h.grounded
  | @leave s cs i t => exact h.grounded.congr (sameHandles_drop t s)
  | @openBase s cs p g =>
    intro base q below hx
    rw [Store.context?_openBase] at hx ⊢
    have layered : (⟨base, q :: below⟩ : Scope) ≠ ⟨s.bases.next, []⟩ := by simp
    rw [if_neg layered] at hx
    split
    · rfl
    · exact h.grounded base q below hx
  | @openLayer s cs d p =>
    rcases Store.layer_cases s d p with same | ⟨-, below, hb, new⟩
    · show (s.layer d p).2.Grounded
      rw [same]
      exact h.grounded
    · intro base q rest hx
      have hx : ((s.layer d p).2.context? ⟨base, q :: rest⟩).isSome := hx
      show ((s.layer d p).2.context? ⟨base, rest⟩).isSome
      rw [new] at hx ⊢
      have old : (s.context? ⟨base, rest⟩).isSome := by
        split at hx
        · rename_i opened
          cases opened
          exact Option.isSome_iff_exists.2 ⟨below, hb⟩
        · exact h.grounded base q rest hx
      split
      · rfl
      · exact old
  | hold => exact h.grounded.changeHandles _ (· + 1)
  | release => exact h.grounded.changeHandles _ (· - 1)
  | elsewhere h' => exact h.grounded.congr h'.sameHandles

theorem Founded.step (h : σ.Founded) (hs : Step σ e τ) : τ.Founded :=
  ⟨hs.numbered h.numbered, hs.grounded h⟩

theorem Founded.run (h : σ.Founded) (run : Run σ L τ) : τ.Founded := by
  induction run with
  | nil => exact h
  | snoc _ step ih => exact ih.step step

theorem Founded.extends (h : σ.Founded) (run : Run σ L τ) : σ.store.Extends τ.store := by
  induction run with
  | nil => exact .refl _
  | snoc before step ih => exact ih.trans (step.extends (h.run before).numbered)

theorem Founded.empty {s : Store H} (h : s.contexts = .empty) (cs : List (Task H)) :
    Founded ⟨s, cs⟩ := by
  have none : ∀ c, s.context? c = none := fun c => by rw [Store.context?, h]; rfl
  constructor
  · intro c x hx
    have hx : s.context? c = some x := hx
    rw [none c] at hx
    cases hx
  · intro base p below hx
    have hx : (s.context? ⟨base, p :: below⟩).isSome := hx
    rw [none] at hx
    cases hx

/-- A context that is gone stays gone. -/
theorem Step.lives_of_lives (hs : Step σ e τ) (h : σ.Founded) (he : e.Feasible σ)
    (hx : (σ.store.context? c).isSome) (hl : τ.store.lives c = true) : σ.store.lives c = true := by
  obtain ⟨base, layers⟩ := c
  refine Store.lives_of_lives h.grounded hx (fun below suffix held => ?_) hl
  have there := h.grounded.isSome_of_suffix hx suffix
  cases hs with
  | client _ h' => exact ((h'.effect.sameHandles _).held.1 held).lives
  | factory _ h' =>
    have acted := (Store.sameHandles_setSlot ..).held.1 held
    exact ((h'.effect.sameHandles _).held.1 acted).lives
  | settle => exact ((Store.sameHandles_setSlot ..).held.1 held).lives
  | arrive => exact held.lives
  | @leave s cs i t => exact ((sameHandles_drop t s _).held.1 held).lives
  | @openBase s cs p g =>
    obtain ⟨x, hx', handles⟩ := held
    rw [Store.context?_openBase] at hx'
    split at hx'
    · rename_i new
      obtain ⟨y, hy⟩ := Option.isSome_iff_exists.1 there
      rw [new] at hy
      exact absurd (h.numbered _ y hy) (lt_irrefl _)
    · exact Store.Held.lives ⟨x, hx', handles⟩
  | @openLayer s cs d p =>
    rcases Store.layer_cases s d p with same | ⟨free, y, -, new⟩
    · have held : (s.layer d p).2.Held ⟨base, below⟩ := held
      rw [same] at held
      exact held.lives
    · obtain ⟨x, hx', handles⟩ := held
      have hx' : (s.layer d p).2.context? ⟨base, below⟩ = some x := hx'
      rw [new] at hx'
      split at hx'
      · rename_i opened
        have there : (s.context? ⟨base, below⟩).isSome := there
        rw [opened, free] at there
        cases there
      · exact Store.Held.lives ⟨x, hx', handles⟩
  | @hold s cs d =>
    obtain ⟨x, hx', handles⟩ := held
    have hx' : (s.retain d).context? ⟨base, below⟩ = some x := hx'
    rw [Store.retain, Store.context?_changeContext] at hx'
    split at hx'
    · rename_i here
      have he : s.lives d = true := he
      rw [here]
      exact he
    · exact Store.Held.lives ⟨x, hx', handles⟩
  | @release s cs d =>
    obtain ⟨x, hx', handles⟩ := held
    have hx' : (s.release d).context? ⟨base, below⟩ = some x := hx'
    rw [Store.release, Store.context?_changeContext] at hx'
    split at hx'
    · obtain ⟨y, hy, rfl⟩ := Option.map_eq_some_iff.1 hx'
      exact Store.Held.lives ⟨y, hy, Nat.lt_of_lt_of_le handles (Nat.sub_le y.handles 1)⟩
    · exact Store.Held.lives ⟨x, hx', handles⟩
  | elsewhere h' => exact ((h'.sameHandles _).held.1 held).lives

theorem FeasibleRun.lives_of_lives (run : FeasibleRun σ L τ) (h : σ.Founded)
    (hx : (σ.store.context? c).isSome) (hl : τ.store.lives c = true) : σ.store.lives c = true := by
  induction run with
  | nil => exact hl
  | snoc before step feasible ih =>
    have there := (h.extends before.run).isSome hx
    exact ih (step.lives_of_lives (h.run before.run) feasible there hl)

end Traffic

end ScopedEffects
