import ScopedEffects.Proofs.Traffic.Polls

/-! What programs promise. A program that promises a property settles with no value that lacks it,
whatever its requests are answered and whatever state it sees. It goes on promising it while it
runs, whoever is driven in between. -/

namespace ScopedEffects

variable {H : Host} {V W : Value H → Prop}

/-- The value of the exit, if there is one, has the property. -/
def Exit.Holds (V : Value H → Prop) : Exit H → Prop
  | .ok v => V v
  | .error _ => True

theorem Exit.Holds.mono {exit : Exit H} (h : Exit.Holds V exit) (imp : ∀ v, V v → W v) :
    Exit.Holds W exit := by
  cases exit with
  | ok v => exact imp v h
  | error => trivial

def Program.Promises : (Value H → Prop) → Program H → Prop
  | V, .done exit => Exit.Holds V exit
  | _, .panic _ => True
  | V, .act _ next => ∀ now x, (next now x).Promises V
  | V, .fire _ next => next.Promises V
  | V, .isFired _ next => ∀ b, (next b).Promises V
  | V, .record _ next => next.Promises V
  | V, .sleep _ next => next.Promises V
  | V, .awaitSignal _ next => next.Promises V
  | V, .get _ _ next => ∀ a, (next a).Promises V
  | V, .both l r next => ∃ A B, l.Promises A ∧ r.Promises B ∧
      ∀ a b, Exit.Holds A a → Exit.Holds B b → (next a b).Promises V
  | V, .first l r next => ∃ A B, l.Promises A ∧ r.Promises B ∧
      (∀ a, Exit.Holds A a → (next false a).Promises V) ∧
      ∀ b, Exit.Holds B b → (next true b).Promises V

theorem Program.promises_true (p : Program H) : p.Promises fun _ => True := by
  induction p with
  | done exit => cases exit <;> trivial
  | panic => trivial
  | act _ _ ih => exact ih
  | fire _ _ ih | record _ _ ih | sleep _ _ ih | awaitSignal _ _ ih => exact ih
  | isFired _ _ ih | get _ _ _ ih => exact ih
  | both _ _ _ left right ih => exact ⟨_, _, left, right, fun a b _ _ => ih a b⟩
  | first _ _ _ left right ih =>
    exact ⟨_, _, left, right, fun a _ => ih false a, fun b _ => ih true b⟩

theorem Program.Promises.mono {p : Program H} (h : p.Promises V) (imp : ∀ v, V v → W v) :
    p.Promises W := by
  induction p generalizing V W with
  | done => exact Exit.Holds.mono h imp
  | panic => trivial
  | act _ _ ih => exact fun now x => ih now x (h now x) imp
  | fire _ _ ih | record _ _ ih | sleep _ _ ih | awaitSignal _ _ ih => exact ih h imp
  | isFired _ _ ih => exact fun b => ih b (h b) imp
  | get _ _ _ ih => exact fun a => ih a (h a) imp
  | both _ _ _ _ _ ih =>
    obtain ⟨A, B, left, right, next⟩ := h
    exact ⟨A, B, left, right, fun a b ha hb => ih a b (next a b ha hb) imp⟩
  | first _ _ _ _ _ ih =>
    obtain ⟨A, B, left, right, next, next'⟩ := h
    exact ⟨A, B, left, right, fun a ha => ih false a (next a ha) imp,
      fun b hb => ih true b (next' b hb) imp⟩

namespace Task

/-- The same for a program under way. -/
def Promises : (Value H → Prop) → Task H → Prop
  | V, run p => p.Promises V
  | V, sleeping _ next => next.Promises V
  | V, watching _ next => next.Promises V
  | V, waiting _ next => ∀ a, (next a).Promises V
  | V, both l r _ next => ∃ A B, l.Promises A ∧ r.Promises B ∧
      ∀ a b, Exit.Holds A a → Exit.Holds B b → (next a b).Promises V
  | V, first l r _ next => ∃ A B, l.Promises A ∧ r.Promises B ∧
      (∀ a, Exit.Holds A a → (next false a).Promises V) ∧
      ∀ b, Exit.Holds B b → (next true b).Promises V

namespace Promises

variable {t t' : Task H} {s s' : Store H} {d : Deed H} {e : Exit H}

theorem outcome (h : t.Promises V) (settled : t.outcome? = some (.ok e)) : Exit.Holds V e := by
  cases t with
  | run p =>
    cases p <;> cases settled
    exact h
  | _ => cases settled

theorem exit (h : t.Promises V) (settled : t.exit? = some e) : Exit.Holds V e := by
  unfold exit? at settled
  split at settled
  · rename_i ended
    cases settled
    exact h.outcome ended
  · cases settled

theorem quiet (h : t.Promises V) (step : Quiet s t s' t') : t'.Promises V := by
  cases step with
  | act => exact h _ _
  | isFired => exact h _
  | gather hl hr =>
    obtain ⟨A, B, left, right, next⟩ := h
    exact next _ _ (left.exit hl) (right.exit hr)
  | fire | record | sleep | watch | wake | notice | splitBoth | splitFirst | idle => exact h

theorem winner {next : Bool → Exit H → Program H} {side : Bool} {o : Except Panic (Exit H)}
    (h : ∀ exit, o = .ok exit → (next side exit).Promises V) :
    (Task.winner next side o).Promises V := by
  cases o with
  | ok exit => exact h exit rfl
  | error => trivial

theorem acts (h : t.Promises V) (step : Acts s t d s' t') : t'.Promises V := by
  induction step generalizing V with
  | quiet step => exact h.quiet step
  | begin => exact h
  | refuse | answer => exact h _
  | panicLeft | panicRight => trivial
  | winLeft ended =>
    obtain ⟨A, B, left, -, next, -⟩ := h
    exact winner fun exit ok => next exit (left.outcome (ok ▸ ended))
  | winRight ended =>
    obtain ⟨A, B, -, right, -, next⟩ := h
    exact winner fun exit ok => next exit (right.outcome (ok ▸ ended))
  | bothLeft _ ih =>
    obtain ⟨A, B, left, rest⟩ := h
    exact ⟨A, B, ih left, rest⟩
  | bothRight _ ih =>
    obtain ⟨A, B, left, right, rest⟩ := h
    exact ⟨A, B, left, ih right, rest⟩
  | firstLeft _ ih =>
    obtain ⟨A, B, left, rest⟩ := h
    exact ⟨A, B, ih left, rest⟩
  | firstRight _ ih =>
    obtain ⟨A, B, left, right, rest⟩ := h
    exact ⟨A, B, left, ih right, rest⟩

/-- A move of the task may drive others first, and then the task itself does something. -/
theorem step {policy : Policy} {depth : Nat} (h : t.Promises V)
    (moved : t.step policy depth s = some (t', s')) : t'.Promises V := by
  have explained : t.Explained [] s s' t' := move_explained Store.moveSlot_driven moved
  cases explained with
  | itself step => exact h.acts step
  | others _ step => exact h.acts step

end Promises

end Task

end ScopedEffects
