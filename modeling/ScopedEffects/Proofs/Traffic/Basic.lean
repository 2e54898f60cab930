import ScopedEffects.Progress
import ScopedEffects.Proofs.Store.Lookup

/-! The traffic at a store: clients request instances, and factories run for them. A client is any
task of user code. A happening is one thing that a client or a factory does by itself, in whatever
order: nothing is said about who is driven by whom, so that the runs here include those in which
waiters drive the factories they wait for. -/

namespace ScopedEffects

variable {H : Host}

/-- What one thing that a task does means for requests. -/
inductive Deed (H : Host) where
  | quiet
  /-- A request begins to wait. The flag says that it has invoked the factory. -/
  | begun (via : Access) (key : Key) (w : Wait) (invokes : Bool)
  | refused (via : Access) (key : Key) (f : Failure H)
  | answered (w : Wait) (o : Except (Failure H) (AnyInstance H))
  | dropped (ws : List Wait)

namespace Task

/-- What the winner of a pair leaves to its task. -/
def winner (next : Bool → Exit H → Program H) (side : Bool) : Except Panic (Exit H) → Program H
  | .ok e => next side e
  | .error p => .panic p

inductive Quiet (s : Store H) : Task H → Store H → Task H → Prop
  | act {u next} :
      Quiet s (run (.act u next)) { s with user := u s.now s.user } (run (next s.now s.user))
  | fire {g next} : Quiet s (run (.fire g next)) (s.fire g) (run next)
  | isFired {g next} : Quiet s (run (.isFired g next)) s (run (next (s.isFired g)))
  | record {e next} : Quiet s (run (.record e next)) (s.record e) (run next)
  | sleep {d next} : Quiet s (run (.sleep d next)) s (sleeping (s.now + d.ticks) next)
  | watch {g next} : Quiet s (run (.awaitSignal g next)) s (watching g next)
  | wake {till next} (h : till ≤ s.now) : Quiet s (sleeping till next) s (run next)
  | notice {g next} (h : s.isFired g = true) : Quiet s (watching g next) s (run next)
  | splitBoth {l r next} : Quiet s (run (.both l r next)) s (both (run l) (run r) {} next)
  | splitFirst {l r next} : Quiet s (run (.first l r next)) s (first (run l) (run r) {} next)
  | gather {l r poll next a b} (hl : l.exit? = some a) (hr : r.exit? = some b) :
      Quiet s (both l r poll next) s (run (next a b))
  | idle {t} : Quiet s t s t

/-- One thing that a task does by itself, at any depth of the tasks that it runs side by side. -/
inductive Acts (s : Store H) : Task H → Deed H → Store H → Task H → Prop
  | quiet {t s' t'} (h : Quiet s t s' t') : Acts s t .quiet s' t'
  | begin {via key next w s'} (h : s.request via key = (.waiting w, s')) :
      Acts s (run (.get via key next)) (.begun via key w (s.slot? w.scope w.key).isNone) s'
        (waiting w next)
  | refuse {via key next f s'} (h : s.request via key = (.refused f, s')) :
      Acts s (run (.get via key next)) (.refused via key f) s' (run (next (.error f)))
  | answer {w next o} (h : s.answer? w = some o) :
      Acts s (waiting w next) (.answered w o) (s.finishWait w) (run (next o))
  | panicLeft {l r poll next p} (h : l.panic? = some p) :
      Acts s (both l r poll next) (.dropped r.waits) (r.drop s) (run (.panic p))
  | panicRight {l r poll next p} (h : r.panic? = some p) :
      Acts s (both l r poll next) (.dropped l.waits) (l.drop s) (run (.panic p))
  | winLeft {l r poll next o} (h : l.outcome? = some o) :
      Acts s (first l r poll next) (.dropped r.waits) (r.drop s) (run (winner next false o))
  | winRight {l r poll next o} (h : r.outcome? = some o) :
      Acts s (first l r poll next) (.dropped l.waits) (l.drop s) (run (winner next true o))
  | bothLeft {l r poll poll' next d s' l'} (h : Acts s l d s' l') :
      Acts s (both l r poll next) d s' (both l' r poll' next)
  | bothRight {l r poll poll' next d s' r'} (h : Acts s r d s' r') :
      Acts s (both l r poll next) d s' (both l r' poll' next)
  | firstLeft {l r poll poll' next d s' l'} (h : Acts s l d s' l') :
      Acts s (first l r poll next) d s' (first l' r poll' next)
  | firstRight {l r poll poll' next d s' r'} (h : Acts s r d s' r') :
      Acts s (first l r poll next) d s' (first l r' poll' next)

end Task

structure Traffic (H : Host) where
  store : Store H
  clients : List (Task H) := []

/-- Who does something: a client, or the factory of a key in a context. -/
inductive Actor where
  | client (i : Nat)
  | factory (p : Place)
  deriving DecidableEq

inductive Happening (H : Host) where
  | acted (who : Actor) (deed : Deed H)
  /-- The program of a factory has ended, and its resolution settles. -/
  | settled (p : Place) (o : Except (Failure H) (AnyInstance H))
  | arrived (p : Program H)
  | left (i : Nat)
  | opened (p : Provider H)
  | layered (c : Scope) (p : Provider H)
  | held (c : Scope)
  | released (c : Scope)
  /-- Time passes, signals fire, or user code does something else. -/
  | elsewhere

/-- Something that goes on among the tasks themselves. -/
def Happening.Inner : Happening H → Prop
  | .acted .. | .settled .. => True
  | _ => False

namespace Traffic

inductive Step : Traffic H → Happening H → Traffic H → Prop
  | client {s cs i t d s' t'} (ht : cs[i]? = some t) (h : t.Acts s d s' t') :
      Step ⟨s, cs⟩ (.acted (.client i) d) ⟨s', cs.set i t'⟩
  | factory {s cs} {p : Place} {t d s' t'} (ht : s.slot? p.1 p.2 = some (.running t))
      (h : t.Acts s d s' t') :
      Step ⟨s, cs⟩ (.acted (.factory p) d) ⟨s'.setSlot p.1 p.2 (.running t'), cs⟩
  | settle {s cs} {p : Place} {t o w} (ht : s.slot? p.1 p.2 = some (.running t))
      (ho : t.outcome? = some o) (hw : w.place = p) :
      Step ⟨s, cs⟩ (.settled p (s.slotOutcome w o))
        ⟨s.setSlot p.1 p.2 (.settled (s.slotOutcome w o)), cs⟩
  | arrive {s cs p} : Step ⟨s, cs⟩ (.arrived p) ⟨s, cs ++ [.run p]⟩
  | leave {s cs i t} (ht : cs[i]? = some t) : Step ⟨s, cs⟩ (.left i) ⟨t.drop s, cs.eraseIdx i⟩
  | openBase {s cs p g} : Step ⟨s, cs⟩ (.opened p) ⟨(s.openBase p g).2, cs⟩
  | openLayer {s cs c p} : Step ⟨s, cs⟩ (.layered c p) ⟨(s.layer c p).2, cs⟩
  | hold {s cs c} : Step ⟨s, cs⟩ (.held c) ⟨s.retain c, cs⟩
  | release {s cs c} : Step ⟨s, cs⟩ (.released c) ⟨s.release c, cs⟩
  | elsewhere {s s' cs} (h : s.SameContexts s') : Step ⟨s, cs⟩ .elsewhere ⟨s', cs⟩

inductive Run : Traffic H → List (Happening H) → Traffic H → Prop
  | nil (σ) : Run σ [] σ
  | snoc {σ L τ h ρ} (run : Run σ L τ) (step : Step τ h ρ) : Run σ (L ++ [h]) ρ

theorem Run.single {σ τ : Traffic H} {h : Happening H} (step : Step σ h τ) : Run σ [h] τ :=
  .snoc (.nil σ) step

theorem Run.append {σ τ ρ : Traffic H} {L M : List (Happening H)} (run : Run σ L τ)
    (run' : Run τ M ρ) : Run σ (L ++ M) ρ := by
  induction run' with
  | nil => simpa using run
  | snoc _ step ih => rw [← List.append_assoc]; exact .snoc ih step

end Traffic

/-! What a deed does to the requests under way -/

namespace Deed

def started : Deed H → List Wait
  | .begun _ _ w _ => [w]
  | _ => []

def ended : Deed H → List Wait
  | .answered w _ => [w]
  | .dropped ws => ws
  | _ => []

def Effect (s : Store H) : Deed H → Store H → Prop
  | .quiet, s' => s.SameContexts s'
  | .begun via key w invokes, s' =>
    s.request via key = (.waiting w, s') ∧ invokes = (s.slot? w.scope w.key).isNone
  | .refused via key f, s' => s.request via key = (.refused f, s')
  | .answered w o, s' => s.answer? w = some o ∧ s' = s.finishWait w
  | .dropped ws, s' => s' = ws.foldl Store.finishWait s

end Deed

namespace Task

variable {s s' : Store H} {t t' : Task H} {d : Deed H}

@[simp] theorem waits_run (p : Program H) : (run p).waits = [] := rfl

@[simp] theorem waits_waiting (w : Wait)
    (next : Except (Failure H) (AnyInstance H) → Program H) : (waiting w next).waits = [w] := rfl

@[simp] theorem waits_both (l r : Task H) (poll : Poll) (next : Exit H → Exit H → Program H) :
    (both l r poll next).waits = l.waits ++ r.waits := rfl

@[simp] theorem waits_first (l r : Task H) (poll : Poll) (next : Bool → Exit H → Program H) :
    (first l r poll next).waits = l.waits ++ r.waits := rfl

theorem waits_of_exit? {t : Task H} {a : Exit H} (h : t.exit? = some a) : t.waits = [] := by
  cases t <;> simp_all [exit?, outcome?, waits]

theorem waits_of_outcome? {t : Task H} {o : Except Panic (Exit H)} (h : t.outcome? = some o) :
    t.waits = [] := by
  cases t <;> simp_all [outcome?, waits]

theorem waits_of_panic? {t : Task H} {p : Panic} (h : t.panic? = some p) : t.waits = [] := by
  cases t <;> simp_all [panic?, outcome?, waits]

theorem Quiet.sameContexts (h : Quiet s t s' t') : s.SameContexts s' := by
  cases h with
  | fire => exact s.sameContexts_fire _
  | record => exact s.sameContexts_record _
  | _ => exact ⟨rfl, rfl⟩

theorem Quiet.waits (h : Quiet s t s' t') : t'.waits = t.waits := by
  cases h with
  | gather hl hr =>
    rw [waits_run, waits_both, waits_of_exit? hl, waits_of_exit? hr, List.nil_append]
  | _ => rfl

theorem Acts.effect (h : Acts s t d s' t') : d.Effect s s' := by
  induction h with
  | quiet h => exact h.sameContexts
  | begin h => exact ⟨h, rfl⟩
  | refuse h => exact h
  | answer h => exact ⟨h, rfl⟩
  | panicLeft | panicRight | winLeft | winRight => rfl
  | bothLeft _ ih | bothRight _ ih | firstLeft _ ih | firstRight _ ih => exact ih

/-- The requests under way change by those that begin and those that are over. -/
theorem Acts.count_waits (h : Acts s t d s' t') (w : Wait) :
    t'.waits.count w + d.ended.count w = t.waits.count w + d.started.count w := by
  induction h with
  | quiet h => rw [h.waits]; rfl
  | begin | refuse | answer => simp [Deed.ended, Deed.started]
  | panicLeft h | panicRight h => simp [Deed.ended, Deed.started, waits_of_panic? h]
  | winLeft h | winRight h => simp [Deed.ended, Deed.started, waits_of_outcome? h]
  | bothLeft _ ih | bothRight _ ih | firstLeft _ ih | firstRight _ ih =>
    simp only [waits_both, waits_first, List.count_append]
    omega

theorem Acts.mem_of_ended (h : Acts s t d s' t') {w : Wait} (hw : w ∈ d.ended) : w ∈ t.waits := by
  induction h with
  | quiet | begin | refuse => cases hw
  | answer => exact hw
  | panicLeft h | winLeft h => exact List.mem_append_right _ hw
  | panicRight h | winRight h => exact List.mem_append_left _ hw
  | bothLeft _ ih | firstLeft _ ih => exact List.mem_append_left _ (ih hw)
  | bothRight _ ih | firstRight _ ih => exact List.mem_append_right _ (ih hw)

theorem Acts.mem_waits (h : Acts s t d s' t') {w : Wait} (hw : w ∈ t'.waits) :
    w ∈ t.waits ∨ w ∈ d.started := by
  have hc := h.count_waits w
  have : 0 < t'.waits.count w := List.count_pos_iff.2 hw
  by_cases hs : w ∈ d.started
  · exact .inr hs
  · rw [List.count_eq_zero.2 hs] at hc
    exact .inl (List.count_pos_iff.1 (by omega))

end Task

end ScopedEffects
