import ScopedEffects.Proofs.Traffic.Basic

/-! Which requests a program may make. A bound on all of them, however the program goes on, bounds
those that its task makes while it runs. -/

namespace ScopedEffects

variable {H : Host}

/-- All requests of a program, however it goes on, are among those that `ok` allows. -/
def Program.Requests (ok : Access → Key → Prop) : Program H → Prop
  | .done _ | .panic _ => True
  | .act _ next => ∀ now s, (next now s).Requests ok
  | .fire _ next | .record _ next | .sleep _ next | .awaitSignal _ next => next.Requests ok
  | .isFired _ next => ∀ b, (next b).Requests ok
  | .get via key next => ok via key ∧ ∀ r, (next r).Requests ok
  | .both l r next => l.Requests ok ∧ r.Requests ok ∧ ∀ a b, (next a b).Requests ok
  | .first l r next => l.Requests ok ∧ r.Requests ok ∧ ∀ side e, (next side e).Requests ok

def Task.Requests (ok : Access → Key → Prop) : Task H → Prop
  | .run p => p.Requests ok
  | .sleeping _ next | .watching _ next => next.Requests ok
  | .waiting _ next => ∀ r, (next r).Requests ok
  | .both l r _ next => l.Requests ok ∧ r.Requests ok ∧ ∀ a b, (next a b).Requests ok
  | .first l r _ next => l.Requests ok ∧ r.Requests ok ∧ ∀ side e, (next side e).Requests ok

/-- The request that is made, if one is. -/
def Deed.request? : Deed H → Option (Access × Key)
  | .begun via key _ _ | .refused via key _ => some (via, key)
  | _ => none

namespace Task

variable {ok : Access → Key → Prop} {s s' : Store H} {t t' : Task H} {d : Deed H}

theorem requests_winner {next : Bool → Exit H → Program H}
    (h : ∀ side e, (next side e).Requests ok) (side : Bool) (o : Except Panic (Exit H)) :
    (winner next side o).Requests ok := by
  cases o with
  | ok e => exact h side e
  | error p => trivial

theorem Quiet.requests (h : Quiet s t s' t') (ht : t.Requests ok) : t'.Requests ok := by
  cases h with
  | act => exact ht _ _
  | isFired => exact ht _
  | gather => exact ht.2.2 _ _
  | _ => exact ht

theorem Acts.requests (h : Acts s t d s' t') (ht : t.Requests ok) : t'.Requests ok := by
  induction h with
  | quiet h => exact h.requests ht
  | begin => exact ht.2
  | refuse => exact ht.2 _
  | answer => exact ht _
  | panicLeft | panicRight => trivial
  | winLeft | winRight => exact requests_winner ht.2.2 _ _
  | bothLeft _ ih | firstLeft _ ih => exact ⟨ih ht.1, ht.2⟩
  | bothRight _ ih | firstRight _ ih => exact ⟨ht.1, ih ht.2.1, ht.2.2⟩

theorem Acts.requested (h : Acts s t d s' t') (ht : t.Requests ok) {via : Access} {key : Key}
    (hr : d.request? = some (via, key)) : ok via key := by
  induction h with
  | begin | refuse => cases hr; exact ht.1
  | bothLeft _ ih | firstLeft _ ih => exact ih ht.1 hr
  | bothRight _ ih | firstRight _ ih => exact ih ht.2.1 hr
  | _ => cases hr

end Task

end ScopedEffects
