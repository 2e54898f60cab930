import ScopedEffects.Proofs.Traffic.Slots

/-! One invocation for each key of each context, and one outcome. The log of a run shows each place
either untouched, or with a single invocation whose program has gone on ever since. All answers
given at a place are the outcome that it settled with. -/

namespace ScopedEffects

variable {H : Host}

namespace Traffic

variable {σ τ : Traffic H} {L M : List (Happening H)} {p : Place} {f : Factory H} {r : Resolver}

/-- Until the place has a slot, the log shows no invocation there; from then on, it shows one, and
the slot is as far as the program that was begun has come since. -/
def Recorded (L : List (Happening H)) (σ : Traffic H) (p : Place) : Prop :=
  σ.store.slot? p.1 p.2 = none ∧ L.countP (·.invokes p) = 0 ∨
    ∃ f r before e since x, L = before ++ e :: since ∧ e.invokes p = true ∧
      L.countP (·.invokes p) = 1 ∧ σ.store.Binds p f r ∧ σ.store.slot? p.1 p.2 = some x ∧
      f.GoesOn r (.running (.run (f.program r))) since x

theorem countP_snoc {e : Happening H} (h : e.invokes p = false) :
    (L ++ [e]).countP (·.invokes p) = L.countP (·.invokes p) := by
  simp [List.countP_append, h]

theorem Recorded.step {e : Happening H} (h : Recorded L σ p) (hn : σ.store.Numbered)
    (hs : Step σ e τ) : Recorded (L ++ [e]) τ p := by
  rcases h with ⟨none, count⟩ | ⟨f, r, before, i, since, x, rfl, hi, count, hb, hx, path⟩
  -- a slot that comes to be is the invocation, and everything after it belongs to `since`
  · rcases hs.begins hn none with ⟨none', still⟩ | ⟨f, r, invokes, hb, hx⟩
    · exact .inl ⟨none', (countP_snoc still).trans count⟩
    · refine .inr ⟨f, r, L, e, [], _, rfl, invokes, ?_, hb, hx, .nil _⟩
      simp [List.countP_append, count, invokes]
  · obtain ⟨still, y, hy, next⟩ := hs.goes hn hb hx
    have bound := (hs.fixed hn hb.choose_spec.1).binds hb
    refine .inr ⟨f, r, before, i, since ++ [e], y, by simp, hi, ?_, bound, hy, path.snoc next⟩
    exact (countP_snoc still).trans count

theorem Recorded.binds (h : Recorded L σ p) {x : Slot H} (hx : σ.store.slot? p.1 p.2 = some x) :
    ∃ f r, σ.store.Binds p f r := by
  rcases h with ⟨none, -⟩ | ⟨f, r, -, -, -, -, -, -, -, hb, -, -⟩
  · rw [none] at hx
    cases hx
  · exact ⟨f, r, hb⟩

structure Logged (L : List (Happening H)) (σ : Traffic H) : Prop where
  numbered : σ.store.Numbered
  recorded : ∀ p, Recorded L σ p
  answered : ∀ who w o, .acted who (.answered w o) ∈ L →
    σ.store.slot? w.scope w.key = some (.settled o)
  settled : ∀ p o, .settled p o ∈ L → σ.store.slot? p.1 p.2 = some (.settled o)

namespace Logged

theorem empty {s : Store H} (h : s.contexts = .empty) : Logged [] ⟨s, []⟩ := by
  have none : ∀ c, s.context? c = none := fun c => by rw [Store.context?, h]; rfl
  constructor
  · intro c x hx
    have hx : s.context? c = some x := hx
    rw [none c] at hx
    cases hx
  · intro p
    refine .inl ⟨?_, rfl⟩
    show s.slot? p.1 p.2 = .none
    rw [Store.slot?, none p.1]
    rfl
  · exact fun _ _ _ he => (List.not_mem_nil he).elim
  · exact fun _ _ he => (List.not_mem_nil he).elim

theorem settled_step {e : Happening H} (h : Logged L σ) (hs : Step σ e τ) {p : Place}
    {o : Except (Failure H) (AnyInstance H)} (hx : σ.store.slot? p.1 p.2 = some (.settled o)) :
    τ.store.slot? p.1 p.2 = some (.settled o) := by
  obtain ⟨f, r, hb⟩ := (h.recorded p).binds hx
  obtain ⟨-, y, hy, next⟩ := hs.goes h.numbered hb hx
  rw [hy, next.settled]

theorem answer_settled {s : Store H} {w : Wait} {o : Except (Failure H) (AnyInstance H)}
    (h : s.answer? w = some o) : s.slot? w.scope w.key = some (.settled o) := by
  unfold Store.answer? at h
  split at h
  · rename_i hs
    cases h
    exact hs
  · cases h

theorem step {e : Happening H} (h : Logged L σ) (hs : Step σ e τ) : Logged (L ++ [e]) τ := by
  constructor
  · exact hs.numbered h.numbered
  · exact fun p => (h.recorded p).step h.numbered hs
  · intro who w o he
    refine h.settled_step hs (p := w.place) ?_
    rcases List.mem_append.1 he with he | he
    · exact h.answered who w o he
    · cases List.mem_singleton.1 he
      cases hs with
      | client _ ha => exact answer_settled ha.effect.1
      | factory _ ha => exact answer_settled ha.effect.1
  · intro p o he
    rcases List.mem_append.1 he with he | he
    · exact h.settled_step hs (h.settled p o he)
    · cases List.mem_singleton.1 he
      cases hs with
      | settle ht => exact Store.slot?_setSlot_self ht _

theorem run (h : Logged L σ) (hr : Run σ M τ) : Logged (L ++ M) τ := by
  induction hr with
  | nil => simpa using h
  | snoc _ hs ih =>
    rw [← List.append_assoc]
    exact ih.step hs

/-- However long it takes until a resolution goes on, it goes on from where it was. -/
theorem goesOn (h : Logged L σ) (hr : Run σ M τ) {x : Slot H}
    (hb : σ.store.Binds p f r) (hx : σ.store.slot? p.1 p.2 = some x) :
    M.countP (·.invokes p) = 0 ∧ τ.store.Binds p f r ∧
      ∃ y, τ.store.slot? p.1 p.2 = some y ∧ f.GoesOn r x M y := by
  induction hr with
  | nil => exact ⟨rfl, hb, x, hx, .nil x⟩
  | snoc before hs ih =>
    obtain ⟨count, bound, y, hy, path⟩ := ih
    have numbered := (h.run before).numbered
    obtain ⟨still, z, hz, next⟩ := hs.goes numbered bound hy
    refine ⟨(countP_snoc still).trans count, ?_, z, hz, path.snoc next⟩
    exact (hs.fixed numbered bound.choose_spec.1).binds bound

end Logged

end Traffic

/-! Requests at a type -/

namespace Token

end Token

namespace Task

end Task

theorem Store.scope_layer (s : Store H) (c : Scope) (p : Provider H) :
    (s.layer c p).1 = c.push p.identity := by
  unfold layer
  dsimp only
  split <;> rfl

namespace Traffic

def numberProvider : Provider Host.counting :=
  ⟨0, OrderedMap.empty.set "N"
    (.make (.plain ()) fun _ => .done (.ok ⟨.bare (.plain ()), (7 : Nat)⟩))⟩

/-- The number that the first context over the provider makes. -/
def madeNumber : AnyInstance Host.counting := ⟨.plain (), ⟨.made ⟨0, []⟩ "N", (7 : Nat)⟩⟩

def requestOfNumber : Program Host.counting :=
  .get (.context ⟨0, []⟩) "N" fun _ => .done (.ok ⟨.unit, ()⟩)

end Traffic

end ScopedEffects
