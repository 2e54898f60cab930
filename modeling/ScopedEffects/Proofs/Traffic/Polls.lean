import ScopedEffects.Proofs.Traffic.Effect

/-! A poll of a client is a run of the traffic. The client moves by itself, or it drives a
resolution that it waits for, and through it perhaps others; in the second case nothing but the
queues of its own branches changes. A resolution that is being driven is left alone meanwhile. -/

namespace ScopedEffects

variable {H : Host} {s s' : Store H} {busy : List Place} {L : List (Happening H)}

/-- What factories do by themselves, those in `busy` apart. -/
inductive Store.Driven (busy : List Place) : Store H → List (Happening H) → Store H → Prop
  | nil (s : Store H) : Driven busy s [] s
  | act {s L s₁ p t d s₂ t'} (before : Driven busy s L s₁) (hp : p ∉ busy)
      (ht : s₁.slot? p.1 p.2 = some (.running t)) (h : t.Acts s₁ d s₂ t') :
      Driven busy s (L ++ [.acted (.factory p) d]) (s₂.setSlot p.1 p.2 (.running t'))
  | settle {s L s₁ p t o w} (before : Driven busy s L s₁) (hp : p ∉ busy)
      (ht : s₁.slot? p.1 p.2 = some (.running t)) (ho : t.outcome? = some o) (hw : w.place = p) :
      Driven busy s (L ++ [.settled p (s₁.slotOutcome w o)])
        (s₁.setSlot p.1 p.2 (.settled (s₁.slotOutcome w o)))

namespace Store

theorem slot?_setSlot_ne {p q : Place} (h : q ≠ p) (s : Store H) (x : Slot H) :
    (s.setSlot p.1 p.2 x).slot? q.1 q.2 = s.slot? q.1 q.2 := by
  cases hc : s.context? p.1 with
  | none =>
    unfold slot?
    rw [context?_setSlot]
    split
    · rename_i hd
      rw [hd, hc]
      rfl
    · rfl
  | some z =>
    rw [slot?_setSlot hc, if_neg]
    exact fun he => h (Prod.ext he.1 he.2)

theorem slot?_setSlot_self {p : Place} {y : Slot H} (h : s.slot? p.1 p.2 = some y) (x : Slot H) :
    (s.setSlot p.1 p.2 x).slot? p.1 p.2 = some x := by
  obtain ⟨z, hz, -⟩ := exists_context?_of_slot? h
  rw [slot?_setSlot hz, if_pos ⟨rfl, rfl⟩]

theorem Driven.weaken {q : Place} (h : Driven (q :: busy) s L s') : Driven busy s L s' := by
  induction h with
  | nil => exact .nil _
  | act _ hp ht h ih => exact .act ih (fun hq => hp (List.mem_cons_of_mem _ hq)) ht h
  | settle _ hp ht ho hw ih => exact .settle ih (fun hq => hp (List.mem_cons_of_mem _ hq)) ht ho hw

theorem Driven.slot?_of_busy (h : Driven busy s L s') {q : Place} (hq : q ∈ busy) {x : Slot H}
    (hx : s.slot? q.1 q.2 = some x) : s'.slot? q.1 q.2 = some x := by
  induction h with
  | nil => exact hx
  | act _ hp _ h ih =>
    rw [slot?_setSlot_ne (ne_of_mem_of_not_mem hq hp)]
    exact h.effect.slot?_of_some ih
  | settle _ hp _ _ _ ih =>
    rw [slot?_setSlot_ne (ne_of_mem_of_not_mem hq hp)]
    exact ih

theorem Driven.run (h : Driven busy s L s') (cs : List (Task H)) :
    Traffic.Run ⟨s, cs⟩ L ⟨s', cs⟩ := by
  induction h with
  | nil => exact .nil _
  | act _ _ ht h ih => exact .snoc ih (.factory ht h)
  | settle _ _ ht ho hw ih => exact .snoc ih (.settle ht ho hw)

theorem Driven.inner (h : Driven busy s L s') : ∀ e ∈ L, e.Inner := by
  induction h with
  | nil => exact fun _ he => nomatch he
  | act _ _ _ _ ih | settle _ _ _ _ _ ih =>
    intro e he
    rcases List.mem_append.1 he with he | he
    · exact ih e he
    · rw [List.mem_singleton.1 he]
      trivial

end Store

namespace Task

/-- A move of a task: it does something by itself, or it drives what one of its requests waits for,
and at most its polls change. -/
inductive Moved (d : Driving H) (s : Store H) (t : Task H) (s' : Store H) : Task H → Prop
  | itself {e t'} (h : t.Acts s e s' t') : Moved d s t s' t'
  | drives {policy depth w t'} (hw : w ∈ t.waits) (h : d.move policy depth w s = some s')
      (ht : t.Acts s' .quiet s' t') : Moved d s t s' t'

/-- A task around another one, of which it is the left or the right branch. -/
theorem Moved.within {d : Driving H} {t t' : Task H} (h : Moved d s t s' t') {f : Task H → Task H}
    {g : Poll → Task H → Task H}
    (hf : ∀ {s e s' u} poll, t.Acts s e s' u → (f t).Acts s e s' (g poll u))
    (waits : t.waits ⊆ (f t).waits) (poll : Poll) : Moved d s (f t) s' (g poll t') := by
  cases h with
  | itself h => exact .itself (hf poll h)
  | drives hw h ht => exact .drives (waits hw) h (hf poll ht)

theorem moved_of_advance {d : Driving H} {p : Program H} {t' : Task H}
    (h : advance s p = some (t', s')) : Moved d s (run p) s' t' := by
  cases p with
  | done | panic => cases h
  | act => cases h; exact .itself (.quiet .act)
  | fire => cases h; exact .itself (.quiet .fire)
  | isFired => cases h; exact .itself (.quiet .isFired)
  | record => cases h; exact .itself (.quiet .record)
  | sleep => cases h; exact .itself (.quiet .sleep)
  | awaitSignal => cases h; exact .itself (.quiet .watch)
  | both => cases h; exact .itself (.quiet .splitBoth)
  | first => cases h; exact .itself (.quiet .splitFirst)
  | get via key next =>
    unfold advance at h
    rcases hr : s.request via key with ⟨f | w, s₁⟩
    · simp only [hr] at h
      cases h
      exact .itself (.refuse hr)
    · simp only [hr] at h
      cases h
      exact .itself (.begin hr)

theorem moved_of_move {policy : Policy} {d : Driving H} {depth : Nat} {t t' : Task H}
    (h : t.move policy d depth s = some (t', s')) : Moved d s t s' t' := by
  induction t generalizing policy depth s s' t' with
  | run p => exact moved_of_advance h
  | sleeping till next =>
    unfold move at h
    split at h
    · rename_i hn
      cases h
      exact .itself (.quiet (.wake hn))
    · cases h
  | watching g next =>
    unfold move at h
    split at h
    · rename_i hn
      cases h
      exact .itself (.quiet (.notice hn))
    · cases h
  | waiting w next =>
    unfold move at h
    cases ha : s.answer? w with
    | some o =>
      simp only [ha] at h
      cases h
      exact .itself (.answer ha)
    | none =>
      simp only [ha] at h
      obtain ⟨s₁, hm, he⟩ := Option.map_eq_some_iff.1 h
      cases he
      exact .drives (List.mem_singleton.2 rfl) hm (.quiet .idle)
  | both l r poll next ihl ihr =>
    unfold move at h
    split at h
    · rename_i hp
      cases h
      exact .itself (.panicLeft hp)
    · rename_i hp _
      cases h
      exact .itself (.panicRight hp)
    · rename_i ha hb _ _
      cases h
      exact .itself (.quiet (.gather ha hb))
    · dsimp only at h
      split at h
      · obtain ⟨⟨u, s₁⟩, hm, he⟩ := Option.map_eq_some_iff.1 h
        cases he
        exact (ihl hm).within (f := fun u => both u r poll next)
          (g := fun poll u => both u r poll next) (fun _ => .bothLeft) (List.subset_append_left ..) _
      · obtain ⟨⟨u, s₁⟩, hm, he⟩ := Option.map_eq_some_iff.1 h
        cases he
        exact (ihr hm).within (f := fun u => both l u poll next)
          (g := fun poll u => both l u poll next) (fun _ => .bothRight) (List.subset_append_right ..)
          _
      · cases h
  | first l r poll next ihl ihr =>
    unfold move at h
    split at h
    · rename_i ho
      cases h
      exact .itself (.winLeft ho)
    · rename_i ho
      cases h
      exact .itself (.winLeft ho)
    · rename_i ho
      cases h
      exact .itself (.winRight ho)
    · rename_i ho
      cases h
      exact .itself (.winRight ho)
    · dsimp only at h
      split at h
      · obtain ⟨⟨u, s₁⟩, hm, he⟩ := Option.map_eq_some_iff.1 h
        cases he
        exact (ihl hm).within (f := fun u => first u r poll next)
          (g := fun poll u => first u r poll next) (fun _ => .firstLeft) (List.subset_append_left ..)
          _
      · obtain ⟨⟨u, s₁⟩, hm, he⟩ := Option.map_eq_some_iff.1 h
        cases he
        exact (ihr hm).within (f := fun u => first l u poll next)
          (g := fun poll u => first l u poll next) (fun _ => .firstRight)
          (List.subset_append_right ..) _
      · cases h

/-- A move of a task: it does something by itself, or others are driven and at most its polls
change. -/
inductive Explained (busy : List Place) (s : Store H) (t : Task H) (s' : Store H) : Task H → Prop
  | itself {d t'} (h : t.Acts s d s' t') : Explained busy s t s' t'
  | others {L t'} (h : Store.Driven busy s L s') (ht : t.Acts s' .quiet s' t') :
      Explained busy s t s' t'

theorem move_explained {policy : Policy} {d : Driving H}
    (hd : ∀ {policy depth w s s'}, d.move policy depth w s = some s' → ∃ L, Store.Driven busy s L s')
    {depth : Nat} {t t' : Task H} (h : t.move policy d depth s = some (t', s')) :
    Explained busy s t s' t' := by
  cases moved_of_move h with
  | itself h => exact .itself h
  | drives _ hm ht =>
    obtain ⟨L, hL⟩ := hd hm
    exact .others hL ht

end Task

theorem Store.moveSlot_driven {policy : Policy} {fuel depth : Nat} {w : Wait}
    (h : s.moveSlot fuel busy policy depth w = some s') : ∃ L, Store.Driven busy s L s' := by
  induction fuel generalizing busy policy depth w s s' with
  | zero => cases h
  | succ fuel ih =>
    unfold moveSlot at h
    split at h
    · cases h
    · rename_i hb
      have hb : w.place ∉ busy := by simpa using hb
      split at h
      · rename_i t ht
        split at h
        · rename_i o ho
          cases h
          exact ⟨_, .settle (.nil s) hb ht ho rfl⟩
        · obtain ⟨⟨u, s₁⟩, hm, he⟩ := Option.map_eq_some_iff.1 h
          cases he
          have explained : t.Explained (w.place :: busy) s s₁ u := Task.move_explained ih hm
          cases explained with
          | itself hu => exact ⟨_, .act (p := w.place) (.nil s) hb ht hu⟩
          | others hL hu =>
            -- the place was busy all the while, so its slot still holds the task
            have ht' := hL.slot?_of_busy List.mem_cons_self ht
            exact ⟨_, .act hL.weaken hb ht' hu⟩
      · cases h

/-- A poll of a client, under any policy, is a run in which the client and factories do something.
-/
theorem Traffic.run_of_step {σ : Traffic H} {i depth : Nat} {policy : Policy} {t t' : Task H}
    (ht : σ.clients[i]? = some t) (h : t.step policy depth σ.store = some (t', s')) :
    ∃ L, Run σ L ⟨s', σ.clients.set i t'⟩ ∧ ∀ e ∈ L, e.Inner := by
  obtain ⟨s, cs⟩ := σ
  have explained : t.Explained [] s s' t' := Task.move_explained Store.moveSlot_driven h
  cases explained with
  | @itself d _ h =>
    refine ⟨_, .single (.client ht h), fun e he => ?_⟩
    rw [List.mem_singleton.1 he]
    trivial
  | @others L _ hL h =>
    refine ⟨L ++ [.acted (.client i) .quiet], .snoc (hL.run cs) (.client ht h), fun e he => ?_⟩
    rcases List.mem_append.1 he with he | he
    · exact hL.inner e he
    · rw [List.mem_singleton.1 he]
      trivial

end ScopedEffects
