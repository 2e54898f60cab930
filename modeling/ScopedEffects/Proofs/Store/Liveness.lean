import ScopedEffects.Proofs.Traffic.Slots

/-! Which contexts live, and which serve a key. A context lives when it is held, or when the context
below it lives, so that a tree of contexts lives as long as its base is held. Requests, waits and
slots change nothing about it. A context that is there stays there with its provider, and as long as
its tree lives, the same context serves its requests for a key. -/

namespace ScopedEffects

variable {H : Host} {s s' : Store H}

namespace Store

def Held (s : Store H) (c : Scope) : Prop := ∃ x, s.context? c = some x ∧ 0 < x.handles

/-- A context is opened over one that is there. -/
def Grounded (s : Store H) : Prop :=
  ∀ base p below, (s.context? ⟨base, p :: below⟩).isSome → (s.context? ⟨base, below⟩).isSome

theorem held_iff (s : Store H) (base : Nat) (layers : List Nat) :
    livesAt.held s base layers = true ↔ s.Held ⟨base, layers⟩ := by
  unfold livesAt.held Held
  cases s.context? ⟨base, layers⟩ with
  | none => simp
  | some x => simp

theorem lives_nil (s : Store H) (base : Nat) : s.lives ⟨base, []⟩ = true ↔ s.Held ⟨base, []⟩ := by
  rw [← held_iff]
  rfl

theorem lives_cons (s : Store H) (base p : Nat) (below : List Nat) :
    s.lives ⟨base, p :: below⟩ = true ↔ s.Held ⟨base, p :: below⟩ ∨
      (s.context? ⟨base, p :: below⟩).isSome ∧ s.lives ⟨base, below⟩ = true := by
  rw [← held_iff, ← Bool.and_eq_true, ← Bool.or_eq_true]
  rfl

theorem Held.lives {c : Scope} (h : s.Held c) : s.lives c = true := by
  obtain ⟨base, layers⟩ := c
  cases layers with
  | nil => exact (lives_nil s base).2 h
  | cons p below => exact (lives_cons s base p below).2 (.inl h)

theorem isSome_of_lives {c : Scope} (h : s.lives c = true) : (s.context? c).isSome := by
  have of_held : s.Held c → (s.context? c).isSome := fun ⟨x, hx, _⟩ => by rw [hx]; rfl
  obtain ⟨base, layers⟩ := c
  cases layers with
  | nil => exact of_held ((lives_nil s base).1 h)
  | cons p below => exact ((lives_cons s base p below).1 h).elim of_held And.left

theorem Grounded.isSome_of_suffix (h : s.Grounded) {base : Nat} {layers below : List Nat}
    (hx : (s.context? ⟨base, layers⟩).isSome) (hb : below <:+ layers) :
    (s.context? ⟨base, below⟩).isSome := by
  induction layers with
  | nil => rwa [List.suffix_nil.1 hb]
  | cons p rest ih =>
    rcases List.suffix_cons_iff.1 hb with rfl | hb
    · exact hx
    · exact ih (h base p rest hx) hb

/-- What lives now lived before, if all contexts on the way down that are held now lived before. -/
theorem lives_of_lives {base : Nat} {layers : List Nat} (hs : s.Grounded)
    (hx : (s.context? ⟨base, layers⟩).isSome)
    (held : ∀ below, below <:+ layers → s'.Held ⟨base, below⟩ → s.lives ⟨base, below⟩ = true)
    (h : s'.lives ⟨base, layers⟩ = true) : s.lives ⟨base, layers⟩ = true := by
  induction layers with
  | nil => exact held [] (List.suffix_refl _) ((lives_nil s' base).1 h)
  | cons p below ih =>
    rcases (lives_cons s' base p below).1 h with h | ⟨-, h⟩
    · exact held _ (List.suffix_refl _) h
    · have lower := ih (hs base p below hx)
        (fun ls hl => held ls (hl.trans (List.suffix_cons p below))) h
      exact (lives_cons s base p below).2 (.inr ⟨hx, lower⟩)

/-- A tree of contexts lives as long as its base does. -/
theorem lives_of_base (hs : s.Grounded) {base : Nat} (hb : s.lives ⟨base, []⟩ = true)
    {layers : List Nat} (hx : (s.context? ⟨base, layers⟩).isSome) :
    s.lives ⟨base, layers⟩ = true := by
  induction layers with
  | nil => exact hb
  | cons p below ih => exact (lives_cons s base p below).2 (.inr ⟨hx, ih (hs base p below hx)⟩)

/-! What keeps all handles -/

/-- The context is held by as many handles as before, and none is new. -/
def SameHandles (s s' : Store H) (c : Scope) : Prop :=
  (s'.context? c).map Context.handles = (s.context? c).map Context.handles

namespace SameHandles

variable {s'' : Store H} {c : Scope}

theorem refl (s : Store H) (c : Scope) : s.SameHandles s c := rfl

theorem trans (h : s.SameHandles s' c) (h' : s'.SameHandles s'' c) : s.SameHandles s'' c :=
  Eq.trans h' h

theorem isSome (h : s.SameHandles s' c) : (s'.context? c).isSome = (s.context? c).isSome := by
  rw [← Option.isSome_map (f := Context.handles), h, Option.isSome_map]

theorem held (h : s.SameHandles s' c) : s'.Held c ↔ s.Held c := by
  have exists_iff : ∀ t : Store H,
      t.Held c ↔ ∃ n, (t.context? c).map Context.handles = some n ∧ 0 < n := by
    intro t
    constructor
    · rintro ⟨x, hx, hn⟩
      exact ⟨x.handles, by rw [hx]; rfl, hn⟩
    · rintro ⟨n, hx, hn⟩
      obtain ⟨x, hy, rfl⟩ := Option.map_eq_some_iff.1 hx
      exact ⟨x, hy, hn⟩
  rw [exists_iff, exists_iff, h]

end SameHandles

theorem lives_congr (h : ∀ c, s.SameHandles s' c) (c : Scope) : s'.lives c = s.lives c := by
  obtain ⟨base, layers⟩ := c
  rw [Bool.eq_iff_iff]
  induction layers with
  | nil => rw [lives_nil, lives_nil, (h _).held]
  | cons p below ih => rw [lives_cons, lives_cons, (h _).held, (h _).isSome, ih]

theorem Grounded.congr (hs : s.Grounded) (h : ∀ c, s.SameHandles s' c) : s'.Grounded := by
  intro base p below hx
  rw [(h _).isSome] at hx ⊢
  exact hs base p below hx

theorem Grounded.changeHandles (hs : s.Grounded) (c : Scope) (f : Nat → Nat) :
    (s.changeHandles c f).Grounded := by
  have same : ∀ d, ((s.changeHandles c f).context? d).isSome = (s.context? d).isSome := by
    intro d
    rw [Store.changeHandles, context?_changeContext]
    by_cases hd : d = c
    · rw [if_pos hd, Option.isSome_map]
    · rw [if_neg hd]
  intro base p below hx
  rw [same] at hx ⊢
  exact hs base p below hx

theorem SameContexts.sameHandles (h : SameContexts s s') (c : Scope) : s.SameHandles s' c := by
  unfold SameHandles
  rw [h.context? c]

theorem sameHandles_changeContext {f : Context H → Context H}
    (hf : ∀ x, (f x).handles = x.handles) (s : Store H) (c d : Scope) :
    s.SameHandles (s.changeContext c f) d := by
  unfold SameHandles
  rw [context?_changeContext]
  split
  · cases s.context? d with
    | none => rfl
    | some x => simpa using hf x
  · rfl

theorem sameHandles_setSlot (s : Store H) (c d : Scope) (k : Key) (x : Slot H) :
    s.SameHandles (s.setSlot c k x) d :=
  sameHandles_changeContext (f := fun y => { y with slots := y.slots.set k x }) (fun _ => rfl) s c d

theorem sameHandles_countWait (s : Store H) (c d : Scope) (a b : Key) :
    s.SameHandles (s.countWait c a b) d :=
  sameHandles_changeContext (f := fun x => { x with waiting := x.waiting.add a b }) (fun _ => rfl)
    s c d

theorem sameHandles_join (s : Store H) (c d : Scope) (k : Key) :
    s.SameHandles (s.join c k) d := by
  rcases join_cases s c k with ⟨h, -⟩ | ⟨x, f, -, -, -, h⟩
  · exact h.sameHandles d
  · rw [h]
    exact sameHandles_setSlot (s.record _) c d k _

theorem sameHandles_finishWait (s : Store H) (w : Wait) (d : Scope) :
    s.SameHandles (s.finishWait w) d := by
  unfold SameHandles
  rcases context?_finishWait s w d with h | ⟨a, -, -, h⟩
  · rw [h]
  · rw [h]
    cases s.context? d <;> rfl

theorem sameHandles_finishWaits (ws : List Wait) (s : Store H) (d : Scope) :
    s.SameHandles (ws.foldl finishWait s) d := by
  induction ws generalizing s with
  | nil => rfl
  | cons w rest ih => exact (sameHandles_finishWait s w d).trans (ih (s.finishWait w))

theorem Admitted.sameHandles {via : Access} {key : Key} {w : Wait} (h : Admitted s via key w s')
    (c : Scope) : s.SameHandles s' c := by
  cases h with
  | counted => exact (sameHandles_countWait ..).trans (sameHandles_join ..)
  | plain => exact sameHandles_join ..

end Store

theorem Deed.Effect.sameHandles {d : Deed H} (h : d.Effect s s') (c : Scope) :
    s.SameHandles s' c := by
  cases d with
  | quiet => exact Store.SameContexts.sameHandles h c
  | begun => exact (Store.request_waiting h.1).sameHandles c
  | refused => exact (Store.request_refused h).1.sameHandles c
  | answered => rw [h.2]; exact Store.sameHandles_finishWait ..
  | dropped => rw [h]; exact Store.sameHandles_finishWaits ..

namespace Store

/-! Which context serves a key -/

/-- All contexts of `s` are there in `s'`, with their providers and signals. -/
def Extends (s s' : Store H) : Prop := ∀ c, (s.context? c).isSome → s.Fixed s' c

namespace Extends

variable {s'' : Store H} {c : Scope}

theorem refl (s : Store H) : s.Extends s := fun _ _ => rfl

theorem context? (h : s.Extends s') {x : Context H} (hx : s.context? c = some x) :
    ∃ y, s'.context? c = some y ∧ y.provider = x.provider ∧ y.signal = x.signal := by
  have hc := h c (by rw [hx]; rfl)
  unfold Fixed at hc
  rw [hx] at hc
  obtain ⟨y, hy, he⟩ := Option.map_eq_some_iff.1 hc
  exact ⟨y, hy, (Prod.mk.inj he).1, (Prod.mk.inj he).2⟩

theorem isSome (h : s.Extends s') (hc : (s.context? c).isSome) : (s'.context? c).isSome := by
  obtain ⟨x, hx⟩ := Option.isSome_iff_exists.1 hc
  obtain ⟨y, hy, -⟩ := h.context? hx
  rw [hy]
  rfl

theorem trans (h : s.Extends s') (h' : s'.Extends s'') : s.Extends s'' := fun c hc =>
  (h c hc).trans (h' c (h.isSome hc))

theorem binds (h : s.Extends s') {p : Place} {f : Factory H} {r : Resolver} (hb : s.Binds p f r) :
    s'.Binds p f r := by
  obtain ⟨x, hx, hf, rfl⟩ := hb
  obtain ⟨y, hy, hp, hg⟩ := h.context? hx
  exact ⟨y, hy, hp ▸ hf, by rw [hg]⟩

end Extends

theorem extends_of_fixed (h : ∀ c, s.Fixed s' c) : s.Extends s' := fun c _ => h c

theorem serving_nil (s : Store H) (base : Nat) (key : Key) :
    s.serving ⟨base, []⟩ key =
      if servingAt.bound s base key [] then .found ⟨base, []⟩ else .unbound := rfl

theorem serving_cons (s : Store H) (base p : Nat) (below : List Nat) (key : Key) :
    s.serving ⟨base, p :: below⟩ key =
      if servingAt.bound s base key (p :: below) then .found ⟨base, p :: below⟩
      else if s.lives ⟨base, below⟩ then s.serving ⟨base, below⟩ key else .gone := rfl

theorem Extends.bound (h : s.Extends s') {base : Nat} {layers : List Nat}
    (hx : (s.context? ⟨base, layers⟩).isSome) (key : Key) :
    servingAt.bound s' base key layers = servingAt.bound s base key layers := by
  obtain ⟨x, hx⟩ := Option.isSome_iff_exists.1 hx
  obtain ⟨y, hy, hp, -⟩ := h.context? hx
  simp only [servingAt.bound, hx, hy, hp]

/-- What serves a key in a tree that lives goes on serving it. -/
theorem Extends.serving (h : s.Extends s') (hs : s.Grounded) (hs' : s'.Grounded) {base : Nat}
    (hb : s.lives ⟨base, []⟩ = true) (hb' : s'.lives ⟨base, []⟩ = true) {layers : List Nat}
    (hx : (s.context? ⟨base, layers⟩).isSome) (key : Key) :
    s'.serving ⟨base, layers⟩ key = s.serving ⟨base, layers⟩ key := by
  induction layers with
  | nil => rw [serving_nil, serving_nil, h.bound hx]
  | cons p below ih =>
    have lower := hs base p below hx
    rw [serving_cons, serving_cons, h.bound hx, lives_of_base hs hb lower,
      lives_of_base hs' hb' (h.isSome lower), ih lower]

/-- In a tree that lives, nothing is lost below a context. -/
theorem serving_ne_gone (hs : s.Grounded) {base : Nat} (hb : s.lives ⟨base, []⟩ = true)
    {layers : List Nat} (hx : (s.context? ⟨base, layers⟩).isSome) (key : Key) :
    s.serving ⟨base, layers⟩ key ≠ .gone := by
  induction layers with
  | nil =>
    rw [serving_nil]
    split <;> exact Serving.noConfusion
  | cons p below ih =>
    have lower := hs base p below hx
    rw [serving_cons, lives_of_base hs hb lower]
    split
    · exact Serving.noConfusion
    · exact ih lower

/-- The context that serves a key serves it to its own requests too. -/
theorem serving_of_found {c d : Scope} {key : Key} (h : s.serving c key = .found d) :
    s.serving d key = .found d := by
  obtain ⟨x, hx, hk⟩ := serving_found h
  obtain ⟨base, layers⟩ := d
  have bound : servingAt.bound s base key layers = true := by simp [servingAt.bound, hx, hk]
  cases layers with
  | nil => rw [serving_nil, if_pos bound]
  | cons p below => rw [serving_cons, if_pos bound]

theorem provides_cons (s : Store H) (base p : Nat) (below : List Nat) (key : Key) :
    s.provides ⟨base, p :: below⟩ key = true ↔ servingAt.bound s base key (p :: below) = true ∨
      s.lives ⟨base, below⟩ = true ∧ s.provides ⟨base, below⟩ key = true := by
  rw [← Bool.and_eq_true, ← Bool.or_eq_true]
  rfl

/-- A key is provided where some context serves it. -/
theorem provides_iff {c : Scope} {key : Key} :
    s.provides c key = true ↔ ∃ d, s.serving c key = .found d := by
  obtain ⟨base, layers⟩ := c
  induction layers with
  | nil =>
    have same : s.provides ⟨base, []⟩ key = servingAt.bound s base key [] := rfl
    rw [same, serving_nil]
    split
    · rename_i hb
      exact ⟨fun _ => ⟨_, rfl⟩, fun _ => hb⟩
    · rename_i hb
      exact ⟨fun h => absurd h hb, fun ⟨_, h⟩ => nomatch h⟩
  | cons p below ih =>
    rw [provides_cons, serving_cons]
    split
    · rename_i hb
      exact ⟨fun _ => ⟨_, rfl⟩, fun _ => .inl hb⟩
    · rename_i hb
      split
      · rename_i hl
        rw [← ih]
        exact ⟨fun h => h.elim (absurd · hb) And.right, fun h => .inr ⟨hl, h⟩⟩
      · rename_i hl
        exact ⟨fun h => h.elim (absurd · hb) fun h => absurd h.1 hl, fun ⟨_, h⟩ => nomatch h⟩

end Store

end ScopedEffects
