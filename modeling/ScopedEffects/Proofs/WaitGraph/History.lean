import ScopedEffects.Proofs.WaitGraph.Mirror

/-! Graphs and their histories. However waits begin and end, and also when ends are told of that no
wait has, the graph counts for each pair the waits that have begun and are not over. A count that is
kept is never zero, an entry never empty, and the reverse edges say the same as the edges. -/

namespace ScopedEffects.WaitGraph

variable {g : WaitGraph} {a b : Key}

/-- A wait of `a` for `b` begins, or one is said to be over. -/
inductive Change where
  | begins (a b : Key)
  | ends (a b : Key)
  deriving DecidableEq

def Change.pair : Change → Key × Key
  | .begins a b | .ends a b => (a, b)

def change (g : WaitGraph) : Change → WaitGraph
  | .begins a b => g.add a b
  | .ends a b => g.remove a b

/-- The graph after a history, whose latest change stands first. -/
def after : List Change → WaitGraph
  | [] => {}
  | c :: before => (after before).change c

/-- How many waits of the pair have begun. -/
def begun (a b : Key) (history : List Change) : Nat := history.count (.begins a b)

/-- How many waits of the pair are over. An end that is told of when all are over is none. -/
def finished (a b : Key) : List Change → Nat
  | [] => 0
  | c :: before =>
    if c = .ends a b ∧ finished a b before < begun a b before then finished a b before + 1
    else finished a b before

/-! What one change does -/

theorem count_change (g : WaitGraph) (c : Change) : (g.change c).count a b =
    if c = .begins a b then g.count a b + 1
    else if c = .ends a b then g.count a b - 1 else g.count a b := by
  cases c with
  | begins x y =>
    rw [change, count_add]
    by_cases same : a = x ∧ b = y
    · obtain ⟨rfl, rfl⟩ := same
      simp
    · have other : Change.begins x y ≠ .begins a b := by
        intro h
        cases h
        exact same ⟨rfl, rfl⟩
      simp [same, other]
  | ends x y =>
    rw [change, count_remove]
    by_cases same : a = x ∧ b = y
    · obtain ⟨rfl, rfl⟩ := same
      simp
    · have other : Change.ends x y ≠ .ends a b := by
        intro h
        cases h
        exact same ⟨rfl, rfl⟩
      simp [same, other]

theorem Mirrored.change (h : g.Mirrored) (c : Change) : (g.change c).Mirrored := by
  cases c with
  | begins x y => exact h.add x y
  | ends x y => exact h.remove x y

/-- What is kept for a pair can be read off its count. -/
theorem Tight.get?_targets (h : g.Tight) (a b : Key) :
    (g.targets a).get? b = if g.count a b = 0 then none else some (g.count a b) := by
  unfold count
  cases kept : (g.targets a).get? b with
  | none => rfl
  | some n =>
    have pos : 0 < n := h a b n kept
    rw [Option.getD_some, if_neg pos.ne']

/-- A change leaves all pairs but its own as they were, on both sides. -/
theorem Mirrored.others_kept (h : g.Mirrored) {c : Change} (other : c.pair ≠ (a, b)) :
    ((g.change c).targets a).get? b = (g.targets a).get? b ∧
      (a ∈ (g.change c).waitersOf b ↔ a ∈ g.waitersOf b) := by
  have kept : (g.change c).count a b = g.count a b := by
    have not_begun : c ≠ .begins a b := by
      rintro rfl
      exact other rfl
    have not_ended : c ≠ .ends a b := by
      rintro rfl
      exact other rfl
    rw [count_change, if_neg not_begun, if_neg not_ended]
  have later := h.change c
  constructor
  · rw [later.tight.get?_targets, h.tight.get?_targets, kept]
  · rw [later.mirror, h.mirror, later.tight.edge_iff, h.tight.edge_iff, kept]

/-- An end that no wait has changes nothing. -/
theorem Tight.remove_none (h : g.Tight) (none_left : g.count a b = 0) : g.remove a b = g := by
  have kept : (g.targets a).get? b = none := by rw [h.get?_targets, if_pos none_left]
  rw [WaitGraph.remove, kept]

/-! Reverse edges name no key twice -/

theorem nodup_waitersOf_change (h : g.Tight) (hn : ∀ y, (g.waitersOf y).Nodup) (c : Change)
    (y : Key) : ((g.change c).waitersOf y).Nodup := by
  cases c with
  | begins a b =>
    rw [change, waitersOf_add]
    split
    · split
      · exact hn b
      · rename_i new
        simpa using (hn b).concat new
    · exact hn y
  | ends a b =>
    rw [change, h.waitersOf_remove]
    split
    · exact (hn b).filter _
    · exact hn y

/-! Histories -/

theorem mirrored_after (history : List Change) : (after history).Mirrored := by
  induction history with
  | nil => exact mirrored_empty
  | cons c before ih => exact ih.change c

theorem nodup_waitersOf_after (history : List Change) (y : Key) :
    ((after history).waitersOf y).Nodup := by
  induction history generalizing y with
  | nil => exact List.nodup_nil
  | cons c before ih => exact nodup_waitersOf_change (mirrored_after before).tight ih c y

theorem begun_cons (a b : Key) (c : Change) (before : List Change) :
    begun a b (c :: before) = begun a b before + if c = .begins a b then 1 else 0 := by
  rw [begun, List.count_cons]
  simp [begun]

/-- What is counted and what is over make up what has begun. -/
theorem count_after (a b : Key) (history : List Change) :
    (after history).count a b + finished a b history = begun a b history := by
  induction history with
  | nil => rfl
  | cons c before ih =>
    rw [after, count_change, begun_cons, finished]
    by_cases began : c = .begins a b
    · subst began
      simp only [if_true, reduceCtorEq, false_and, if_false]
      omega
    · simp only [if_neg began]
      by_cases ended : c = .ends a b
      · simp only [ended, if_true, true_and]
        split <;> omega
      · simp only [ended, if_false, false_and]
        omega

/-- After any history of waits that begin and ends that are told of, every count that is kept is at
least one and no entry is empty, the reverse edges mirror the edges, and each pair is counted as often
as its waits have begun and are not over, whatever is told of other pairs. An end that no wait has
changes nothing, and the graph is empty exactly when the waits of every pair are over. -/
theorem after_holds_what_is_under_way (history : List Change) :
    (∀ a targets, (after history).edges.get? a = some targets →
      targets.isEmpty = false ∧ ∀ b n, targets.get? b = some n → 1 ≤ n) ∧
    (∀ b waiting, (after history).waiters.get? b = some waiting →
      waiting ≠ [] ∧ waiting.Nodup) ∧
    (∀ a b, (after history).Edge a b ↔ a ∈ (after history).waitersOf b) ∧
    (∀ a b, (after history).count a b + finished a b history = begun a b history) ∧
    (∀ c a b, c.pair ≠ (a, b) →
      ((after (c :: history)).targets a).get? b = ((after history).targets a).get? b ∧
      (a ∈ (after (c :: history)).waitersOf b ↔ a ∈ (after history).waitersOf b)) ∧
    (∀ a b, finished a b history = begun a b history →
      after (.ends a b :: history) = after history) ∧
    ((after history).isEmpty = true ↔ ∀ a b, finished a b history = begun a b history) := by
  have mirrored := mirrored_after history
  have none_left : ∀ a b,
      (after history).count a b = 0 ↔ finished a b history = begun a b history := by
    intro a b
    have whole := count_after a b history
    omega
  refine ⟨fun a targets ha => ⟨mirrored.waiting a targets ha, fun b n hb => ?_⟩,
    fun b waiting hb => ⟨mirrored.awaited b waiting hb, ?_⟩, fun a b => (mirrored.mirror a b).symm,
    fun a b => count_after a b history, fun c a b other => mirrored.others_kept other,
    fun a b balanced => mirrored.tight.remove_none ((none_left a b).2 balanced), ?_⟩
  · refine mirrored.tight a b n ?_
    rw [WaitGraph.targets, ha]
    exact hb
  · have distinct := nodup_waitersOf_after history b
    rw [waitersOf, hb] at distinct
    exact distinct
  · rw [mirrored.isEmpty_iff]
    exact forall₂_congr none_left

end ScopedEffects.WaitGraph
