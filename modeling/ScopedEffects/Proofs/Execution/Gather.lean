import ScopedEffects.Effect.Basic
import ScopedEffects.Proofs.Execution.Course

/-! The outcome of running all. Branches are admitted in the order of the list, so the absorbed ones
and those under way are a prefix of it. Nothing is admitted after a failure, but all that was
admitted is awaited: so the lowest failure that was seen is the lowest of the whole list, in
whatever order the branches complete and however many run at a time. -/

namespace ScopedEffects

variable {H : Host} {a : Shape H.Plain}

/-- The exits of all effects taken one after the other, up to the first failure. -/
def inOrder (ys : List (Except (Failure H) (a.El H))) : Exit H :=
  (ys.mapM id).map fun xs => ⟨.list a, xs⟩

namespace Gather

variable {ys : List (Except (Failure H) (a.El H))}

theorem inOrder_of_ok (xs : List (a.El H)) : inOrder (xs.map .ok) = .ok ⟨.list a, xs⟩ := by
  have all : (xs.map .ok).mapM id = (.ok xs : Except (Failure H) (List (a.El H))) := by
    induction xs with
    | nil => rfl
    | cons x rest ih =>
      rw [List.map_cons, List.mapM_cons, ih]
      rfl
  rw [inOrder, all]
  rfl

theorem inOrder_of_error {j : Nat} {f : Failure H} (hj : ys[j]? = some (.error f))
    (before : ∀ i, i < j → ∃ x, ys[i]? = some (.ok x)) : inOrder ys = .error f := by
  have first : ys.mapM id = .error f := by
    induction ys generalizing j with
    | nil => cases hj
    | cons y rest ih =>
      rw [List.mapM_cons]
      cases j with
      | zero =>
        cases hj
        rfl
      | succ j =>
        obtain ⟨x, hx⟩ := before 0 (Nat.succ_pos j)
        cases hx
        have tail := ih (j := j) hj fun i hi => before (i + 1) (Nat.succ_lt_succ hi)
        rw [tail]
        rfl
  rw [inOrder, first]
  rfl

theorem cases_first (ys : List (Except (Failure H) (a.El H))) :
    (∃ xs : List (a.El H), ys = xs.map .ok) ∨
      ∃ (j : Nat) (f : Failure H), ys[j]? = some (.error f) ∧
        ∀ i, i < j → ∃ x, ys[i]? = some (.ok x) := by
  induction ys with
  | nil => exact .inl ⟨[], rfl⟩
  | cons y rest ih =>
    cases y with
    | error f => exact .inr ⟨0, f, rfl, fun i hi => absurd hi (Nat.not_lt_zero i)⟩
    | ok x =>
      rcases ih with ⟨xs, rfl⟩ | ⟨j, f, hj, before⟩
      · exact .inl ⟨x :: xs, rfl⟩
      · refine .inr ⟨j + 1, f, hj, fun i hi => ?_⟩
        cases i with
        | zero => exact ⟨x, rfl⟩
        | succ i => exact before i (Nat.lt_of_succ_lt_succ hi)

end Gather

/-- What a crew that runs all knows when `k` branches have been admitted: those that are not under
way any more have been absorbed, with their value or with a failure that is not later than theirs.
-/
structure Gathering (nodes : List (Node H)) (ys : List (Except (Failure H) (a.El H))) (k : Nat)
    (pending : List (Nat × Node H)) (values : List (Option (Value H)))
    (failure : Option (Nat × Failure H)) (running : List Nat) : Prop where
  pending : pending = (nodes.zipIdx.map Prod.swap).drop k
  bound : k ≤ nodes.length
  distinct : running.Nodup
  admitted : ∀ i ∈ running, i < k
  slots : values.length = nodes.length
  value : ∀ i v, i < k → i ∉ running → ys[i]? = some (.ok v) → values[i]? = some (some ⟨a, v⟩)
  lowest : ∀ i f, i < k → i ∉ running → ys[i]? = some (.error f) →
    ∃ j g, failure = some (j, g) ∧ j ≤ i
  failure : ∀ j g, failure = some (j, g) → ys[j]? = some (.error g) ∧ j < k ∧ j ∉ running

namespace Gathering

variable {nodes : List (Node H)} {ys : List (Except (Failure H) (a.El H))} {k i : Nat}
  {pending rest : List (Nat × Node H)} {values : List (Option (Value H))}
  {failure : Option (Nat × Failure H)} {running : List Nat} {n : Node H}

theorem start (nodes : List (Node H)) (ys : List (Except (Failure H) (a.El H))) :
    Gathering nodes ys 0 (nodes.zipIdx.map Prod.swap) (nodes.map fun _ => none) none [] where
  pending := rfl
  bound := Nat.zero_le _
  distinct := .nil
  admitted _ hi := (List.not_mem_nil hi).elim
  slots := List.length_map _
  value _ _ hi := absurd hi (Nat.not_lt_zero _)
  lowest _ _ hi := absurd hi (Nat.not_lt_zero _)
  failure _ _ hf := nomatch hf

theorem admission (h : Gathering nodes ys k ((i, n) :: rest) values failure running) :
    i = k ∧ Gathering nodes ys (k + 1) rest values failure (running ++ [i]) := by
  have next : ((nodes.zipIdx.map Prod.swap).drop k) = (i, n) :: rest := h.pending.symm
  have less : k < (nodes.zipIdx.map Prod.swap).length := by
    by_contra hk
    rw [List.drop_of_length_le (Nat.le_of_not_lt hk)] at next
    cases next
  rw [List.drop_eq_getElem_cons less] at next
  obtain ⟨head, tail⟩ := List.cons.inj next
  have hi : i = k := by
    have := congrArg Prod.fst head
    simpa using this.symm
  subst hi
  have fresh : i ∉ running := fun hm => (h.admitted i hm).false
  -- what has been absorbed among the first `i + 1` was absorbed among the first `i`
  have old : ∀ j, j < i + 1 → j ∉ running ++ [i] → j < i ∧ j ∉ running := by
    intro j hj hr
    have other : j ≠ i := fun he => hr (List.mem_append_right _ (List.mem_singleton.2 he))
    have less : j < i := lt_of_le_of_ne (Nat.lt_succ_iff.1 hj) other
    exact ⟨less, fun hm => hr (List.mem_append_left _ hm)⟩
  refine ⟨rfl, ?_⟩
  constructor
  · exact tail.symm
  · simpa using less
  · exact List.nodup_append.2 ⟨h.distinct, List.nodup_singleton i, fun x hx y hy => by
      rw [List.mem_singleton.1 hy]
      exact fun he => fresh (he ▸ hx)⟩
  · intro j hj
    rcases List.mem_append.1 hj with hj | hj
    · exact (h.admitted j hj).trans (Nat.lt_succ_self i)
    · rw [List.mem_singleton.1 hj]
      exact Nat.lt_succ_self i
  · exact h.slots
  · intro j v hj hr hy
    obtain ⟨less, absorbed⟩ := old j hj hr
    exact h.value j v less absorbed hy
  · intro j f hj hr hy
    obtain ⟨less, absorbed⟩ := old j hj hr
    exact h.lowest j f less absorbed hy
  · intro j g hf
    obtain ⟨hy, hj, hr⟩ := h.failure j g hf
    refine ⟨hy, hj.trans (Nat.lt_succ_self i), fun hm => ?_⟩
    rcases List.mem_append.1 hm with hm | hm
    · exact hr hm
    · exact hj.ne (List.mem_singleton.1 hm)

theorem mem_erase_iff (h : running.Nodup) {j : Nat} :
    j ∉ running.erase i ↔ j = i ∨ j ∉ running := by
  rw [h.mem_erase_iff]
  tauto

theorem absorb_value (h : Gathering nodes ys k pending values failure running) (hi : i ∈ running)
    {v : a.El H} (hy : ys[i]? = some (.ok v)) :
    Gathering nodes ys k pending (values.set i (some ⟨a, v⟩)) failure (running.erase i) := by
  have inside : i < values.length := h.slots ▸ (h.admitted i hi).trans_le h.bound
  constructor
  · exact h.pending
  · exact h.bound
  · exact h.distinct.erase i
  · exact fun j hj => h.admitted j (List.mem_of_mem_erase hj)
  · rw [List.length_set, h.slots]
  · intro j w hj hr hw
    rcases (mem_erase_iff h.distinct).1 hr with rfl | hr
    · rw [hy] at hw
      cases hw
      rw [List.getElem?_set_self inside]
    · have other : i ≠ j := fun he => hr (he ▸ hi)
      rw [List.getElem?_set_ne other]
      exact h.value j w hj hr hw
  · intro j f hj hr hf
    rcases (mem_erase_iff h.distinct).1 hr with rfl | hr
    · rw [hy] at hf
      cases hf
    · exact h.lowest j f hj hr hf
  · intro j g hf
    obtain ⟨hg, hj, hr⟩ := h.failure j g hf
    exact ⟨hg, hj, fun hm => hr (List.mem_of_mem_erase hm)⟩

theorem absorb_failure (h : Gathering nodes ys k pending values failure running) (hi : i ∈ running)
    {f : Failure H} (hy : ys[i]? = some (.error f)) :
    Gathering nodes ys k pending values (some (Crew.lowest i f failure)) (running.erase i) := by
  constructor
  · exact h.pending
  · exact h.bound
  · exact h.distinct.erase i
  · exact fun j hj => h.admitted j (List.mem_of_mem_erase hj)
  · exact h.slots
  · intro j v hj hr hv
    rcases (mem_erase_iff h.distinct).1 hr with rfl | hr
    · rw [hy] at hv
      cases hv
    · exact h.value j v hj hr hv
  · intro j g hj hr hg
    refine ⟨_, _, rfl, ?_⟩
    rcases (mem_erase_iff h.distinct).1 hr with rfl | hr
    · exact Crew.lowest_le_new j f failure
    · obtain ⟨m, g', rfl, hle⟩ := h.lowest j g hj hr hg
      exact (Crew.lowest_le_old i m f g').trans hle
  · intro j g hf
    have hf : Crew.lowest i f failure = (j, g) := Option.some.inj hf
    have one := Crew.lowest_cases i f failure
    rw [hf] at one
    rcases one with here | there
    · cases here
      exact ⟨hy, h.admitted i hi, fun hm => (mem_erase_iff h.distinct).2 (.inl rfl) hm⟩
    · obtain ⟨hg, hj, hr⟩ := h.failure j g there
      exact ⟨hg, hj, fun hm => hr (List.mem_of_mem_erase hm)⟩

theorem conclude_failure {j : Nat} {f : Failure H}
    (h : Gathering nodes ys k pending values (some (j, f)) []) (len : ys.length = nodes.length) :
    inOrder ys = .error f := by
  obtain ⟨hj, hk, -⟩ := h.failure j f rfl
  refine Gather.inOrder_of_error hj fun i hi => ?_
  -- all before it were admitted and none is under way, so a failure among them would be the lowest
  have inside : i < ys.length := by
    have := h.bound
    omega
  cases hy : ys[i] with
  | ok x => exact ⟨x, by rw [List.getElem?_eq_getElem inside, hy]⟩
  | error g =>
    have hy : ys[i]? = some (.error g) := by rw [List.getElem?_eq_getElem inside, hy]
    obtain ⟨m, g', hm, hle⟩ := h.lowest i g (hi.trans hk) List.not_mem_nil hy
    cases hm
    omega

/-- Without a failure, all have been admitted, and the values are those of the whole list. -/
theorem conclude_values (h : Gathering nodes ys k [] values none [])
    (len : ys.length = nodes.length) :
    ∃ xs : List (a.El H), ys = xs.map .ok ∧ values = xs.map fun x => some ⟨a, x⟩ := by
  have all : nodes.length ≤ k := by
    have none_left := h.pending
    rw [eq_comm, List.drop_eq_nil_iff] at none_left
    simpa using none_left
  rcases Gather.cases_first ys with ⟨xs, rfl⟩ | ⟨j, f, hj, -⟩
  · refine ⟨xs, rfl, List.ext_getElem? fun i => ?_⟩
    rw [List.length_map] at len
    by_cases hi : i < xs.length
    · have hy : (xs.map (Except.ok (ε := Failure H)))[i]? = some (.ok xs[i]) := by
        rw [List.getElem?_map, List.getElem?_eq_getElem hi]
        rfl
      have here : i < k := by omega
      rw [h.value i _ here List.not_mem_nil hy, List.getElem?_map, List.getElem?_eq_getElem hi]
      rfl
    · have short : values.length ≤ i := by
        rw [h.slots]
        omega
      have short' : (xs.map fun x => some (⟨a, x⟩ : Value H)).length ≤ i := by
        rw [List.length_map]
        omega
      rw [List.getElem?_eq_none short, List.getElem?_eq_none short']
  · have inside : j < k := by
      have := (List.getElem?_eq_some_iff.1 hj).1
      omega
    obtain ⟨m, g, hm, -⟩ := h.lowest j f inside List.not_mem_nil hj
    cases hm

theorem takeAll_values (xs : List (a.El H)) :
    Value.takeAll a ((xs.map fun x => some (⟨a, x⟩ : Value H)).filterMap id) =
      .ok ⟨.list a, xs⟩ := by
  have taken : ((xs.map fun x => some (⟨a, x⟩ : Value H)).filterMap id).mapM (Value.take a) =
      .ok xs := by
    induction xs with
    | nil => rfl
    | cons x rest ih =>
      rw [List.map_cons, List.filterMap_cons_some (f := id) rfl, List.mapM_cons, Value.take_mk, ih]
      rfl
  rw [Value.takeAll, taken]
  rfl

/-- When no branch is under way and none is to be admitted, the crew settles as the effects would
one after the other. -/
theorem conclude (h : Gathering nodes ys k pending values failure [])
    (len : ys.length = nodes.length) (done : failure = none → pending = []) (env : Env)
    (s : Store H) (cap : Option Nat) :
    Crew.conclude env s (.all cap (Value.takeAll a) pending values failure) = inOrder ys := by
  cases failure with
  | some p =>
    obtain ⟨j, f⟩ := p
    exact (h.conclude_failure len).symm
  | none =>
    rw [done rfl] at h
    obtain ⟨xs, rfl, rfl⟩ := h.conclude_values len
    rw [Gather.inOrder_of_ok]
    exact takeAll_values xs

end Gathering

/-! The crew -/

namespace Execution

def running : Execution H → List Nat
  | crew _ _ _ b => b.indices
  | _ => []

/-- How much a crew has still to do by itself: to admit branches, and to absorb them. -/
def load : Execution H → Nat
  | crew _ (.all _ _ pending _ _) _ b => 2 * pending.length + b.indices.length
  | _ => 0

def IsIdle : Execution H → Prop
  | crew env c _ b => Idle env c b
  | _ => False

inductive Gathers (nodes : List (Node H)) (ys : List (Except (Failure H) (a.El H))) :
    Execution H → Prop
  | intro {env cap round k pending values failure b}
      (h : Gathering nodes ys k pending values failure b.indices) :
      Gathers nodes ys (crew env (.all cap (Value.takeAll a) pending values failure) round b)

namespace Gathers

variable [Tracing H] {nodes : List (Node H)} {ys : List (Except (Failure H) (a.El H))}
  {policy : Policy} {depth : Nat} {s s' : Store H} {e e' : Execution H}

/-- One move of the crew: it settles, or it has less to do by itself, or a branch moves because the
crew itself is idle. -/
theorem move (h : Gathers nodes ys e) (len : ys.length = nodes.length)
    (settles : ∀ i exit, e.branch? i = some (.settled exit) →
      ∃ y, ys[i]? = some y ∧ exit = y.map fun x => ⟨a, x⟩)
    (calm : ∀ i p, e.branch? i ≠ some (.unwound p))
    (hm : e.move policy depth s = some (e', s')) :
    e' = .settled (inOrder ys) ∨ Gathers nodes ys e' ∧
      (e'.load < e.load ∨ e'.load = e.load ∧ e'.running = e.running ∧ e.IsIdle) := by
  obtain @⟨env, cap, round, k, pending, values, failure, b, known⟩ := h
  cases move_crew known.distinct hm with
  | keeps hk =>
    cases hk with
    | panics found => exact absurd found (calm _ _)
    | @absorbs i exit line found =>
      have inside : i ∈ b.indices := Branches.mem_indices_iff.2 ⟨_, found⟩
      have shorter : (b.erase i).indices.length < b.indices.length := by
        rw [Branches.indices_erase, List.length_erase_of_mem inside]
        exact Nat.sub_lt (List.length_pos_of_mem inside) Nat.one_pos
      obtain ⟨y, hy, rfl⟩ := settles i exit found
      refine .inr ?_
      cases y with
      | ok v =>
        refine ⟨.intro (k := k) ?_, .inl (Nat.add_lt_add_left shorter _)⟩
        rw [Branches.indices_erase]
        exact known.absorb_value inside hy
      | error f =>
        refine ⟨.intro (k := k) ?_, .inl (Nat.add_lt_add_left shorter _)⟩
        rw [Branches.indices_erase]
        exact known.absorb_failure inside hy
    | @admits i n rest line hn =>
      obtain ⟨cap', collect, pending', values', hc, rfl⟩ := Crew.next?_some hn
      cases hc
      obtain ⟨-, next⟩ := known.admission
      rw [← Branches.indices_push b i (.enter n env)] at next
      refine .inr ⟨.intro next, .inl ?_⟩
      simp only [load, Branches.indices_push, List.length_append, List.length_cons,
        List.length_nil]
      omega
    | concludes hn none_left =>
      rw [none_left] at known
      left
      have done : failure = none → pending = [] := by
        rintro rfl
        exact Crew.pending_of_next? hn
      rw [known.conclude len done]
  | moves idle same =>
    refine .inr ⟨.intro (k := k) ?_, .inr ⟨?_, same, idle⟩⟩
    · rw [same]
      exact known
    · simp only [load, same]

end Gathers

end Execution

namespace Course

variable [Tracing H] {nodes : List (Node H)} {ys : List (Except (Failure H) (a.El H))} {t u : Nat}
  {r : Course H}

/-- The course of running all nodes, whose branches settle as `ys` says and do not panic. -/
structure GathersAll (r : Course H) (nodes : List (Node H))
    (ys : List (Except (Failure H) (a.El H))) : Prop where
  start : (r.state 0).Gathers nodes ys
  length : ys.length = nodes.length
  settles : ∀ t i exit, (r.state t).branch? i = some (.settled exit) →
    ∃ y, ys[i]? = some y ∧ exit = y.map fun x => ⟨a, x⟩
  calm : ∀ t i p, (r.state t).branch? i ≠ some (.unwound p)

namespace GathersAll

theorem next (h : r.GathersAll nodes ys) (hg : (r.state t).Gathers nodes ys) :
    r.state (t + 1) = .settled (inOrder ys) ∨ (r.state (t + 1)).Gathers nodes ys ∧
      ((r.state (t + 1)).load < (r.state t).load ∨ r.state (t + 1) = r.state t ∨
        (r.state (t + 1)).load = (r.state t).load ∧
          (r.state (t + 1)).running = (r.state t).running ∧ (r.state t).IsIdle) := by
  rcases r.step t with ⟨policy, depth, moved⟩ | same
  · rcases hg.move h.length (h.settles t) (h.calm t) moved with done | ⟨later, less | idle⟩
    · exact .inl done
    · exact .inr ⟨later, .inl less⟩
    · exact .inr ⟨later, .inr (.inr idle)⟩
  · rw [same]
    exact .inr ⟨hg, .inr (.inl rfl)⟩

/-- Later on, the crew has settled, or it has less to do, or the same branches are under way; and if
it was not idle, nothing has changed at all. -/
theorem later (h : r.GathersAll nodes ys) (hg : (r.state t).Gathers nodes ys) (htu : t ≤ u) :
    r.state u = .settled (inOrder ys) ∨ (r.state u).Gathers nodes ys ∧
      ((r.state u).load < (r.state t).load ∨ (r.state u).load = (r.state t).load ∧
        (r.state u).running = (r.state t).running ∧
        ((r.state t).IsIdle ∨ r.state u = r.state t)) := by
  induction htu with
  | refl => exact .inr ⟨hg, .inr ⟨rfl, rfl, .inr rfl⟩⟩
  | @step u _ ih =>
    rcases ih with done | ⟨now, before⟩
    · exact .inl (settled_stays done (Nat.le_succ u))
    · rcases h.next now with done | ⟨later, change⟩
      · exact .inl done
      · refine .inr ⟨later, ?_⟩
        rcases before with less | ⟨load, running, still⟩
        · left
          rcases change with less' | same | ⟨load', -, -⟩
          · exact less'.trans less
          · rw [same]
            exact less
          · rw [load']
            exact less
        · rcases change with less' | same | ⟨load', running', idle⟩
          · exact .inl (load ▸ less')
          · rw [same]
            exact .inr ⟨load, running, still⟩
          · refine .inr ⟨load'.trans load, running'.trans running, .inl ?_⟩
            rcases still with idle' | same
            · exact idle'
            · rwa [same] at idle

theorem busy (h : r.GathersAll nodes ys) (fair : r.Fair) (hg : (r.state t).Gathers nodes ys)
    (hi : ¬ (r.state t).IsIdle) : ∃ u, t ≤ u ∧ (r.state u = .settled (inOrder ys) ∨
      (r.state u).Gathers nodes ys ∧ (r.state u).load < (r.state t).load) := by
  have able : ∃ moved, (r.state t).move .standard 0 (r.store t) = some moved := by
    generalize r.state t = e at hg hi
    cases hg
    exact Execution.exists_move_of_not_idle hi _ _ _
  obtain ⟨moved, hm⟩ := able
  obtain ⟨u, htu, policy, depth, step⟩ := fair.moves t _ _ moved hm
  rcases h.later hg htu with done | ⟨now, less | ⟨load, -, idle | same⟩⟩
  · exact ⟨u, htu, .inl done⟩
  · exact ⟨u, htu, .inr ⟨now, less⟩⟩
  · exact absurd idle hi
  · refine ⟨u + 1, htu.trans (Nat.le_succ u), ?_⟩
    rcases now.move h.length (h.settles u) (h.calm u) step with done | ⟨later, less | ⟨-, -, idle⟩⟩
    · exact .inl done
    · exact .inr ⟨later, load ▸ less⟩
    · rw [same] at idle
      exact absurd idle hi

/-- A crew always gets on, for its branches settle. -/
theorem progress (h : r.GathersAll nodes ys) (fair : r.Fair) (hg : (r.state t).Gathers nodes ys) :
    ∃ u, t ≤ u ∧ (r.state u = .settled (inOrder ys) ∨
      (r.state u).Gathers nodes ys ∧ (r.state u).load < (r.state t).load) := by
  by_cases hi : (r.state t).IsIdle
  · -- an idle crew has a branch under way; when that has settled, the crew is not idle any more
    have under_way : ∃ i e, i ∈ (r.state t).running ∧ (r.state t).branch? i = some e := by
      generalize r.state t = e at hg hi
      obtain @⟨env, cap, round, k, pending, values, failure, b, known⟩ := hg
      have nonempty : b.indices ≠ [] := fun none_left => by
        have empty := Branches.isEmpty_iff.2 none_left
        rw [hi.running] at empty
        cases empty
      obtain ⟨i, rest, hb⟩ := List.exists_cons_of_ne_nil nonempty
      have inside : i ∈ b.indices := hb ▸ List.mem_cons_self
      obtain ⟨e, found⟩ := Branches.mem_indices_iff.1 inside
      exact ⟨i, e, inside, found⟩
    obtain ⟨i, e, inside, found⟩ := under_way
    obtain ⟨u, htu, ended⟩ := fair.branches t i e found
    rcases h.later hg htu with done | ⟨now, less | ⟨load, running, -⟩⟩
    · exact ⟨u, htu, .inl done⟩
    · exact ⟨u, htu, .inr ⟨now, less⟩⟩
    · have busy_now : ¬ (r.state u).IsIdle := by
        rw [← running] at inside
        generalize r.state u = e' at now ended inside
        obtain @⟨env, cap, round, k, pending, values, failure, b, known⟩ := now
        obtain ⟨f, found'⟩ := Branches.mem_indices_iff.1 inside
        obtain ⟨exit, rfl⟩ := ended f found'
        intro idle
        cases Branches.exit?_none idle.unsettled found'
      obtain ⟨v, huv, later⟩ := h.busy fair now busy_now
      exact ⟨v, htu.trans huv, later.imp_right fun l => ⟨l.1, load ▸ l.2⟩⟩
  · exact h.busy fair hg hi

theorem eventually (h : r.GathersAll nodes ys) (fair : r.Fair) :
    ∃ t, r.state t = .settled (inOrder ys) := by
  -- by induction on the load, which each turn of `progress` lowers
  have from_load : ∀ n t, (r.state t).load = n → (r.state t).Gathers nodes ys →
      ∃ u, r.state u = .settled (inOrder ys) := by
    intro n
    induction n using Nat.strong_induction_on with
    | _ n ih =>
      intro t hn hg
      obtain ⟨u, -, done | ⟨now, less⟩⟩ := h.progress fair hg
      · exact ⟨u, done⟩
      · exact ih _ (hn ▸ less) u rfl now
  exact from_load _ 0 rfl h.start

end GathersAll

/-- Running all effects settles as they would one after the other, with all values in their order or
with the first failure, however many run at a time and in whatever order they complete. It does
settle, if its moves are not put off forever and all branches settle. -/
theorem gather_settles_in_order (r : Course H) (cap : Option Nat) (es : List (Effect H a))
    (ys : List (Except (Failure H) (a.El H))) (env : Env) (s : Store H)
    (start : r.state 0 = (Execution.start env s (Effect.gather cap es).node).1)
    (length : ys.length = es.length)
    (settles : ∀ t i exit, (r.state t).branch? i = some (.settled exit) →
      ∃ y, ys[i]? = some y ∧ exit = y.map fun x => ⟨a, x⟩)
    (calm : ∀ t i p, (r.state t).branch? i ≠ some (.unwound p)) :
    if s.isFired env.signal then ∀ t, r.state t = .settled (.error .aborted)
    else (∀ t exit, r.state t = .settled exit → exit = inOrder ys) ∧
      (r.Fair → ∃ t, r.state t = .settled (inOrder ys)) ∧
      (∀ xs : List (a.El H), ys = xs.map .ok → inOrder ys = .ok ⟨.list a, xs⟩) ∧
      ∀ (j : Nat) (f : Failure H), ys[j]? = some (.error f) →
        (∀ i, i < j → ∃ x, ys[i]? = some (.ok x)) → inOrder ys = .error f := by
  by_cases hf : s.isFired env.signal = true
  · rw [if_pos hf]
    intro t
    refine settled_stays (t := 0) ?_ (Nat.zero_le t)
    rw [start]
    simp [Effect.gather, Execution.start, Execution.source, hf]
  · rw [if_neg hf]
    have gathers : r.GathersAll (es.map Effect.node) ys := by
      refine ⟨?_, by rw [length, List.length_map], settles, calm⟩
      rw [start]
      simp only [Effect.gather, Execution.start, Execution.source, hf, Bool.false_eq_true, if_false]
      exact .intro (Gathering.start _ _)
    refine ⟨fun t exit ht => ?_, gathers.eventually, ?_, ?_⟩
    · rcases gathers.later gathers.start (Nat.zero_le t) with done | ⟨now, -⟩
      · rw [ht] at done
        exact Execution.settled.inj done
      · rw [ht] at now
        cases now
    · rintro xs rfl
      exact Gather.inOrder_of_ok xs
    · intro j f hj before
      exact Gather.inOrder_of_error hj before

def valueAndFailure : List (Effect Host.counting (.bare (.plain ()))) :=
  [.succeed (7 : Nat), .fail (.ofKey "late")]

def pairExits : List (Except (Failure Host.counting) ((Shape.bare (.plain ())).El Host.counting)) :=
  [.ok (7 : Nat), .error (.ofKey "late")]

def rootEnv : Env := ⟨⟨0, []⟩, .root 0, none⟩

/-- The crew of the two on its way, with the branches that are under way. -/
def pairCrew (pending : List (Nat × Node Host.counting)) (value : Option (Value Host.counting))
    (failure : Option (Nat × Failure Host.counting)) (round : Round)
    (b : Branches Host.counting) : Execution Host.counting :=
  .crew rootEnv (.all none (Value.takeAll (.bare (.plain ()))) pending [value, none] failure)
    round b

def beforeValue : Branches Host.counting → Branches Host.counting :=
  .cons 0 (.enter (.sync (Code.pure (.ok ⟨.bare (.plain ()), (7 : Nat)⟩))) rootEnv)

def pairStore : Store Host.counting := { user := (0 : Nat) }

/-- The second fails before the first has begun. -/
def pairCourse : Course Host.counting where
  state
    | 0 => (Execution.start rootEnv pairStore (Effect.gather none valueAndFailure).node).1
    | 1 => pairCrew [(1, .sync (Code.pure (.error (.ofKey "late"))))] none none { queue := [0] }
        (beforeValue .nil)
    | 2 => pairCrew [] none none { queue := [0, 1] }
        (beforeValue (.cons 1 (.enter (.sync (Code.pure (.error (.ofKey "late")))) rootEnv) .nil))
    | 3 => pairCrew [] none none { asked := [1], queue := [0] }
        (beforeValue (.cons 1 (.settled (.error (.ofKey "late"))) .nil))
    | 4 => pairCrew [] none (some (1, .ofKey "late")) { queue := [0] } (beforeValue .nil)
    | 5 => pairCrew [] none (some (1, .ofKey "late")) { asked := [0] }
        (.cons 0 (.settled (.ok ⟨.bare (.plain ()), (7 : Nat)⟩)) .nil)
    | 6 => pairCrew [] (some ⟨.bare (.plain ()), (7 : Nat)⟩) (some (1, .ofKey "late")) {} .nil
    | _ => .settled (.error (.ofKey "late"))
  store
    | 0 | 1 | 2 | 3 => pairStore
    | _ => pairStore.record (.branchFailed 1 "late")
  step
    | 0 | 1 | 3 | 4 | 5 | 6 => .inl ⟨.standard, 0, rfl⟩
    | 2 => .inl ⟨{ pick := fun _ _ => some 1 }, 0, rfl⟩
    | _ + 7 => .inr rfl

/-- The failure of the second is the outcome of both. -/
theorem pair_settles_with_failure :
    ∃ t, pairCourse.state t = .settled (.error (.ofKey "late")) := by
  have branches : ∀ t i e, (pairCourse.state t).branch? i = some e →
      (∃ node env, e = .enter node env) ∨
        ∃ y, pairExits[i]? = some y ∧
          e = .settled (y.map fun x => ⟨.bare (.plain ()), x⟩) := by
    intro t i e h
    rcases t with _ | _ | _ | _ | _ | _ | _ | t
    · cases h
    · rcases Branches.find?_cons h with ⟨-, rfl⟩ | h
      · exact .inl ⟨_, _, rfl⟩
      · cases h
    · rcases Branches.find?_cons h with ⟨-, rfl⟩ | h
      · exact .inl ⟨_, _, rfl⟩
      · rcases Branches.find?_cons h with ⟨-, rfl⟩ | h
        · exact .inl ⟨_, _, rfl⟩
        · cases h
    · rcases Branches.find?_cons h with ⟨-, rfl⟩ | h
      · exact .inl ⟨_, _, rfl⟩
      · rcases Branches.find?_cons h with ⟨rfl, rfl⟩ | h
        · exact .inr ⟨_, rfl, rfl⟩
        · cases h
    · rcases Branches.find?_cons h with ⟨-, rfl⟩ | h
      · exact .inl ⟨_, _, rfl⟩
      · cases h
    · rcases Branches.find?_cons h with ⟨rfl, rfl⟩ | h
      · exact .inr ⟨_, rfl, rfl⟩
      · cases h
    · cases h
    · cases h
  have outcome := gather_settles_in_order (a := .bare (.plain ())) pairCourse none valueAndFailure
    pairExits rootEnv pairStore rfl rfl
    (fun t i exit h => by
      rcases branches t i _ h with ⟨_, _, he⟩ | ⟨y, hy, he⟩
      · cases he
      · exact ⟨y, hy, Execution.settled.inj he⟩)
    (fun t i p h => by
      rcases branches t i _ h with ⟨_, _, he⟩ | ⟨_, _, he⟩ <;> cases he)
  rw [if_neg (by decide)] at outcome
  obtain ⟨-, eventually, -, first⟩ := outcome
  obtain ⟨t, ht⟩ := eventually (Course.fair_of_settled (u := 7) rfl)
  refine ⟨t, ht.trans (congrArg _ (first 1 (.ofKey "late") rfl fun i hi => ?_))⟩
  have here : i = 0 := by omega
  exact here ▸ ⟨_, rfl⟩

end Course

end ScopedEffects
