import ScopedEffects.Proofs.Execution.Gather
import ScopedEffects.Proofs.Execution.Scopes

/-! The admission of the branches of a combinator that runs all. Branches are admitted in the order of
the list, as many at a time as the cap allows, and none once a failure has been seen. Each of them is
entered once and taken in once, when it has settled; what happens to it in between is what happens to
its own execution. One move of the crew is one of four things, and all the rest is induction over the
moves. -/

namespace ScopedEffects

variable {H : Host} {cap : Option Nat} {env : Env}

namespace Crew

theorem hasRoom_iff {running : Nat} : hasRoom env cap running = true ↔
    ∀ n, cap.or env.concurrency = some n → running < max 1 n := by
  unfold hasRoom limit
  cases cap.or env.concurrency with
  | none => simp
  | some n => simp

/-- The branches that are left when the first `k` have been admitted, with their indices. -/
def unadmitted (nodes : List (Node H)) (k : Nat) : List (Nat × Node H) :=
  (nodes.zipIdx.map Prod.swap).drop k

theorem length_unadmitted (nodes : List (Node H)) (k : Nat) :
    (unadmitted nodes k).length = nodes.length - k := by
  simp [unadmitted]

/-- The next branch is the one behind those that have been admitted. -/
theorem unadmitted_eq_cons {nodes : List (Node H)} {k i : Nat} {n : Node H}
    {rest : List (Nat × Node H)} (h : unadmitted nodes k = (i, n) :: rest) :
    i = k ∧ nodes[k]? = some n ∧ k < nodes.length ∧ rest = unadmitted nodes (k + 1) := by
  have inside : k < (nodes.zipIdx.map Prod.swap).length := by
    by_contra hk
    rw [unadmitted, List.drop_of_length_le (Nat.le_of_not_lt hk)] at h
    cases h
  rw [unadmitted, List.drop_eq_getElem_cons inside] at h
  obtain ⟨head, tail⟩ := List.cons.inj h
  have bound : k < nodes.length := by simpa using inside
  have entry : k = i ∧ nodes[k] = n := by simpa using head
  exact ⟨entry.1.symm, entry.2 ▸ List.getElem?_eq_getElem bound, bound, tail.symm⟩

theorem unadmitted_eq_nil {nodes : List (Node H)} {k : Nat} (h : unadmitted nodes k = [])
    (hk : k ≤ nodes.length) : k = nodes.length := by
  have none_left := length_unadmitted nodes k
  rw [h, List.length_nil] at none_left
  omega

end Crew

namespace Execution

variable {collect : List (Value H) → Exit H} {nodes : List (Node H)} {k i : Nat}
  {failure : Option (Nat × Failure H)} {b : Branches H} {e e' : Execution H} {s s' : Store H}
  {policy : Policy} {depth : Nat}

/-- A crew that runs all nodes and has admitted the first `k` of them. The branches are those that it
has not taken in yet. -/
structure Admits (nodes : List (Node H)) (env : Env) (cap : Option Nat)
    (collect : List (Value H) → Exit H) (k : Nat) (failure : Option (Nat × Failure H))
    (b : Branches H) (e : Execution H) : Prop where
  crew : ∃ values round,
    e = .crew env (.all cap collect (Crew.unadmitted nodes k) values failure) round b
  bound : k ≤ nodes.length
  distinct : b.indices.Nodup
  admitted : ∀ i ∈ b.indices, i < k
  capped : ∀ n, cap.or env.concurrency = some n → b.length ≤ max 1 n

/-- The failure that is remembered when a branch has settled. -/
def remember (i : Nat) (exit : Exit H) (failure : Option (Nat × Failure H)) :
    Option (Nat × Failure H) :=
  match exit with
  | .ok _ => failure
  | .error f => some (Crew.lowest i f failure)

/-- One move of a crew that runs all. -/
inductive AdmissionMove [Tracing H] (nodes : List (Node H)) (env : Env) (cap : Option Nat)
    (collect : List (Value H) → Exit H) (k : Nat) (failure : Option (Nat × Failure H))
    (b : Branches H) (e : Execution H) (s : Store H) (e' : Execution H) (s' : Store H) : Prop
  | absorbs {i exit} (found : b.find? i = some (.settled exit))
      (next : e'.Admits nodes env cap collect k (remember i exit failure) (b.erase i))
  | admits {n} (unsettled : b.exit? = none) (unfailed : failure = none)
      (node : nodes[k]? = some n)
      (room : ∀ m, cap.or env.concurrency = some m → b.length < max 1 m)
      (next : e'.Admits nodes env cap collect (k + 1) none (b.push k (.enter n env)))
  | moves {i f f' policy depth} (idle : e.IsIdle) (found : b.find? i = some f)
      (moved : f.move policy depth s = some (f', s'))
      (next : e'.Admits nodes env cap collect k failure (b.set i f'))
  | concludes {exit} (settled : e' = .settled exit) (empty : b = .nil)
      (full : k = nodes.length ∨ failure.isSome = true)

theorem Admits.start (nodes : List (Node H)) (env : Env) (cap : Option Nat)
    (collect : List (Value H) → Exit H) (values : List (Option (Value H))) :
    (Execution.crew env (.all cap collect (nodes.zipIdx.map Prod.swap) values none) {}
      .nil).Admits nodes env cap collect 0 none .nil where
  crew := ⟨values, {}, rfl⟩
  bound := Nat.zero_le _
  distinct := .nil
  admitted _ hi := absurd hi List.not_mem_nil
  capped _ _ := Nat.zero_le _

/-- The failure that a crew remembers and its branches are there to be seen. -/
theorem Admits.unique {k' : Nat} {failure' : Option (Nat × Failure H)} {b' : Branches H}
    (h : e.Admits nodes env cap collect k failure b)
    (h' : e.Admits nodes env cap collect k' failure' b') : failure' = failure ∧ b' = b := by
  obtain ⟨values, round, rfl⟩ := h.crew
  obtain ⟨values', round', same⟩ := h'.crew
  injection same with _ crew _ branches
  injection crew with _ _ _ _ failed
  exact ⟨failed.symm, branches.symm⟩

/-- The crew admits no branch any more: all are admitted, a failure has been seen, or there is no
room. -/
theorem Admits.full (h : e.Admits nodes env cap collect k failure b)
    {values : List (Option (Value H))} {running : Nat}
    (hn : (Crew.all cap collect (Crew.unadmitted nodes k) values failure).next? env running = none) :
    k = nodes.length ∨ failure.isSome = true ∨
      ∃ n, cap.or env.concurrency = some n ∧ max 1 n ≤ running := by
  cases hp : Crew.unadmitted nodes k with
  | nil => exact .inl (Crew.unadmitted_eq_nil hp h.bound)
  | cons entry rest =>
    cases failure with
    | some f => exact .inr (.inl rfl)
    | none =>
      rw [hp, Crew.next?] at hn
      split at hn
      · cases hn
      · rename_i packed
        have packed := mt Crew.hasRoom_iff.2 packed
        push Not at packed
        exact .inr (.inr packed)

/-- A crew that waits has branches under way, and none that has ended. If there is room for one more,
all have been admitted or a failure has been seen. -/
theorem Admits.suspended (h : e.Admits nodes env cap collect k failure b) (idle : e.IsIdle) :
    b ≠ .nil ∧ (∀ i f, b.find? i = some f → f.ended = false) ∧
      ((∀ n, cap.or env.concurrency = some n → b.length < max 1 n) →
        k = nodes.length ∨ failure.isSome = true) := by
  obtain ⟨values, round, rfl⟩ := h.crew
  have idle : Idle env _ b := idle
  refine ⟨?_, fun i f found => ?_, fun room => ?_⟩
  · rintro rfl
    cases idle.running
  · have unsettled := Branches.exit?_none idle.unsettled found
    have calm := Branches.panic?_none idle.calm found
    cases f with
    | settled => cases unsettled
    | unwound => cases calm
    | _ => rfl
  · rcases h.full idle.full with all | seen | ⟨n, hn, packed⟩
    · exact .inl all
    · exact .inr seen
    · exact absurd (room n hn) (Nat.not_lt_of_le packed)

variable [Tracing H]

theorem Admits.move (h : e.Admits nodes env cap collect k failure b)
    (calm : ∀ i p, e.branch? i ≠ some (.unwound p))
    (hm : e.move policy depth s = some (e', s')) :
    AdmissionMove nodes env cap collect k failure b e s e' s' := by
  obtain ⟨values, round, rfl⟩ := h.crew
  rcases move_crew_cases hm with house | ⟨idle, i, f, f', line, _, found, moved, rfl⟩
  · cases moveCrew_housekept house with
    | panics unwound =>
      obtain ⟨i, found⟩ := Branches.panic?_some h.distinct unwound
      exact absurd found (calm i _)
    | @absorbs i exit _ settled =>
      have found := Branches.exit?_some h.distinct settled
      refine .absorbs found ⟨?_, h.bound, ?_, fun j hj => ?_, fun n hn => ?_⟩
      · cases exit with
        | ok => exact ⟨_, _, rfl⟩
        | error => exact ⟨_, _, rfl⟩
      · rw [Branches.indices_erase]
        exact h.distinct.erase i
      · rw [Branches.indices_erase] at hj
        exact h.admitted j (List.mem_of_mem_erase hj)
      · have fewer : (b.erase i).length ≤ b.length := by
          rw [Branches.length_eq, Branches.length_eq, Branches.indices_erase]
          exact List.length_erase_le
        exact fewer.trans (h.capped n hn)
    | @admits j n rest line _ unsettled next =>
      have room : Crew.hasRoom env cap b.length = true := by
        by_contra packed
        obtain ⟨_, _, _, _, hc, -⟩ := Crew.next?_some next
        injection hc with _ _ pending _ unfailed
        rw [pending, unfailed, Crew.next?, if_neg packed] at next
        cases next
      obtain ⟨_, _, _, _, hc, rfl⟩ := Crew.next?_some next
      injection hc with hcap hcollect pending hvalues unfailed
      subst hcap hcollect hvalues unfailed
      obtain ⟨rfl, node, inside, rfl⟩ := Crew.unadmitted_eq_cons pending
      have room := Crew.hasRoom_iff.1 room
      have fresh : j ∉ b.indices := fun hj => (h.admitted j hj).false
      refine .admits unsettled rfl node room ⟨⟨_, _, rfl⟩, inside, ?_, fun i hi => ?_, fun m hm => ?_⟩
      · exact Branches.nodup_push h.distinct fresh _
      · rw [Branches.indices_push] at hi
        rcases List.mem_append.1 hi with hi | hi
        · exact (h.admitted i hi).trans (Nat.lt_succ_self j)
        · rw [List.mem_singleton.1 hi]
          exact Nat.lt_succ_self j
      · rw [Branches.length_eq, Branches.indices_push, List.length_append, ← Branches.length_eq]
        exact room m hm
    | concludes _ _ full empty =>
      have none_left := Branches.isEmpty_iff.1 empty
      have nil : b = .nil := by
        cases b with
        | nil => rfl
        | cons => cases none_left
      subst nil
      refine .concludes rfl rfl ?_
      rcases h.full full with all | seen | ⟨n, -, packed⟩
      · exact .inl all
      · exact .inr seen
      · have none_running : max 1 n ≤ 0 := packed
        omega
  · have kept := Branches.indices_set b i f'
    refine .moves (moveCrew_none_iff.1 idle) found moved ⟨⟨_, _, rfl⟩, h.bound, ?_, ?_, fun n hn => ?_⟩
    · rw [kept]
      exact h.distinct
    · rw [kept]
      exact h.admitted
    · rw [Branches.length_eq, kept, ← Branches.length_eq]
      exact h.capped n hn

def unadmitted? : Execution H → Option (List (Nat × Node H))
  | crew _ (.all _ _ pending _ _) _ _ => some pending
  | _ => none

end Execution

namespace Course

variable [Tracing H] {collect : List (Value H) → Exit H} {nodes : List (Node H)} {t u i : Nat}
  {r : Course H} {failure : Option (Nat × Failure H)} {b : Branches H} {x : Execution H}

/-- How many of the branches, `total` in all, have been admitted by an instant. -/
def admitted (r : Course H) (total : Nat) : Nat → Nat
  | 0 => 0
  | t + 1 =>
    match (r.state (t + 1)).unadmitted? with
    | some pending => total - pending.length
    | none => r.admitted total t

/-- The course of running all nodes, in which no branch unwinds. -/
structure RunsAll (r : Course H) (nodes : List (Node H)) (env : Env) (cap : Option Nat)
    (collect : List (Value H) → Exit H) : Prop where
  start : (r.state 0).Admits nodes env cap collect 0 none .nil
  calm : ∀ t i p, (r.state t).branch? i ≠ some (.unwound p)

/-- A branch that has failed has been taken in before an instant. -/
def SawFailure (r : Course H) (t : Nat) : Prop :=
  ∃ u i f, u < t ∧ (r.state u).branch? i = some (.settled (.error f)) ∧
    (r.state (u + 1)).branch? i = none

theorem SawFailure.later (h : r.SawFailure t) : r.SawFailure (t + 1) := by
  obtain ⟨u, i, f, before, rest⟩ := h
  exact ⟨u, i, f, Nat.lt_succ_of_lt before, rest⟩

namespace RunsAll

theorem admitted_succ {k : Nat}
    (next : (r.state (t + 1)).Admits nodes env cap collect k failure b) :
    r.admitted nodes.length (t + 1) = k := by
  obtain ⟨values, round, he⟩ := next.crew
  rw [admitted, he]
  show nodes.length - (Crew.unadmitted nodes k).length = k
  rw [Crew.length_unadmitted]
  exact Nat.sub_sub_self next.bound

theorem admitted_of_settled {exit : Exit H} (h : r.state (t + 1) = .settled exit) :
    r.admitted nodes.length (t + 1) = r.admitted nodes.length t := by
  rw [admitted, h]
  rfl

/-- What the crew is at an instant: it runs on, or it has settled. -/
theorem state (h : r.RunsAll nodes env cap collect) (t : Nat) :
    (∃ exit, r.state t = .settled exit) ∨ ∃ failure b,
      (r.state t).Admits nodes env cap collect (r.admitted nodes.length t) failure b := by
  induction t with
  | zero => exact .inr ⟨none, .nil, h.start⟩
  | succ t ih =>
    rcases ih with ⟨exit, settled⟩ | ⟨failure, b, now⟩
    · exact .inl ⟨exit, settled_stays settled (Nat.le_succ t)⟩
    · have admits : ∀ {k failure b},
          (r.state (t + 1)).Admits nodes env cap collect k failure b →
          ∃ failure b, (r.state (t + 1)).Admits nodes env cap collect
            (r.admitted nodes.length (t + 1)) failure b := by
        intro k failure b next
        rw [admitted_succ next]
        exact ⟨failure, b, next⟩
      rcases r.step t with ⟨policy, depth, moved⟩ | same
      · cases now.move (h.calm t) moved with
        | absorbs _ next | admits _ _ _ _ next | moves _ _ _ next => exact .inr (admits next)
        | concludes settled => exact .inl ⟨_, settled⟩
      · exact .inr (admits (same ▸ now))

/-- From one instant to the next, the crew makes one of its moves or stays as it is. -/
theorem step (h : r.RunsAll nodes env cap collect)
    (now : (r.state t).Admits nodes env cap collect (r.admitted nodes.length t) failure b) :
    r.state (t + 1) = r.state t ∨
      Execution.AdmissionMove nodes env cap collect (r.admitted nodes.length t) failure b
        (r.state t) (r.store t) (r.state (t + 1)) (r.store (t + 1)) := by
  rcases r.step t with ⟨policy, depth, moved⟩ | same
  · exact .inr (now.move (h.calm t) moved)
  · exact .inl same

theorem admitted_of_same (h : r.RunsAll nodes env cap collect) (same : r.state (t + 1) = r.state t) :
    r.admitted nodes.length (t + 1) = r.admitted nodes.length t := by
  rcases h.state t with ⟨exit, settled⟩ | ⟨failure, b, now⟩
  · exact admitted_of_settled (same.trans settled)
  · exact admitted_succ (same ▸ now)

/-- One more branch has been admitted, or as many as before; one more only while no failure has been
seen. -/
theorem admitted_cases (h : r.RunsAll nodes env cap collect) (t : Nat) :
    r.admitted nodes.length (t + 1) = r.admitted nodes.length t ∨
      r.admitted nodes.length (t + 1) = r.admitted nodes.length t + 1 ∧
        ∃ b n, nodes[r.admitted nodes.length t]? = some n ∧
          (r.state t).Admits nodes env cap collect (r.admitted nodes.length t) none b ∧
          (r.state (t + 1)).Admits nodes env cap collect (r.admitted nodes.length t + 1) none
            (b.push (r.admitted nodes.length t) (.enter n env)) := by
  rcases h.state t with ⟨exit, settled⟩ | ⟨failure, b, now⟩
  · exact .inl (admitted_of_settled (settled_stays settled (Nat.le_succ t)))
  · rcases h.step now with same | move
    · exact .inl (h.admitted_of_same same)
    · cases move with
      | absorbs _ next | moves _ _ _ next => exact .inl (admitted_succ next)
      | concludes settled => exact .inl (admitted_of_settled settled)
      | admits _ unfailed node _ next =>
        subst unfailed
        exact .inr ⟨admitted_succ next, b, _, node, now, next⟩

theorem admitted_mono (h : r.RunsAll nodes env cap collect) (htu : t ≤ u) :
    r.admitted nodes.length t ≤ r.admitted nodes.length u := by
  induction htu with
  | refl => exact le_rfl
  | @step u _ ih =>
    rcases h.admitted_cases u with same | ⟨more, -⟩
    · rw [same]
      exact ih
    · rw [more]
      exact ih.trans (Nat.le_succ _)

/-- Once a failure has been seen, it stays seen and nothing is admitted. -/
theorem failed_stays (h : r.RunsAll nodes env cap collect) (htu : t ≤ u)
    (now : (r.state t).Admits nodes env cap collect (r.admitted nodes.length t) failure b)
    (seen : failure.isSome = true) :
    r.admitted nodes.length u = r.admitted nodes.length t ∧
      ((∃ exit, r.state u = .settled exit) ∨ ∃ failure b, failure.isSome = true ∧
        (r.state u).Admits nodes env cap collect (r.admitted nodes.length u) failure b) := by
  induction htu with
  | refl => exact ⟨rfl, .inr ⟨failure, b, seen, now⟩⟩
  | @step u _ ih =>
    obtain ⟨same_count, state⟩ := ih
    rcases state with ⟨exit, settled⟩ | ⟨failure, b, seen, now⟩
    · have stays := settled_stays settled (Nat.le_succ u)
      exact ⟨(admitted_of_settled stays).trans same_count, .inl ⟨exit, stays⟩⟩
    · rcases h.step now with same | move
      · have count := h.admitted_of_same same
        refine ⟨count.trans same_count, .inr ⟨failure, b, seen, ?_⟩⟩
        rw [count, same]
        exact now
      · have goes_on : ∀ {failure' b'}, failure'.isSome = true →
            (r.state (u + 1)).Admits nodes env cap collect (r.admitted nodes.length u) failure' b' →
            r.admitted nodes.length (u + 1) = r.admitted nodes.length t ∧
              ((∃ exit, r.state (u + 1) = .settled exit) ∨ ∃ failure b, failure.isSome = true ∧
                (r.state (u + 1)).Admits nodes env cap collect
                  (r.admitted nodes.length (u + 1)) failure b) := by
          intro failure' b' seen' next
          have count := admitted_succ next
          refine ⟨count.trans same_count, .inr ⟨failure', b', seen', ?_⟩⟩
          rw [count]
          exact next
        cases move with
        | @absorbs i exit _ next =>
          refine goes_on ?_ next
          cases exit with
          | ok => exact seen
          | error => rfl
        | moves _ _ _ next => exact goes_on seen next
        | admits _ unfailed =>
          rw [unfailed] at seen
          cases seen
        | concludes settled =>
          exact ⟨(admitted_of_settled settled).trans same_count, .inl ⟨_, settled⟩⟩

/-! The course of one branch -/

omit [Tracing H] in
theorem branch?_of_admits {k : Nat} {e : Execution H}
    (h : e.Admits nodes env cap collect k failure b) (i : Nat) : e.branch? i = b.find? i := by
  obtain ⟨values, round, rfl⟩ := h.crew
  rfl

/-- A branch that is not admitted yet is not there. -/
theorem branch?_eq_none (h : r.RunsAll nodes env cap collect)
    (hi : r.admitted nodes.length t ≤ i) : (r.state t).branch? i = none := by
  rcases h.state t with ⟨exit, settled⟩ | ⟨failure, b, now⟩
  · rw [settled]
    rfl
  · rw [branch?_of_admits now]
    by_contra some
    have inside := Branches.mem_indices_iff.2 (Option.ne_none_iff_exists'.1 some)
    exact absurd (now.admitted i inside) (Nat.not_lt_of_le hi)

/-- A branch moves or stays as it is, until it has settled and is taken in. -/
theorem branch_step (h : r.RunsAll nodes env cap collect) (hx : (r.state t).branch? i = some x) :
    (r.state (t + 1)).branch? i = some x ∨
      (∃ policy depth x', x.move policy depth (r.store t) = some (x', r.store (t + 1)) ∧
        (r.state (t + 1)).branch? i = some x') ∨
      (r.state (t + 1)).branch? i = none ∧ ∃ exit, x = .settled exit := by
  rcases h.state t with ⟨exit, settled⟩ | ⟨failure, b, now⟩
  · rw [settled] at hx
    cases hx
  · rw [branch?_of_admits now] at hx
    rcases h.step now with same | move
    · rw [same, branch?_of_admits now]
      exact .inl hx
    · cases move with
      | @absorbs j exit found next =>
        rw [branch?_of_admits next]
        by_cases hij : i = j
        · subst hij
          rw [found] at hx
          exact .inr (.inr ⟨Branches.find?_erase_self now.distinct, exit, (Option.some.inj hx).symm⟩)
        · exact .inl ((Branches.find?_erase_ne hij b).trans hx)
      | admits _ _ _ _ next =>
        have inside := now.admitted i (Branches.mem_indices_iff.2 ⟨x, hx⟩)
        rw [branch?_of_admits next]
        exact .inl ((Branches.find?_push_ne inside.ne b _).trans hx)
      | @moves j f f' _ _ _ found moved next =>
        rw [branch?_of_admits next]
        by_cases hij : i = j
        · subst hij
          rw [found] at hx
          cases hx
          exact .inr (.inl ⟨_, _, f', moved, Branches.find?_set_self found f'⟩)
        · exact .inl ((Branches.find?_set_ne hij b f').trans hx)
      | concludes _ empty =>
        rw [empty] at hx
        cases hx

/-! What a crew has seen of failures -/

/-- A branch that is there no more has settled, and the crew remembers it if it has failed. -/
theorem taken_in (h : r.RunsAll nodes env cap collect)
    (now : (r.state t).Admits nodes env cap collect (r.admitted nodes.length t) failure b)
    (hx : (r.state t).branch? i = some x) (gone : (r.state (t + 1)).branch? i = none) :
    ∃ exit, x = .settled exit ∧ (r.state (t + 1)).Admits nodes env cap collect
      (r.admitted nodes.length t) (Execution.remember i exit failure) (b.erase i) := by
  rw [branch?_of_admits now] at hx
  rcases h.step now with same | move
  · rw [same, branch?_of_admits now, hx] at gone
    cases gone
  · cases move with
    | @absorbs j exit found next =>
      rw [branch?_of_admits next] at gone
      by_cases hij : i = j
      · subst hij
        rw [found] at hx
        exact ⟨exit, (Option.some.inj hx).symm, next⟩
      · rw [Branches.find?_erase_ne hij, hx] at gone
        cases gone
    | admits _ _ _ _ next =>
      have inside := now.admitted i (Branches.mem_indices_iff.2 ⟨x, hx⟩)
      rw [branch?_of_admits next, Branches.find?_push_ne inside.ne, hx] at gone
      cases gone
    | @moves j f f' _ _ _ found _ next =>
      rw [branch?_of_admits next] at gone
      have still := Branches.mem_indices_iff.2 ⟨x, hx⟩
      rw [← Branches.indices_set b j f'] at still
      obtain ⟨y, hy⟩ := Branches.mem_indices_iff.1 still
      rw [hy] at gone
      cases gone
    | concludes _ empty =>
      rw [empty] at hx
      cases hx

/-- What the crew remembers changes only when it takes a branch in. -/
theorem remembers (h : r.RunsAll nodes env cap collect) {failure' : Option (Nat × Failure H)}
    {b' : Branches H}
    (now : (r.state t).Admits nodes env cap collect (r.admitted nodes.length t) failure b)
    (later : (r.state (t + 1)).Admits nodes env cap collect (r.admitted nodes.length (t + 1))
      failure' b') :
    failure' = failure ∨ ∃ i exit, (r.state t).branch? i = some (.settled exit) ∧
      (r.state (t + 1)).branch? i = none ∧ failure' = Execution.remember i exit failure := by
  rcases h.step now with same | move
  · rw [same] at later
    exact .inl (now.unique later).1
  · cases move with
    | @absorbs i exit found next =>
      refine .inr ⟨i, exit, (branch?_of_admits now i).trans found, ?_, (next.unique later).1⟩
      rw [branch?_of_admits next]
      exact Branches.find?_erase_self now.distinct
    | admits _ unfailed _ _ next => exact .inl ((next.unique later).1.trans unfailed.symm)
    | moves _ _ _ next => exact .inl (next.unique later).1
    | concludes settled =>
      obtain ⟨values, round, here⟩ := later.crew
      rw [settled] at here
      cases here

/-- A failure is remembered from the moment on at which a branch that has failed is taken in, and not
before. -/
theorem isSome_failure_iff (h : r.RunsAll nodes env cap collect)
    (now : (r.state t).Admits nodes env cap collect (r.admitted nodes.length t) failure b) :
    failure.isSome = true ↔ r.SawFailure t := by
  induction t generalizing failure b with
  | zero =>
    rw [(h.start.unique now).1]
    constructor
    · intro seen
      cases seen
    · rintro ⟨u, i, f, before, -⟩
      exact absurd before (Nat.not_lt_zero u)
  | succ t ih =>
    rcases h.state t with ⟨exit, settled⟩ | ⟨failure₀, b₀, before⟩
    · obtain ⟨values, round, here⟩ := now.crew
      rw [settled_stays settled (Nat.le_succ t)] at here
      cases here
    · have known := ih before
      constructor
      · intro seen
        rcases h.remembers before now with rfl | ⟨i, exit, settled, gone, rfl⟩
        · exact (known.1 seen).later
        · cases exit with
          | ok => exact (known.1 seen).later
          | error f => exact ⟨t, i, f, Nat.lt_succ_self t, settled, gone⟩
      · rintro ⟨u, i, f, hu, settled, gone⟩
        rcases Nat.lt_succ_iff_lt_or_eq.1 hu with hu | rfl
        · have seen := known.2 ⟨u, i, f, hu, settled, gone⟩
          rcases h.remembers before now with rfl | ⟨j, exit, -, -, rfl⟩
          · exact seen
          · cases exit with
            | ok => exact seen
            | error => rfl
        · obtain ⟨exit, same, next⟩ := h.taken_in before settled gone
          cases same
          rw [(next.unique now).1]
          rfl

/-- Once a branch has failed, nothing is admitted any more, and sooner or later the crew remembers
it. -/
theorem failed_branch_stays (h : r.RunsAll nodes env cap collect) {f : Failure H} (htu : t ≤ u)
    (failed : (r.state t).branch? i = some (.settled (.error f))) :
    r.admitted nodes.length u = r.admitted nodes.length t ∧
      ((r.state u).branch? i = some (.settled (.error f)) ∨
        (∃ exit, r.state u = .settled exit) ∨ ∃ failure b, failure.isSome = true ∧
          (r.state u).Admits nodes env cap collect (r.admitted nodes.length u) failure b) := by
  induction htu with
  | refl => exact ⟨rfl, .inl failed⟩
  | @step u _ ih =>
    obtain ⟨same_count, here | ⟨exit, settled⟩ | ⟨failure, b, seen, now⟩⟩ := ih
    · rcases h.state u with ⟨exit, settled⟩ | ⟨failure, b, now⟩
      · rw [settled] at here
        cases here
      · have found := here
        rw [branch?_of_admits now] at found
        rcases h.step now with same | move
        · exact ⟨(h.admitted_of_same same).trans same_count, .inl (same ▸ here)⟩
        · cases move with
          | @absorbs j exit found' next =>
            have count := admitted_succ next
            refine ⟨count.trans same_count, ?_⟩
            by_cases hij : i = j
            · subst hij
              rw [found] at found'
              cases found'
              exact .inr (.inr ⟨_, _, rfl, count ▸ next⟩)
            · rw [branch?_of_admits next, Branches.find?_erase_ne hij]
              exact .inl found
          | admits unsettled => cases Branches.exit?_none unsettled found
          | moves idle => cases (now.suspended idle).2.1 i _ found
          | concludes _ empty =>
            rw [empty] at found
            cases found
    · have stays := settled_stays settled (Nat.le_succ u)
      exact ⟨(admitted_of_settled stays).trans same_count, .inr (.inl ⟨exit, stays⟩)⟩
    · obtain ⟨count, rest⟩ := h.failed_stays (Nat.le_succ u) now seen
      exact ⟨count.trans same_count, .inr rest⟩

/-- A branch that has been taken in does not come back. -/
theorem branch_gone (h : r.RunsAll nodes env cap collect) (hi : i < r.admitted nodes.length t)
    (gone : (r.state t).branch? i = none) : (r.state (t + 1)).branch? i = none := by
  rcases h.state t with ⟨exit, settled⟩ | ⟨failure, b, now⟩
  · rw [settled_stays settled (Nat.le_succ t)]
    rfl
  · rw [branch?_of_admits now] at gone
    rcases h.step now with same | move
    · rw [same, branch?_of_admits now]
      exact gone
    · have still : ∀ {b' : Branches H}, b'.indices = b.indices → b'.find? i = none := by
        intro b' kept
        by_contra some
        have inside := Branches.mem_indices_iff.2 (Option.ne_none_iff_exists'.1 some)
        obtain ⟨x, found⟩ := Branches.mem_indices_iff.1 (kept ▸ inside)
        rw [gone] at found
        cases found
      cases move with
      | @absorbs j exit _ next =>
        rw [branch?_of_admits next]
        by_cases hij : i = j
        · exact hij ▸ Branches.find?_erase_self now.distinct
        · exact (Branches.find?_erase_ne hij b).trans gone
      | admits _ _ _ _ next =>
        rw [branch?_of_admits next]
        exact (Branches.find?_push_ne hi.ne b _).trans gone
      | moves _ _ _ next =>
        rw [branch?_of_admits next]
        exact still (Branches.indices_set ..)
      | concludes settled =>
        rw [settled]
        rfl

/-- A branch is there as its own course goes, until that has settled and is taken in. -/
theorem exists_course (h : r.RunsAll nodes env cap collect) {a : Nat}
    (hi : i < r.admitted nodes.length a) (hx : (r.state a).branch? i = some x) :
    ∃ c : Course H, c.state 0 = x ∧ (∀ v, c.store v = r.store (a + v)) ∧
      ∀ v, (r.state (a + v)).branch? i = some (c.state v) ∨
        (r.state (a + v)).branch? i = none ∧ ∃ exit, c.state v = .settled exit := by
  -- the branch as it is seen, and as it was last seen when it is there no more
  let seen : Nat → Execution H := fun v =>
    v.rec x fun v last => ((r.state (a + v + 1)).branch? i).getD last
  have seen_succ : ∀ v, seen (v + 1) = ((r.state (a + v + 1)).branch? i).getD (seen v) := fun _ => rfl
  have there : ∀ v, (r.state (a + v)).branch? i = some (seen v) ∨
      (r.state (a + v)).branch? i = none ∧ ∃ exit, seen v = .settled exit := by
    intro v
    induction v with
    | zero => exact .inl hx
    | succ v ih =>
      rw [seen_succ, ← Nat.add_assoc]
      rcases ih with now | ⟨gone, exit, settled⟩
      · rcases h.branch_step now with same | ⟨_, _, x', -, next⟩ | ⟨gone, exit, settled⟩
        · rw [same]
          exact .inl rfl
        · rw [next]
          exact .inl rfl
        · rw [gone]
          exact .inr ⟨rfl, exit, settled⟩
      · have later := hi.trans_le (h.admitted_mono (Nat.le_add_right a v))
        rw [h.branch_gone later gone]
        exact .inr ⟨rfl, exit, settled⟩
  refine ⟨⟨seen, fun v => r.store (a + v), fun v => ?_⟩, rfl, fun _ => rfl, there⟩
  rw [seen_succ]
  rcases there v with now | ⟨gone, -⟩
  · rcases h.branch_step now with same | ⟨policy, depth, x', moved, next⟩ | ⟨gone, -⟩
    · rw [same]
      exact .inr rfl
    · rw [next]
      exact .inl ⟨policy, depth, moved⟩
    · rw [gone]
      exact .inr rfl
  · have later := hi.trans_le (h.admitted_mono (Nat.le_add_right a v))
    rw [h.branch_gone later gone]
    exact .inr rfl

/-- Each branch that has been admitted was admitted at one instant, and entered then. -/
theorem exists_admission (h : r.RunsAll nodes env cap collect)
    (hi : i < r.admitted nodes.length t) :
    ∃ u n, u < t ∧ r.admitted nodes.length u = i ∧ r.admitted nodes.length (u + 1) = i + 1 ∧
      nodes[i]? = some n ∧ (r.state (u + 1)).branch? i = some (.enter n env) := by
  induction t with
  | zero => exact absurd hi (Nat.not_lt_zero i)
  | succ t ih =>
    by_cases before : i < r.admitted nodes.length t
    · obtain ⟨u, n, hu, rest⟩ := ih before
      exact ⟨u, n, Nat.lt_succ_of_lt hu, rest⟩
    · rcases h.admitted_cases t with same | ⟨more, b, n, node, now, next⟩
      · rw [same] at hi
        exact absurd hi before
      · have here : r.admitted nodes.length t = i := by omega
        rw [here] at more node now next
        refine ⟨t, n, Nat.lt_succ_self t, here, more, node, ?_⟩
        rw [branch?_of_admits next]
        exact Branches.find?_push_self (fun hb => (now.admitted i hb).false) _

end RunsAll

/-- Branch `i` is admitted at the instant `u`, and is from then on as its own course `c` goes, over the
same stores, until that has settled and is taken in. After that it is gone. -/
structure Ran (r : Course H) (i : Nat) (n : Node H) (env : Env) (u : Nat) (c : Course H) : Prop where
  before : ∀ v, v ≤ u → (r.state v).branch? i = none
  entered : c.state 0 = .enter n env
  shared : ∀ v, c.store v = r.store (u + 1 + v)
  there : ∀ v, (r.state (u + 1 + v)).branch? i = some (c.state v) ∨
    (r.state (u + 1 + v)).branch? i = none ∧ ∃ exit, c.state v = .settled exit
  gone : ∀ v w, v ≤ w → (r.state (u + 1 + v)).branch? i = none →
    (r.state (u + 1 + w)).branch? i = none

namespace RunsAll

theorem gone_stays (h : r.RunsAll nodes env cap collect) (hi : i < r.admitted nodes.length t)
    (htu : t ≤ u) (gone : (r.state t).branch? i = none) : (r.state u).branch? i = none := by
  induction htu with
  | refl => exact gone
  | @step u htu ih => exact h.branch_gone (hi.trans_le (h.admitted_mono htu)) ih

/-- Each branch that has been admitted is run once, and to its end. -/
theorem ran (h : r.RunsAll nodes env cap collect) (hi : i < r.admitted nodes.length t) :
    ∃ u n c, u < t ∧ r.admitted nodes.length u = i ∧ nodes[i]? = some n ∧ r.Ran i n env u c := by
  obtain ⟨u, n, hut, here, more, node, entered⟩ := h.exists_admission hi
  have inside : i < r.admitted nodes.length (u + 1) := by omega
  obtain ⟨c, begins, shared, there⟩ := h.exists_course inside entered
  refine ⟨u, n, c, hut, here, node, fun v hv => ?_, begins, shared, there, fun v w hvw gone => ?_⟩
  · exact h.branch?_eq_none (here ▸ h.admitted_mono hv)
  · have still := h.admitted_mono (Nat.le_add_right (u + 1) v)
    exact h.gone_stays (inside.trans_le still) (Nat.add_le_add_left hvw _) gone

/-- When all branches have settled and none may be admitted, the crew takes in what is left of them,
and then settles. -/
theorem winds_up (h : r.RunsAll nodes env cap collect)
    (now : (r.state t).Admits nodes env cap collect (r.admitted nodes.length t) failure b)
    (settled : ∀ i f, b.find? i = some f → ∃ exit, f = .settled exit)
    (full : r.admitted nodes.length t = nodes.length ∨ failure.isSome = true) :
    (∃ moved, (r.state t).move .standard 0 (r.store t) = some moved) ∧
      (r.state (t + 1) = r.state t ∨
        b = .nil ∧ (∃ exit, r.state (t + 1) = .settled exit) ∨
        ∃ i exit, b.find? i = some (.settled exit) ∧ (r.state (t + 1)).Admits nodes env cap collect
          (r.admitted nodes.length t) (Execution.remember i exit failure) (b.erase i)) := by
  have busy : ¬ (r.state t).IsIdle := by
    intro idle
    obtain ⟨some_left, under_way, -⟩ := now.suspended idle
    cases b with
    | nil => exact some_left rfl
    | cons i f rest =>
      have found : (Branches.cons i f rest).find? i = some f := if_pos rfl
      obtain ⟨exit, rfl⟩ := settled i f found
      cases under_way i _ found
  constructor
  · obtain ⟨values, round, here⟩ := now.crew
    rw [here] at busy ⊢
    exact Execution.exists_move_of_not_idle busy ..
  · rcases h.step now with same | move
    · exact .inl same
    · cases move with
      | @absorbs i exit found next => exact .inr (.inr ⟨i, exit, found, next⟩)
      | admits _ unfailed node =>
        rcases full with all | seen
        · rw [all, List.getElem?_eq_none (Nat.le_refl _)] at node
          cases node
        · rw [unfailed] at seen
          cases seen
      | moves idle => exact absurd idle busy
      | concludes settled empty => exact .inr (.inl ⟨empty, _, settled⟩)

end RunsAll

end Course

/-- Whatever is about to be entered in a run, at whatever depth, has the cap of the run. -/
theorem Story.cap_of_run [Tracing H] {w : Story H} {node : Node H} {at_start : Env} {t : Nat}
    (begins : (w.state 0).execution = .enter node at_start) (ht : t ≤ w.last) {α : List Hop}
    {n : Node H} {envn : Env} (hx : w.part? α t = some (.enter n envn)) :
    envn.concurrency = at_start.concurrency := by
  obtain ⟨child, here⟩ := (Story.within begins ht).at? hx
  cases here with
  | enter _ cap => exact cap

namespace Course

variable [Tracing H]

/-- Running all admits the effects in the order of the list, each of them once. At every moment those
that have been admitted are the first few, and no more than the cap allows have not been taken in. It
waits only while some of them are under way, and if one more might run then, all have been admitted
or a failure has been seen: an effect that has failed has been taken in. Once an effect has failed,
nothing is admitted any more. Each is entered with the environment of the step and run on its own
until it has settled. When all that were admitted have settled and none may be admitted, the step
takes them in and settles, and it never settles otherwise.
The cap is its own, or else the cap of the run, in whatever the step is nested. -/
theorem all_admits_in_order (r : Course H) (cap : Option Nat) (collect : List (Value H) → Exit H)
    (nodes : List (Node H)) (env : Env) (s : Store H)
    (start : r.state 0 = (Execution.start env s (.all cap collect nodes)).1)
    (calm : ∀ t i p, (r.state t).branch? i ≠ some (.unwound p)) :
    (if s.isFired env.signal then ∀ t, r.state t = .settled (.error .aborted)
    else
      (∀ t, (∃ exit, r.state t = .settled exit) ∨ ∃ failure b,
        (r.state t).Admits nodes env cap collect (r.admitted nodes.length t) failure b) ∧
      (∀ t i f, (r.state t).branch? i = some (.settled (.error f)) → ∀ u, t ≤ u →
        r.admitted nodes.length u = r.admitted nodes.length t) ∧
      (∀ t failure b,
        (r.state t).Admits nodes env cap collect (r.admitted nodes.length t) failure b →
        (failure.isSome = true ↔ r.SawFailure t) ∧
        ((r.state t).IsIdle → b ≠ .nil ∧ (∀ i f, b.find? i = some f → f.ended = false) ∧
          ((∀ n, cap.or env.concurrency = some n → b.length < max 1 n) →
            r.admitted nodes.length t = nodes.length ∨ failure.isSome = true)) ∧
        (failure.isSome = true → ∀ u, t ≤ u →
          r.admitted nodes.length u = r.admitted nodes.length t) ∧
        ((∀ i f, b.find? i = some f → ∃ exit, f = .settled exit) →
          r.admitted nodes.length t = nodes.length ∨ failure.isSome = true →
          (∃ moved, (r.state t).move .standard 0 (r.store t) = some moved) ∧
            (r.state (t + 1) = r.state t ∨
              b = .nil ∧ (∃ exit, r.state (t + 1) = .settled exit) ∨
              ∃ i exit, b.find? i = some (.settled exit) ∧
                (r.state (t + 1)).Admits nodes env cap collect (r.admitted nodes.length t)
                  (Execution.remember i exit failure) (b.erase i))) ∧
        ∀ exit, r.state (t + 1) = .settled exit →
          b = .nil ∧ (r.admitted nodes.length t = nodes.length ∨ failure.isSome = true)) ∧
      ∀ t i, i < r.admitted nodes.length t → ∃ u n c, u < t ∧ r.admitted nodes.length u = i ∧
        nodes[i]? = some n ∧ r.Ran i n env u c) ∧
    ∀ (a : Shape H.Plain) (runner : Runner H) (e : Effect H a) (signal : Signal) (s s' : Store H)
      (x : Execution H) (scope : Scope) (w : Story H) (t : Nat) (α : List Hop) (n : Node H)
      (envn : Env), runner.launch e signal s = (.ok x, scope, s') → (w.state 0).execution = x →
      t ≤ w.last → w.part? α t = some (.enter n envn) →
      envn.concurrency = runner.settings.defaultConcurrency := by
  constructor
  · by_cases hf : s.isFired env.signal = true
    · rw [if_pos hf]
      intro t
      refine settled_stays (t := 0) ?_ (Nat.zero_le t)
      rw [start]
      simp [Execution.start, Execution.source, hf]
    · rw [if_neg hf]
      have runs : r.RunsAll nodes env cap collect := by
        refine ⟨?_, calm⟩
        rw [start]
        simp only [Execution.start, Execution.source, hf, Bool.false_eq_true, if_false]
        exact Execution.Admits.start ..
      refine ⟨runs.state, fun t i f failed u htu => (runs.failed_branch_stays htu failed).1,
        fun t failure b now => ⟨runs.isSome_failure_iff now, now.suspended, fun seen u htu => ?_,
          runs.winds_up now, fun exit settled => ?_⟩, fun t i hi => runs.ran hi⟩
      · exact (runs.failed_stays htu now seen).1
      · rcases runs.step now with same | move
        · obtain ⟨values, round, here⟩ := now.crew
          rw [settled, here] at same
          cases same
        · rw [settled] at move
          cases move with
          | absorbs _ next | admits _ _ _ _ next | moves _ _ _ next =>
            obtain ⟨values, round, here⟩ := next.crew
            cases here
          | concludes _ empty full => exact ⟨empty, full⟩
  · intro a runner e signal s s' x scope w t α n envn launched begins ht hx
    unfold Runner.launch at launched
    dsimp only at launched
    split at launched
    · cases launched
      exact Story.cap_of_run begins ht hx
    · cases launched

def failureAndValue : List (Node Host.counting) :=
  [.sync (Code.pure (.error (.ofKey "late"))),
    .sync (Code.pure (.ok ⟨.bare (.plain ()), (7 : Nat)⟩))]

/-- The crew of the two, one of which may run at a time. -/
def singleCrew (k : Nat) (failure : Option (Nat × Failure Host.counting)) (round : Round)
    (b : Branches Host.counting) : Execution Host.counting :=
  .crew rootEnv (.all (some 1) (Value.takeAll (.bare (.plain ())))
    (Crew.unadmitted failureAndValue k) [none, none] failure) round b

/-- The first fails, and the second is never admitted. -/
def singleCourse : Course Host.counting where
  state
    | 0 => singleCrew 0 none {} .nil
    | 1 => singleCrew 1 none { queue := [0] }
        (.cons 0 (.enter (.sync (Code.pure (.error (.ofKey "late")))) rootEnv) .nil)
    | 2 => singleCrew 1 none { asked := [0] } (.cons 0 (.settled (.error (.ofKey "late"))) .nil)
    | 3 => singleCrew 1 (some (0, .ofKey "late")) {} .nil
    | _ => .settled (.error (.ofKey "late"))
  store
    | 0 | 1 | 2 => pairStore
    | _ => pairStore.record (.branchFailed 0 "late")
  step
    | 0 | 1 | 2 | 3 => .inl ⟨.standard, 0, rfl⟩
    | _ + 4 => .inr rfl

/-- What has failed was run to its end, and from its failure on nothing is admitted. -/
theorem second_is_not_admitted :
    (∀ u, 2 ≤ u → singleCourse.admitted 2 u = 1) ∧
      ∃ n c, singleCourse.Ran 0 n rootEnv 0 c := by
  have calm : ∀ t i p, (singleCourse.state t).branch? i ≠ some (.unwound p) := by
    intro t i p h
    rcases t with _ | _ | _ | _ | t
    · cases h
    · rcases Branches.find?_cons h with ⟨-, gone⟩ | h
      · cases gone
      · cases h
    · rcases Branches.find?_cons h with ⟨-, gone⟩ | h
      · cases gone
      · cases h
    · cases h
    · cases h
  obtain ⟨law, -⟩ := all_admits_in_order singleCourse (some 1) (Value.takeAll (.bare (.plain ())))
    failureAndValue rootEnv pairStore rfl calm
  rw [if_neg (by decide)] at law
  obtain ⟨-, freezes, -, each⟩ := law
  constructor
  · exact freezes 2 0 (.ofKey "late") rfl
  · obtain ⟨u, n, c, before, -, -, ran⟩ := each 1 0 Nat.one_pos
    cases Nat.lt_one_iff.1 before
    exact ⟨n, c, ran⟩

end Course

end ScopedEffects
