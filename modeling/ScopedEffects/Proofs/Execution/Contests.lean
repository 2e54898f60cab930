import ScopedEffects.Proofs.Execution.Containment

/-! Contests: combinators that settle with one of their branches. The first exit that wins is kept
whatever the other branches do while they are cancelled, and each of them goes on until it has
settled, with its finalizers. Only a panic that no step catches can end the contest in another
way. -/

namespace ScopedEffects

variable {H : Host}

inductive Contest where
  | any
  | race
  deriving DecidableEq

namespace Contest

def node : Contest → List (Node H) → Node H
  | any, nodes => .any nodes
  | race, nodes => .race nodes

/-- Does a branch win by settling so? -/
def accepts : Contest → Exit H → Bool
  | any, .ok _ => true
  | any, .error _ => false
  | race, _ => true

end Contest

namespace Crew

def contest? : Crew H → Option Contest
  | .all .. => none
  | .any .. => some .any
  | .race .. => some .race

/-- The exit that the combinator has decided on. -/
def decision : Crew H → Option (Exit H)
  | .all .. => none
  | .any _ _ won => won.map .ok
  | .race _ won => won

variable {c : Crew H} {k : Contest} {i : Nat} {exit : Exit H} {s : Store H} {env : Env}

theorem next?_of_contest (h : c.contest? = some k) (env : Env) (running : Nat) :
    c.next? env running = none := by
  cases c <;> simp_all [contest?, next?]

theorem contest?_absorb (h : c.contest? = some k) (i : Nat) (exit : Exit H) (s : Store H) :
    (c.absorb i exit s).1.contest? = some k := by
  cases c with
  | all => cases h
  | any child errors won =>
    cases won with
    | some => exact h
    | none => cases exit <;> exact h
  | race child won => cases won <;> exact h

/-- What is decided stays decided, and what wins first decides. -/
theorem decision_absorb (h : c.contest? = some k) (i : Nat) (exit : Exit H) (s : Store H) :
    (c.absorb i exit s).1.decision =
      c.decision.or (if k.accepts exit then some exit else none) := by
  cases c with
  | all => cases h
  | any child errors won =>
    cases h
    cases won with
    | some => rfl
    | none => cases exit <;> rfl
  | race child won =>
    cases h
    cases won <;> rfl

theorem conclude_of_decision (h : c.decision = some exit) (env : Env) (s : Store H) :
    c.conclude env s = exit := by
  cases c with
  | all => cases h
  | any child errors won =>
    cases won with
    | none => cases h
    | some => exact Option.some.inj h
  | race child won =>
    have h : won = some exit := h
    rw [h]
    rfl

end Crew

/-- The branch of each node of a list. -/
theorem Branches.find?_ofNodes_add (env : Env) (k : Nat) (nodes : List (Node H)) (j : Nat) :
    (ofNodes env k nodes).find? (k + j) = nodes[j]?.map fun n => .enter n env := by
  induction nodes generalizing k j with
  | nil => rfl
  | cons n rest ih =>
    rw [ofNodes, find?]
    cases j with
    | zero => simp
    | succ j =>
      rw [if_neg (by omega), List.getElem?_cons_succ, ← ih (k + 1) j]
      congr 1
      omega

theorem Branches.unsettled {b : Branches H} (h : b.exit? = none) (i : Nat) (exit : Exit H) :
    b.find? i ≠ some (.settled exit) := by
  intro found
  have := exit?_none h found
  cases this

namespace Story

variable [Tracing H] {r : Story H} {node : Node H} {env envf : Env} {α β : List Hop}
  {k : Contest} {a t u z i : Nat} {c c' : Crew H} {b : Branches H} {exit : Exit H}

/-- The contest at the address, whose branches have begun after the instant `a`, is under way. One
branch at most has settled that is not absorbed. Undecided, the crew has not absorbed any exit that
wins; and what it has decided on was at some instant the only exit that had won. -/
structure Contending (r : Story H) (α : List Hop) (k : Contest) (envf : Env) (a t : Nat)
    (c : Crew H) (b : Branches H) : Prop where
  here : ∃ round, r.part? α t = some (.crew envf c round b)
  contest : c.contest? = some k
  single : ∀ i j e e', b.find? i = some (.settled e) → b.find? j = some (.settled e') → i = j
  undecided : c.decision = none → ∀ i u e, a < u → u ≤ t →
    r.part? (α ++ [.branch i]) u = some (.settled e) → k.accepts e = true →
    b.find? i = some (.settled e)
  decided : ∀ e, c.decision = some e → ∃ i u, a < u ∧ u ≤ t ∧
    r.part? (α ++ [.branch i]) u = some (.settled e) ∧ k.accepts e = true ∧
    ∀ j v e', a < v → v ≤ u → r.part? (α ++ [.branch j]) v = some (.settled e') →
      k.accepts e' = true → j = i ∧ e' = e

theorem part?_branch {round : Round} (h : r.part? α t = some (.crew envf c round b)) (i : Nat) :
    r.part? (α ++ [.branch i]) t = b.find? i := by
  unfold part? at h ⊢
  rw [Execution.at?_snoc, h]
  rfl

namespace Contending

variable {b' : Branches H} {round line : Round}

/-- The contest goes on with other branches, and the exits that have won so far are still there. -/
theorem next (h : r.Contending α k envf a t c b)
    (later : r.part? α (t + 1) = some (.crew envf c line b'))
    (single : ∀ i j e e', b'.find? i = some (.settled e) → b'.find? j = some (.settled e') → i = j)
    (kept : ∀ i e, b.find? i = some (.settled e) → b'.find? i = some (.settled e)) :
    r.Contending α k envf a (t + 1) c b' where
  here := ⟨line, later⟩
  contest := h.contest
  single := single
  undecided := by
    intro none i u e hau hut settled wins
    rcases Nat.lt_or_eq_of_le hut with before | rfl
    · exact kept i e (h.undecided none i u e hau (Nat.le_of_lt_succ before) settled wins)
    · rw [part?_branch later] at settled
      exact settled
  decided := by
    intro e won
    obtain ⟨i, u, hau, hut, rest⟩ := h.decided e won
    exact ⟨i, u, hau, hut.trans (Nat.le_succ t), rest⟩

/-- The crew absorbs a branch. If nothing was decided and the branch wins, it is the only one that
has. -/
theorem absorbs (h : r.Contending α k envf a t c b) (after : a < t) (distinct : b.indices.Nodup)
    (settled : b.find? i = some (.settled exit))
    {s : Store H} (later : r.part? α (t + 1) =
      some (.crew envf (c.absorb i exit s).1 line (b.erase i))) :
    r.Contending α k envf a (t + 1) (c.absorb i exit s).1 (b.erase i) := by
  obtain ⟨round, here⟩ := h.here
  have others : ∀ j e, (b.erase i).find? j ≠ some (.settled e) := by
    intro j e found
    obtain ⟨other, old⟩ := Branches.find?_of_erase distinct found
    exact other (h.single j i e exit old settled)
  have only : c.decision = none → ∀ j v e', a < v → v ≤ t →
      r.part? (α ++ [.branch j]) v = some (.settled e') → k.accepts e' = true →
      j = i ∧ e' = exit := by
    intro none j v e' hav hvt won wins
    have still := h.undecided none j v e' hav hvt won wins
    have same : j = i := h.single j i e' exit still settled
    rw [same, settled] at still
    cases still
    exact ⟨same, rfl⟩
  have decision := Crew.decision_absorb h.contest i exit s
  refine ⟨⟨line, later⟩, Crew.contest?_absorb h.contest i exit s, ?_, ?_, ?_⟩
  · intro j j' e e' found
    exact absurd found (others j e)
  · intro none j u e hau hut won wins
    rw [decision, Option.or_eq_none_iff] at none
    have loses : ¬ k.accepts exit = true := by
      intro accepted
      simp [accepted] at none
    rcases Nat.lt_or_eq_of_le hut with before | rfl
    · obtain ⟨-, rfl⟩ := only none.1 j u e hau (Nat.le_of_lt_succ before) won wins
      exact absurd wins loses
    · rw [part?_branch later] at won
      exact absurd won (others j e)
  · intro e won
    rw [decision] at won
    cases hd : c.decision with
    | some e₀ =>
      rw [hd] at won
      cases won
      obtain ⟨j, u, hau, hut, rest⟩ := h.decided _ hd
      exact ⟨j, u, hau, hut.trans (Nat.le_succ t), rest⟩
    | none =>
      rw [hd, Option.none_or] at won
      split at won
      · rename_i wins
        cases won
        refine ⟨i, t, after, Nat.le_succ t, ?_, wins, only hd⟩
        rw [part?_branch here]
        exact settled
      · cases won

end Contending

/-- From one instant to the next the contest goes on, or it is over and no branch is left. -/
theorem Launched.contends (h : r.Launched node env) (steady : r.Steady) (ht : t < r.last)
    (after : a < t) (hc : r.Contending α k envf a t c b) :
    (∃ c' b', r.Contending α k envf a (t + 1) c' b') ∨
      b.indices = [] ∧
        r.part? α (t + 1) = some (.settled (c.conclude envf (r.state t).store)) := by
  obtain ⟨round, here⟩ := hc.here
  rcases h.follow steady ht here rfl with same | ⟨policy, depth, x', moved, later⟩
  · exact .inl ⟨c, b, hc.next same hc.single fun _ _ found => found⟩
  · obtain ⟨-, -, distinct, branches⟩ := (h.sound steady ht.le).at? here
    generalize (r.state (t + 1)).store = s at moved
    cases Execution.move_crew distinct moved with
    | keeps keeps =>
      cases keeps with
      | panics unwound => exact (branches.find? unwound).elim
      | absorbs settled => exact .inl ⟨_, _, hc.absorbs after distinct settled later⟩
      | admits next =>
        rw [Crew.next?_of_contest hc.contest] at next
        cases next
      | concludes _ none_left => exact .inr ⟨none_left, later⟩
    | @moves i f f' b' line policy' depth' s₁ idle same others found found' hf =>
      have free := Branches.unsettled idle.unsettled
      have moving : ∀ j e, b'.find? j = some (.settled e) → j = i := by
        intro j e settled
        by_contra hj
        rw [others j hj] at settled
        exact free j e settled
      refine .inl ⟨c, b', hc.next later ?_ fun j e settled => absurd settled (free j e)⟩
      intro j j' e e' hj hj'
      rw [moving j e hj, moving j' e' hj']

theorem Launched.contest_ends (h : r.Launched node env) (steady : r.Steady)
    (ended : (r.state r.last).execution.ended = true) (ht : t ≤ r.last) (after : a < t)
    (hc : r.Contending α k envf a t c b) :
    ∃ z c' b', t ≤ z ∧ z < r.last ∧
      (∀ u, t ≤ u → u ≤ z → ∃ c b, r.Contending α k envf a u c b) ∧
      r.Contending α k envf a z c' b' ∧ b'.indices = [] ∧
      r.part? α (z + 1) = some (.settled (c'.conclude envf (r.state z).store)) := by
  obtain ⟨left, hl⟩ := Nat.exists_eq_add_of_le ht
  induction left generalizing t c b with
  | zero =>
    obtain ⟨round, here⟩ := hc.here
    rw [show t = r.last from hl.symm] at here
    have gone := Execution.at?_ended ended here
    cases gone
  | succ left ih =>
    have less : t < r.last := by omega
    have now : ∀ u, t ≤ u → u ≤ t → ∃ c b, r.Contending α k envf a u c b := by
      intro u htu hut
      rw [Nat.le_antisymm hut htu]
      exact ⟨c, b, hc⟩
    rcases h.contends steady less after hc with ⟨c₁, b₁, on⟩ | ⟨none_left, settled⟩
    · obtain ⟨z, c', b', htz, hz, during, rest⟩ := ih less (Nat.lt_succ_of_lt after) on (by omega)
      refine ⟨z, c', b', by omega, hz, fun u htu huz => ?_, rest⟩
      rcases Nat.lt_or_eq_of_le htu with later | rfl
      · exact during u later huz
      · exact now t (Nat.le_refl t) (Nat.le_refl t)
    · exact ⟨t, c, b, Nat.le_refl t, less, now, hc, none_left, settled⟩

/-! The beginning and the end of a contest -/

omit [Tracing H] in
theorem start_contest (k : Contest) (nodes : List (Node H)) (envf : Env) (s : Store H) :
    s.isFired envf.signal = true ∧
        Execution.start envf s (k.node nodes) = (.settled (.error .aborted), s) ∨
      s.isFired envf.signal = false ∧ ∃ child c,
        (Execution.start envf s (k.node nodes)).1 =
          .crew envf c { queue := List.range nodes.length }
            (.ofNodes { envf with signal := child } 0 nodes) ∧
        c.contest? = some k ∧ c.decision = none := by
  cases hs : s.isFired envf.signal with
  | true =>
    refine .inl ⟨rfl, ?_⟩
    cases k <;> simp [Contest.node, Execution.start, Execution.source, hs]
  | false =>
    refine .inr ⟨rfl, (s.childSignal envf.signal).1, ?_⟩
    cases k with
    | any =>
      refine ⟨.any (s.childSignal envf.signal).1 (nodes.map fun _ => none) none, ?_, rfl, rfl⟩
      simp [Contest.node, Execution.start, Execution.source, hs]
    | race =>
      refine ⟨.race (s.childSignal envf.signal).1 none, ?_, rfl, rfl⟩
      simp [Contest.node, Execution.start, Execution.source, hs]

/-- All branches begin with the contest. -/
theorem contending_of_start {nodes : List (Node H)} {child : Signal} {round : Round}
    (here : r.part? α (a + 1) =
      some (.crew envf c round (.ofNodes { envf with signal := child } 0 nodes)))
    (contest : c.contest? = some k) (undecided : c.decision = none) :
    r.Contending α k envf a (a + 1) c (.ofNodes { envf with signal := child } 0 nodes) := by
  have none : ∀ i e, (Branches.ofNodes { envf with signal := child } 0 nodes).find? i ≠
      some (.settled e) := by
    intro i e found
    obtain ⟨n, -, entered⟩ := Branches.find?_ofNodes found
    cases entered
  refine ⟨⟨round, here⟩, contest, fun i j e e' found => absurd found (none i e), ?_, ?_⟩
  · intro _ i u e hau hua settled _
    have same : u = a + 1 := Nat.le_antisymm hua hau
    rw [same, part?_branch here] at settled
    exact settled
  · intro e won
    rw [undecided] at won
    cases won

/-- Of the exits that win, the branch `j` has settled first, at the instant `v`. -/
structure FirstWin (r : Story H) (α : List Hop) (k : Contest) (a v j : Nat) (exit : Exit H) :
    Prop where
  after : a < v
  settled : r.part? (α ++ [.branch j]) v = some (.settled exit)
  wins : k.accepts exit = true
  first : ∀ j' w e, a < w → w ≤ v → r.part? (α ++ [.branch j']) w = some (.settled e) →
    k.accepts e = true → w = v ∧ j' = j

theorem exists_firstWin {j : Nat} (hau : a < u) (settled : r.part? (α ++ [.branch j]) u =
      some (.settled exit)) (wins : k.accepts exit = true)
    (during : ∀ v, a < v → v ≤ u → ∃ c b, r.Contending α k envf a v c b) :
    ∃ v j e, v ≤ u ∧ r.FirstWin α k a v j e := by
  classical
  have some_win : ∃ v, a < v ∧ ∃ j e, r.part? (α ++ [.branch j]) v = some (.settled e) ∧
      k.accepts e = true := ⟨u, hau, j, exit, settled, wins⟩
  have least : Nat.find some_win ≤ u := Nat.find_min' some_win ⟨hau, j, exit, settled, wins⟩
  obtain ⟨after, i, e, first, accepted⟩ := Nat.find_spec some_win
  refine ⟨Nat.find some_win, i, e, least, after, first, accepted, ?_⟩
  intro i' w e' haw hw settled' wins'
  have same : w = Nat.find some_win := by
    apply Nat.le_antisymm hw
    exact Nat.find_min' some_win ⟨haw, i', e', settled', wins'⟩
  refine ⟨same, ?_⟩
  -- no two branches have settled at one instant and wait to be absorbed
  obtain ⟨c, b, contending⟩ := during _ after least
  obtain ⟨round, here⟩ := contending.here
  rw [same, part?_branch here] at settled'
  rw [part?_branch here] at first
  exact contending.single i' i e' e settled' first

/-- The contest settles with the first exit that wins, if one does. -/
theorem Contending.conclude_eq {v j : Nat} (h : r.Contending α k envf a t c b)
    (none_left : b.indices = []) (won : r.FirstWin α k a v j exit) (hvt : v ≤ t) (s : Store H) :
    c.conclude envf s = exit := by
  apply Crew.conclude_of_decision
  cases hd : c.decision with
  | none =>
    have still := h.undecided hd j v exit won.after hvt won.settled won.wins
    have inside := Branches.mem_indices_iff.2 ⟨_, still⟩
    rw [none_left] at inside
    cases inside
  | some e =>
    obtain ⟨i, u, hau, -, settled, wins, only⟩ := h.decided e hd
    rcases Nat.lt_or_ge u v with before | later
    · obtain ⟨same, -⟩ := won.first i u e hau before.le settled wins
      exact absurd same before.ne
    · obtain ⟨-, same⟩ := only j v exit won.after later won.settled won.wins
      rw [same]

/-- A finalizer under an execution runs to its end before nothing is left there. -/
theorem Launched.finalized_before (h : r.Launched node env) (steady : r.Steady)
    (ended : (r.state r.last).execution.ended = true) {envg : Env} {code : Code H (Node H)}
    {above : Execution H} (htz : t < z) (hz : z ≤ r.last)
    (hx : r.part? β t = some (.frame envg (.ensuring code) above)) (gone : r.part? β z = none) :
    ∃ upstream cleanup u v, t ≤ u ∧ v < z ∧ r.Finalized β envg code upstream cleanup u v := by
  have no_timer : ∀ (above : Execution H) (s : Store H),
      (Frame.ensuring code).expire envg above s = none := fun _ _ => rfl
  obtain ⟨u, upstream, htu, hu, frames, -, resumed, store⟩ :=
    h.frame_resumes steady ended no_timer (htz.le.trans hz) hx
  obtain ⟨cleanup, v, finalized⟩ := h.finalized steady ended hu resumed store
  refine ⟨upstream, cleanup, u, v, htu, ?_, finalized⟩
  -- the step is there from `t` on until it has settled at `v`
  by_contra later
  have hzv := Nat.le_of_not_lt later
  rcases Nat.lt_or_ge u z with huz | hzu
  · rcases Nat.lt_or_eq_of_le hzv with before | rfl
    · rcases finalized.runs with ⟨p, s, -, -, rfl⟩ | ⟨fin, s, -, -, -, during, -⟩
      · omega
      · obtain ⟨above', there⟩ := during z huz before
        rw [gone] at there
        cases there
    · have settled := finalized.settled
      rw [gone] at settled
      cases settled
  · obtain ⟨above', there⟩ := frames z htz.le hzu
    rw [gone] at there
    cases there

theorem part?_of_settled (h : r.part? α z = some (.settled exit)) (hop : Hop) (β : List Hop) :
    r.part? (α ++ hop :: β) z = none := by
  unfold part? at h ⊢
  rw [Execution.at?_append, h]
  rfl

/-- A race settles with the exit of the branch that settles first, and an `any` with the value of the
branch that succeeds first, in every run in which no retry and no tracer panics. Whatever the other
branches do after that, they are under way until they have settled, and so are their finalizers. A
panic that no step catches takes the place of what was decided, and the branches that are left are
dropped. -/
theorem losers_change_nothing (r : Story H) (node : Node H) (env : Env)
    (launched : r.Launched node env) (steady : r.Steady)
    (ended : (r.state r.last).execution.ended = true) :
    (∀ (k : Contest) nodes i α envf, i ≤ r.last →
      r.part? α i = some (.enter (k.node nodes) envf) → ∃ a, i ≤ a ∧ a < r.last ∧
      (∀ t, i ≤ t → t ≤ a → r.part? α t = some (.enter (k.node nodes) envf)) ∧
      ((r.state a).store.isFired envf.signal = true ∧
          r.part? α (a + 1) = some (.settled (.error .aborted)) ∨
        ∃ child z exit, a < z ∧ z ≤ r.last ∧ r.part? α z = some (.settled exit) ∧
          (∀ t, a < t → t < z → ∃ c round b, r.part? α t = some (.crew envf c round b)) ∧
          (∀ j n, nodes[j]? = some n → r.part? (α ++ [.branch j]) (a + 1) =
            some (.enter n { envf with signal := child })) ∧
          (∀ j, j < nodes.length →
            ∃ v e, v < z ∧ r.Settles (α ++ [.branch j]) (a + 1) v e) ∧
          (∀ j β t envg code above, a < t → t < z →
            r.part? (α ++ .branch j :: β) t = some (.frame envg (.ensuring code) above) →
            ∃ upstream cleanup u v, t ≤ u ∧ v < z ∧
              r.Finalized (α ++ .branch j :: β) envg code upstream cleanup u v) ∧
          ((k = .race ∧ nodes ≠ [] ∨ ∃ j u e, a < u ∧ u < z ∧
              r.part? (α ++ [.branch j]) u = some (.settled e) ∧ k.accepts e = true) →
            ∃ j v, v < z ∧ r.FirstWin α k a v j exit))) ∧
    ∀ (x : Execution H) s p s' sched depth, x.Unwinds s p s' →
      x.move sched depth s = some (.unwound p, s') ∧
      ∀ envc (c : Crew H) round (b : Branches H) i, b.find? i = some (.unwound p) →
        ∃ q, (Execution.crew envc c round b).move sched depth s' =
          some (.settled (.error (.ofPanic q)), b.drop s') := by
  constructor
  · intro k nodes i α envf hi entered
    obtain ⟨a, hia, ha, entering, policy, depth, x', moved, later⟩ :=
      launched.moves_later steady ended hi entered rfl
    refine ⟨a, hia, ha, entering, ?_⟩
    rw [Execution.move] at moved
    have begun : x' = (Execution.start envf (r.state a).store (k.node nodes)).1 :=
      (congrArg Prod.fst (Option.some.inj moved)).symm
    rcases start_contest k nodes envf (r.state a).store with ⟨fired, refused⟩ | ⟨-, live⟩
    · rw [refused] at begun
      subst begun
      exact .inl ⟨fired, later⟩
    · obtain ⟨child, c₀, crew, contest, undecided⟩ := live
      rw [crew] at begun
      subst begun
      have start := contending_of_start later contest undecided
      obtain ⟨z, c, b, haz, hz, during, last, none_left, settled⟩ :=
        launched.contest_ends steady ended ha (Nat.lt_succ_self a) start
      have branch : ∀ j n, nodes[j]? = some n → r.part? (α ++ [.branch j]) (a + 1) =
          some (.enter n { envf with signal := child }) := by
        intro j n hn
        have found := Branches.find?_ofNodes_add { envf with signal := child } 0 nodes j
        rw [Nat.zero_add, hn] at found
        rw [part?_branch later]
        exact found
      have settles : ∀ j, j < nodes.length →
          ∃ v e, v < z + 1 ∧ r.Settles (α ++ [.branch j]) (a + 1) v e := by
        intro j hj
        have there := branch j nodes[j] (List.getElem?_eq_getElem hj)
        exact launched.settled_before steady (haz.trans (Nat.le_succ z)) hz there rfl settled rfl
      refine .inr ⟨child, z + 1, _, by omega, hz, settled, ?_, branch, settles, ?_, ?_⟩
      · intro t hat htz
        obtain ⟨c, b, contending⟩ := during t hat (Nat.le_of_lt_succ htz)
        obtain ⟨round, here⟩ := contending.here
        exact ⟨c, round, b, here⟩
      · intro j β t envg code above hat htz frame
        have gone := part?_of_settled settled (.branch j) β
        exact launched.finalized_before steady ended htz hz frame gone
      · intro some_wins
        have win : ∃ j u e, a < u ∧ u ≤ z ∧
            r.part? (α ++ [.branch j]) u = some (.settled e) ∧ k.accepts e = true := by
          rcases some_wins with ⟨rfl, some_node⟩ | ⟨j, u, e, hau, huz, won, wins⟩
          · obtain ⟨v, e, hv, settle⟩ := settles 0 (List.length_pos_of_ne_nil some_node)
            exact ⟨0, v, e, Nat.lt_of_succ_lt settle.after, Nat.le_of_lt_succ hv,
              settle.settled, rfl⟩
          · exact ⟨j, u, e, hau, Nat.le_of_lt_succ huz, won, wins⟩
        obtain ⟨j, u, e, hau, huz, won, wins⟩ := win
        obtain ⟨v, j', e', hvu, first⟩ := exists_firstWin hau won wins
          fun v hav hvu => during v hav (hvu.trans huz)
        have same := last.conclude_eq none_left first (hvu.trans huz) (r.state z).store
        rw [same]
        exact ⟨j', v, Nat.lt_succ_of_le (hvu.trans huz), first⟩
  · intro x s p s' sched depth unwinds
    refine ⟨Execution.unwinds_iff.2 unwinds, ?_⟩
    intro envc c round b i found
    exact Execution.drops_of_unwound found sched depth s'

/-! A loser with a finalizer -/

def contested : Node Host.counting := .race [cleaning, guarded]

/-- The loser's finalizer runs under the signal that was numbered last. -/
def contestStore : Store Host.counting := { racedStore with signals := ⟨3⟩ }

def loserEnv : Env := racingEnv.detached racedStore

def contestCrew (won : Option (Exit Host.counting)) (round : Round)
    (branches : Branches Host.counting) : Execution Host.counting :=
  .crew guardedEnv (.race racingEnv.signal won) round branches

def contestStory : Story Host.counting where
  state
    | 0 => ⟨guardedStore 1, .enter contested guardedEnv, []⟩
    | 1 => ⟨guardedStore 2, contestCrew none { queue := [0, 1] }
        (.cons 0 (.enter cleaning racingEnv) (.cons 1 (.enter guarded racingEnv) .nil)), []⟩
    | 2 => ⟨guardedStore 2, contestCrew none { asked := [0], queue := [1] }
        (.cons 0 (.settled firstPast) (.cons 1 (.enter guarded racingEnv) .nil)), []⟩
    | 3 => ⟨racedStore, contestCrew (some firstPast) { queue := [1] }
        (.cons 1 (.enter guarded racingEnv) .nil), []⟩
    | 4 => ⟨racedStore, contestCrew (some firstPast) { asked := [1], queue := [1] }
        (.cons 1 (.frame racingEnv (.ensuring (Code.pure cleaning)) (.enter failing racingEnv))
          .nil), []⟩
    | 5 => ⟨racedStore, contestCrew (some firstPast) { asked := [1], queue := [1] }
        (.cons 1 (.frame racingEnv (.ensuring (Code.pure cleaning))
          (.settled (.error .aborted))) .nil), []⟩
    | 6 => ⟨contestStore, contestCrew (some firstPast) { asked := [1], queue := [1] }
        (.cons 1 (.frame loserEnv (.ensured (.error .aborted)) (.enter cleaning loserEnv)) .nil),
          []⟩
    | 7 => ⟨contestStore, contestCrew (some firstPast) { asked := [1], queue := [1] }
        (.cons 1 (.frame loserEnv (.ensured (.error .aborted)) (.settled firstPast)) .nil), []⟩
    | 8 => ⟨contestStore, contestCrew (some firstPast) { asked := [1] }
        (.cons 1 (.settled (.error .aborted)) .nil), []⟩
    | 9 => ⟨contestStore, contestCrew (some firstPast) {} .nil, []⟩
    | _ => ⟨contestStore, .settled firstPast, []⟩
  last := 10
  step
    | 0, _ | 1, _ | 2, _ | 3, _ | 4, _ | 5, _ | 6, _ | 7, _ | 8, _ | 9, _ =>
      @Machine.Step.moves _ _ _ .standard _ _ rfl
    | t + 10, h => absurd h (by omega)

/-- The race settles with its first branch, and the finalizer of the other has run by then. A
predicate that panics in the loser makes the race settle with its panic. -/
theorem loser_is_cleaned_up :
    (∃ j v, contestStory.FirstWin [] .race 0 v j firstPast) ∧
    (∃ upstream cleanup u v, v < 10 ∧ contestStory.Finalized [.branch 1] racingEnv
      (Code.pure cleaning) upstream cleanup u v) ∧
    ∃ q, (contestCrew (some firstPast) {} (.cons 1 (.unwound boom) .nil)).move .standard 0
      (guardedStore 1) = some (.settled (.error (.ofPanic q)), guardedStore 1) := by
  have launched : contestStory.Launched contested guardedEnv := launched_guarded rfl
  have steady : contestStory.Steady := by
    intro t ht
    rcases t with _ | _ | _ | _ | _ | _ | _ | _ | _ | _ | t
    · trivial
    · exact ⟨trivial, trivial, trivial⟩
    · exact ⟨trivial, trivial, trivial⟩
    · exact ⟨trivial, trivial⟩
    · exact ⟨⟨fun _ _ => trivial, trivial⟩, trivial⟩
    · exact ⟨⟨fun _ _ => trivial, trivial⟩, trivial⟩
    · exact ⟨⟨fun _ _ => trivial, trivial⟩, trivial⟩
    · exact ⟨⟨fun _ _ => trivial, trivial⟩, trivial⟩
    · exact ⟨trivial, trivial⟩
    · trivial
    · exact absurd ht (by show ¬ t + 10 < 10; omega)
  obtain ⟨contests, panics⟩ := losers_change_nothing contestStory contested guardedEnv launched
    steady rfl
  obtain ⟨a, -, -, entering, begun⟩ := contests .race [cleaning, guarded] 0 [] guardedEnv
    (Nat.zero_le 10) rfl
  have first : a = 0 := by
    rcases a with _ | a
    · rfl
    · have still := entering 1 (Nat.zero_le 1) (Nat.succ_le_succ (Nat.zero_le a))
      cases still
  subst first
  obtain ⟨fired, -⟩ | ⟨child, z, exit, -, hz, settled, crews, -, -, finalizers, winner⟩ := begun
  · cases fired
  have last : z = 10 ∧ exit = firstPast := by
    rcases z with _ | _ | _ | _ | _ | _ | _ | _ | _ | _ | z
    iterate 10 cases settled
    have whole : some (Execution.settled firstPast) = some (.settled exit) := settled
    cases whole
    have : z + 10 ≤ 10 := hz
    exact ⟨by omega, rfl⟩
  obtain ⟨rfl, rfl⟩ := last
  refine ⟨?_, ?_, ?_⟩
  · obtain ⟨j, v, -, win⟩ := winner (.inl ⟨rfl, List.cons_ne_nil _ _⟩)
    exact ⟨j, v, win⟩
  · obtain ⟨upstream, cleanup, u, v, -, hv, finalized⟩ :=
      finalizers 1 [] 4 racingEnv (Code.pure cleaning) _ (by decide) (by decide) rfl
    exact ⟨upstream, cleanup, u, v, hv, finalized⟩
  · obtain ⟨-, settles⟩ := panics (.frame guardedEnv (.retry failing choosy 0)
      (.settled (.error (.ofKey "late")))) (guardedStore 1) boom (guardedStore 1) .standard 0
      (.predicate Nat.zero_lt_one rfl)
    exact settles guardedEnv (.race racingEnv.signal (some firstPast)) {}
      (.cons 1 (.unwound boom) .nil) 1 rfl

end Story

end ScopedEffects
