import ScopedEffects.Proofs.Execution.Story
import ScopedEffects.Proofs.Execution.Keeping
import ScopedEffects.Proofs.Traffic.Chores

/-! Executions come to rest. Each move takes up a chore, of the execution or of a resolution that it
drives, and leaves chores under it; a factory that is invoked was a chore of its context before. So a
machine makes finitely many moves, however its branches are scheduled and however time passes. -/

namespace ScopedEffects

variable {H : Host} {s s' : Store H}

/-! Executions -/

/-- A branch that is yet to be admitted counts as one more chore than one that is. -/
def Crew.chores : Crew H → Multiset (Chore H)
  | .all _ _ pending _ _ =>
    Multiset.bind (pending : Multiset (Nat × Node H)) fun p => {.token, .token, .node p.2}
  | _ => 0

mutual

def Execution.chores : Execution H → Multiset (Chore H)
  | .enter n _ => {.node n}
  | .task _ t => t.chores
  | .pause _ _ inner policy attempt => {.again inner policy attempt}
  | .frame _ f above => .frame f ::ₘ above.chores
  | .crew _ c _ b => .token ::ₘ (c.chores + Branches.chores b)
  | .settled _ | .unwound _ => 0

def Branches.chores : Branches H → Multiset (Chore H)
  | .nil => 0
  | .cons _ e rest => .token ::ₘ (e.chores + Branches.chores rest)

end

/-- All that is left to do in the execution is under the chore. -/
def Execution.Under (e : Execution H) (c : Chore H) : Prop := ∀ d ∈ e.chores, d.Under c

namespace Execution

variable {env : Env} {c : Chore H} {n : Node H}

theorem Under.settled {exit : Exit H} : (settled exit).Under c :=
  fun _ hd => absurd hd (Multiset.notMem_zero _)

theorem Under.unwound {p : Panic} : (unwound p).Under c :=
  fun _ hd => absurd hd (Multiset.notMem_zero _)

theorem Under.enter (h : (Chore.node n).Under c) : (enter n env).Under c :=
  fun _ hd => Multiset.mem_singleton.1 hd ▸ h

theorem Under.run {g : Guard} {p : Program H} (h : (Chore.run p).Under c) :
    (task g (.run p)).Under c :=
  fun _ hd => Multiset.mem_singleton.1 hd ▸ h

theorem Under.frame {f : Frame H} {above : Execution H} (hf : (Chore.frame f).Under c)
    (h : above.Under c) : (frame env f above).Under c := by
  intro d hd
  rcases Multiset.mem_cons.1 hd with rfl | hd
  · exact hf
  · exact h d hd

theorem Under.source {x : Execution H × Store H} (h : x.1.Under c) : (source env s x).1.Under c := by
  rcases source_cases env s x with hs | hs
  · rw [hs]
    exact .settled
  · rwa [hs]

/-- What code builds, it has answered with. -/
theorem build_answers {α : Type} (s : Store H) (code : Code H α) (next : α → Execution H) :
    (∃ p, (build s code next).1 = ofPanic p) ∨
      ∃ a now u, (code now u).answer = .ok a ∧ (build s code next).1 = next a := by
  unfold build
  split
  · rename_i performed
    exact .inr ⟨_, s.now, s.user, congrArg Prod.fst performed, rfl⟩
  · exact .inl ⟨_, rfl⟩

theorem Under.build {α : Type} {code : Code H α} {next : α → Execution H}
    (h : ∀ a now u, (code now u).answer = .ok a → (next a).Under c) :
    (build s code next).1.Under c := by
  rcases build_answers s code next with ⟨p, hb⟩ | ⟨a, now, u, answer, hb⟩
  · rw [hb]
    exact .settled
  · rw [hb]
    exact h a now u answer

theorem under_ofNodes (h : ∀ m ∈ n.inner, (Chore.node m).Under c) (token : Chore.token.Under c)
    (k : Nat) {nodes : List (Node H)} (hn : nodes ⊆ n.inner) :
    ∀ d ∈ (Branches.ofNodes env k nodes).chores, d.Under c := by
  induction nodes generalizing k with
  | nil => exact fun d hd => absurd hd (Multiset.notMem_zero d)
  | cons m rest ih =>
    intro d hd
    rcases Multiset.mem_cons.1 hd with rfl | hd
    · exact token
    · rcases Multiset.mem_add.1 hd with hd | hd
      · rw [Multiset.mem_singleton.1 hd]
        exact h m (hn List.mem_cons_self)
      · exact ih (k + 1) (fun x hx => hn (List.mem_cons_of_mem m hx)) d hd

/-- What a node begins with is under it. -/
theorem under_start (env : Env) (s : Store H) (n : Node H) :
    (start env s n).1.Under (.node n) := by
  have inner : ∀ m ∈ n.inner, (Chore.node m).Under (.node n) := fun m hm => .part (.inner hm)
  cases n with
  | sync => exact .source (.build fun _ _ _ _ => .settled)
  | program | cancellable => exact .source (.build fun _ _ _ _ => .run .program)
  | suspend => exact .source (.build fun m _ _ answer => .enter (.part (.suspend answer)))
  | service => exact .source (.run .program)
  | all cap collect nodes =>
    refine .source fun d hd => ?_
    rcases Multiset.mem_cons.1 hd with rfl | hd
    · exact .token
    · rcases Multiset.mem_add.1 hd with hd | hd
      · obtain ⟨⟨i, m⟩, hm, hd⟩ := Multiset.mem_bind.1 hd
        obtain ⟨⟨m', i'⟩, listed, he⟩ := List.mem_map.1 (Multiset.mem_coe.1 hm)
        cases he
        simp only [Multiset.insert_eq_cons, Multiset.mem_cons, Multiset.mem_singleton] at hd
        rcases hd with rfl | rfl | rfl
        · exact .token
        · exact .token
        · exact inner _ (List.fst_mem_of_mem_zipIdx listed)
      · exact absurd hd (Multiset.notMem_zero d)
  | any nodes =>
    refine .source fun d hd => ?_
    rcases Multiset.mem_cons.1 hd with rfl | hd
    · exact .token
    · rcases Multiset.mem_add.1 hd with hd | hd
      · exact absurd hd (Multiset.notMem_zero d)
      · exact under_ofNodes inner .token 0 (List.Subset.refl _) d hd
  | race nodes =>
    refine .source fun d hd => ?_
    rcases Multiset.mem_cons.1 hd with rfl | hd
    · exact .token
    · rcases Multiset.mem_add.1 hd with hd | hd
      · exact absurd hd (Multiset.notMem_zero d)
      · exact under_ofNodes inner .token 0 (List.Subset.refl _) d hd
  | map => exact .frame (.step .map) (.enter (inner _ List.mem_cons_self))
  | withService => exact .frame (.step .withService) (.enter (inner _ List.mem_cons_self))
  | recover => exact .frame (.step .recover) (.enter (inner _ List.mem_cons_self))
  | tap => exact .frame (.step .tap) (.enter (inner _ List.mem_cons_self))
  | tapError => exact .frame (.step .tapError) (.enter (inner _ List.mem_cons_self))
  | ensuring => exact .frame (.step .ensuring) (.enter (inner _ List.mem_cons_self))
  | timeout => exact .frame (.step .timeout) (.enter (inner _ List.mem_cons_self))
  | retry => exact .frame (.step .retry) (.enter (inner _ List.mem_cons_self))
  | provide => exact .enter (.part .provide)
  | span => exact .frame (.step .acquire) (.run .program)

/-- What a frame goes on with is under it. -/
theorem under_resume [Tracing H] (env : Env) (exit : Exit H) (s : Store H) (f : Frame H) :
    (f.resume env exit s).1.Under (.frame f) := by
  have concludes : ∀ (exit cleanup : Exit H) s c, (concludeFinalizer exit cleanup s).1.Under c := by
    intro exit cleanup s c
    unfold concludeFinalizer
    split <;> exact .settled
  cases f with
  | map code =>
    cases exit with
    | ok v =>
      refine .build fun next now u answer => ?_
      cases next with
      | value | fail => exact .settled
      | program => exact .run .call
      | effect n => exact .enter (.enter (.map answer))
    | error => exact .settled
  | withService =>
    cases exit with
    | ok v =>
      unfold Frame.resume
      dsimp only
      split
      · exact .run .call
      · exact .settled
    | error => exact .settled
  | recover code =>
    cases exit with
    | ok => exact .settled
    | error f =>
      unfold Frame.resume
      dsimp only
      split
      · exact .settled
      · refine .build fun next now u answer => ?_
        cases next with
        | none => exact .settled
        | some n => exact .enter (.enter (.recover answer))
  | tap code =>
    cases exit with
    | ok v =>
      refine .build fun next now u answer => ?_
      cases next with
      | ok n => exact .frame (.become .tapped) (.enter (.enter (.tap answer)))
      | error => exact .settled
    | error => exact .settled
  | tapError code =>
    cases exit with
    | ok => exact .settled
    | error f =>
      refine .build fun n now u answer => ?_
      exact .frame (.become .tapErrored) (.enter (.enter (.tapError answer)))
  | tapped | tapErrored => cases exit <;> exact .settled
  | ensuring code =>
    unfold Frame.resume
    dsimp only
    split
    · rename_i performed
      have answer := congrArg Prod.fst performed
      exact .frame (.become .ensured) (.enter (.enter (.ensuring answer)))
    · exact concludes _ _ _ _
  | ensured => exact concludes _ _ _ _
  | timeout => exact .settled
  | draining after fallback =>
    cases fallback with
    | none => exact .settled
    | some n => exact .enter (.enter .draining)
  | retry inner policy attempt =>
    cases exit with
    | ok => exact .settled
    | error f =>
      rw [Frame.resume]
      have goes := retries env inner policy attempt f s
      generalize retryAfter env inner policy attempt f s = x at goes ⊢
      cases goes with
      | exhausted | declines => exact .settled
      | asking | drawing => exact .unwound
      | again more => exact .frame (.become (.retry more)) (.enter (.enter .retry))
      | pauses more => exact fun d hd => Multiset.mem_singleton.1 hd ▸ .pause more
  | acquire =>
    unfold Frame.resume
    dsimp only
    split
    · exact .frame (.become .entered) (.run .call)
    · exact .settled
  | entered =>
    cases exit with
    | ok => exact .frame (.become .body) (.enter (.enter .entered))
    | error => exact .settled
  | body => exact .run .call

/-! Moves of executions -/

variable {e e' : Execution H} {policy : Policy} {depth : Nat}

theorem lighter_moveTask {g : Guard} {t : Task H}
    (hm : moveTask policy depth s g t = some (e', s')) :
    Lighter (e'.chores + s'.chores []) (t.chores + s.chores []) := by
  obtain ⟨c, hc⟩ := t.exists_chore
  have ends : Lighter (0 + s.chores []) (t.chores + s.chores []) := (lighter_zero hc).add_right _
  cases moveTask_moves hm with
  | settles | unwinds | catches => exact ends
  | aborts =>
    rw [Task.drop, Store.chores_finishWaits]
    exact ends
  | steps _ step => exact Task.lighter_of_step step

theorem chores_push (b : Branches H) (i : Nat) (e : Execution H) :
    (b.push i e).chores = .token ::ₘ (e.chores + b.chores) := by
  induction b with
  | nil => rfl
  | cons j f rest ih =>
    rw [Branches.push, Branches.chores, ih, Branches.chores]
    simp only [← Multiset.singleton_add]
    abel

theorem chores_erase {b : Branches H} {i : Nat} (h : i ∈ b.indices) :
    ∃ more, b.chores = .token ::ₘ more + (b.erase i).chores := by
  induction b with
  | nil => cases h
  | cons j f rest ih =>
    rw [Branches.erase, Branches.chores]
    by_cases hj : j = i
    · rw [if_pos hj]
      exact ⟨f.chores, (Multiset.cons_add ..).symm⟩
    · obtain ⟨more, hm⟩ := ih ((List.mem_cons.1 h).resolve_left (Ne.symm hj))
      refine ⟨more, ?_⟩
      rw [if_neg hj, hm, Branches.chores]
      simp only [← Multiset.singleton_add]
      abel

theorem mem_indices_of_exit? {b : Branches H} {i : Nat} {exit : Exit H}
    (h : b.exit? = some (i, exit)) : i ∈ b.indices := by
  induction b with
  | nil => cases h
  | cons j f rest ih =>
    rw [Branches.exit?] at h
    cases hf : f.exit? with
    | some x =>
      rw [hf] at h
      cases h
      exact List.mem_cons_self
    | none =>
      rw [hf] at h
      exact List.mem_cons_of_mem j (ih h)

theorem lighter_moveCrew {c : Crew H} {round : Round} {b : Branches H}
    (hm : moveCrew s env c round b = some (e', s')) :
    Lighter (e'.chores + s'.chores []) ((crew env c round b).chores + s.chores []) := by
  have ends : Lighter (0 + s.chores []) ((crew env c round b).chores + s.chores []) :=
    (lighter_zero (Multiset.mem_cons_self ..)).add_right _
  cases moveCrew_housekept hm with
  | panics =>
    rw [Branches.drop, Store.chores_finishWaits]
    exact ends
  | @absorbs i exit _ hx =>
    obtain ⟨more, hb⟩ := chores_erase (mem_indices_of_exit? hx)
    have same : (c.absorb i exit s).1.chores = c.chores := by
      cases c with
      | all => cases exit <;> rfl
      | any child errors won =>
        cases won with
        | some => rfl
        | none => cases exit <;> rfl
      | race child won => cases won <;> rfl
    rw [(sameContexts_absorb c i exit s).chores, chores, chores, same, hb]
    have fewer : Lighter (0 + (b.erase i).chores + s.chores [])
        (.token ::ₘ more + (b.erase i).chores + s.chores []) :=
      ((lighter_zero (Multiset.mem_cons_self ..)).add_right _).add_right _
    rw [zero_add] at fewer
    exact fewer.right _ _
  | @admits i n rest line _ _ hn =>
    obtain ⟨cap, collect, pending, values, rfl, rfl⟩ := Crew.next?_some hn
    -- a token less is left, as the branch has been admitted
    have fewer : (crew env (.all cap collect ((i, n) :: pending) values none) round b).chores =
        {.token} + (crew env (.all cap collect pending values none) line
          (b.push i (enter n env))).chores := by
      rw [chores, chores, chores_push, Crew.chores, Crew.chores, ← Multiset.cons_coe,
        Multiset.cons_bind, chores]
      simp only [Multiset.insert_eq_cons, ← Multiset.singleton_add]
      abel
    rw [fewer]
    have less := (lighter_zero (Multiset.mem_singleton_self Chore.token)).add_right
      (crew env (.all cap collect pending values none) line (b.push i (enter n env))).chores
    rw [zero_add] at less
    exact less.add_right _
  | concludes => exact ends

/-- Apart from one of the branches, there is as much to do whatever stands in its place. -/
theorem exists_chores_set {b : Branches H} {i : Nat} {x : Execution H} (h : b.find? i = some x) :
    ∃ rest, b.chores = x.chores + rest ∧ ∀ y, (b.set i y).chores = y.chores + rest := by
  induction b with
  | nil => cases h
  | cons k f others ih =>
    rw [Branches.find?] at h
    split at h
    · rename_i hk
      cases h
      refine ⟨.token ::ₘ others.chores, (Multiset.add_cons ..).symm, fun y => ?_⟩
      rw [Branches.set, if_pos hk]
      exact (Multiset.add_cons ..).symm
    · rename_i hk
      obtain ⟨rest, before, after⟩ := ih h
      refine ⟨.token ::ₘ (f.chores + rest), ?_, fun y => ?_⟩
      · rw [Branches.chores, before]
        simp only [← Multiset.singleton_add]
        abel
      · rw [Branches.set, if_neg hk, Branches.chores, after]
        simp only [← Multiset.singleton_add]
        abel

/-- The contexts that a node opens have nothing to do beyond what is under it. -/
theorem chores_start (env : Env) (s : Store H) (n : Node H) :
    ∃ more, (start env s n).2.chores [] = more + s.chores [] ∧ ∀ c ∈ more, c.Under (.node n) := by
  have unchanged : ∀ {s'}, s.SameContexts s' → ∃ more, s'.chores [] = more + s.chores [] ∧
      ∀ c ∈ more, c.Under (.node n) := fun same =>
    ⟨0, by rw [same.chores, zero_add], fun _ hc => absurd hc (Multiset.notMem_zero _)⟩
  have source : ∀ x : Execution H × Store H, s.SameContexts x.2 →
      s.SameContexts (source env s x).2 := by
    intro x hx
    unfold Execution.source
    split
    · exact .refl s
    · exact hx
  cases n with
  | sync | program | cancellable | suspend => exact unchanged (source _ (sameContexts_build ..))
  | service | all => exact unchanged (source _ (.refl s))
  | any | race => exact unchanged (source _ ⟨rfl, rfl⟩)
  | timeout => exact unchanged ⟨rfl, rfl⟩
  | provide u p =>
    obtain ⟨more, opened, factories⟩ := s.chores_layer env.scope p []
    refine ⟨more, opened, fun c hc => ?_⟩
    obtain ⟨f, rfl⟩ := factories c hc
    exact .factory
  | _ => exact unchanged (.refl s)

/-- Whatever moves, fewer chores are left. -/
theorem lighter_move [Tracing H] (hm : e.move policy depth s = some (e', s')) :
    Lighter (e'.chores + s'.chores []) (e.chores + s.chores []) := by
  induction e generalizing policy depth e' s' with
  | enter n env =>
    rw [move] at hm
    obtain ⟨more, opened, under⟩ := chores_start env s n
    have begun := under_start env s n
    rw [Option.some.inj hm] at opened begun
    rw [opened, ← add_assoc]
    refine (Lighter.of_under fun c hc => ?_).add_right _
    rcases Multiset.mem_add.1 hc with hc | hc
    · exact begun c hc
    · exact under c hc
  | task g t =>
    rw [move] at hm
    exact lighter_moveTask hm
  | pause till env inner p attempt =>
    rw [move] at hm
    split at hm
    · cases hm
      exact (lighter_zero (Multiset.mem_singleton_self _)).add_right _
    · split at hm
      · cases hm
        have again : (frame env (.retry inner p attempt) (enter inner env)).Under
            (.again inner p attempt) := .frame .again (.enter .attempt)
        exact (Lighter.of_under again).add_right _
      · cases hm
  | frame env f above ih =>
    cases move_frame hm with
    | @resumes exit settled =>
      subst settled
      rw [(sameContexts_resume env exit s f).chores]
      exact (Lighter.of_under (under_resume env exit s f)).add_right _
    | passes => exact (lighter_zero (Multiset.mem_cons_self ..)).add_right _
    | moves _ moved =>
      rw [chores, chores, Multiset.cons_add, Multiset.cons_add, ← Multiset.singleton_add,
        ← Multiset.singleton_add]
      exact (ih moved).add_left _
    | @expires deadline after child fallback _ _ _ timeout =>
      subst timeout
      have same := (s.sameContexts_record (.timeoutExpired after)).trans
        (Store.sameContexts_fire _ child)
      have drains : Lighter {Chore.frame (.draining after fallback)}
          {.frame (.timeout deadline after child fallback)} :=
        .of_under fun c hc => Multiset.mem_singleton.1 hc ▸ .become .draining
      rw [same.chores, chores, chores, ← Multiset.singleton_add, ← Multiset.singleton_add]
      exact (drains.add_right _).add_right _
  | crew env c round b ih =>
    rcases move_crew_cases hm with kept | ⟨-, i, f, f', line, _, found, hf, rfl⟩
    · exact lighter_moveCrew kept
    · obtain ⟨rest, before, after⟩ := exists_chores_set found
      have side := (ih i f found hf).add_right (.token ::ₘ (c.chores + rest))
      have regroup : ∀ a d : Multiset (Chore H), .token ::ₘ (c.chores + (a + rest)) + d =
          a + d + .token ::ₘ (c.chores + rest) := by
        intro a d
        simp only [← Multiset.singleton_add]
        abel
      rw [chores, chores, before, after, regroup, regroup]
      exact side
  | settled => rw [move] at hm; cases hm
  | unwound => rw [move] at hm; cases hm

end Execution

/-! Machines -/

namespace Machine

variable [Tracing H] {m m' : Machine H}

def chores (m : Machine H) : Multiset (Chore H) := m.execution.chores + m.store.chores []

def Moves (policy : Policy) (m m' : Machine H) : Prop :=
  ∃ e s, m.execution.move policy 0 m.store = some (e, s) ∧
    m' = { m with execution := e, store := s }

theorem Moves.step {policy : Policy} (h : m.Moves policy m') : m.Step m' := by
  obtain ⟨e, s, hm, rfl⟩ := h
  exact .moves hm

theorem Moves.lighter {policy : Policy} (h : m.Moves policy m') : Lighter m'.chores m.chores := by
  obtain ⟨e, s, hm, rfl⟩ := h
  exact Execution.lighter_move hm

end Machine

/-- The story in which the machine moves as a schedule says, and nothing else happens. -/
def Story.MovesUnder [Tracing H] (r : Story H) (schedule : Schedule) : Prop :=
  ∀ t, t < r.last → (r.state t).Moves ((r.state t).polling (schedule t)) (r.state (t + 1))

/-- However a machine moves, it comes to rest. -/
theorem Machine.exists_rest [Tracing H] (schedule : Schedule) (m : Machine H) :
    ∃ r : Story H, r.state 0 = m ∧ r.MovesUnder schedule ∧
      (r.state r.last).execution.move ((r.state r.last).polling (schedule r.last)) 0
        (r.state r.last).store = none := by
  generalize weight : m.chores = w
  induction w using wellFounded_lighter.induction generalizing schedule m with
  | h w ih =>
    cases hm : m.execution.move (m.polling (schedule 0)) 0 m.store with
    | none =>
      exact ⟨⟨fun _ => m, 0, fun _ ht => absurd ht (Nat.not_lt_zero _)⟩, rfl,
        fun _ ht => absurd ht (Nat.not_lt_zero _), hm⟩
    | some moved =>
      have moves : m.Moves (m.polling (schedule 0))
          { m with execution := moved.1, store := moved.2 } := ⟨moved.1, moved.2, hm, rfl⟩
      obtain ⟨r, first, goes, rest⟩ := ih _ (weight ▸ moves.lighter) (schedule.after 1) _ rfl
      refine ⟨r.cons m (first ▸ moves.step), rfl, fun t ht => ?_, rest⟩
      cases t with
      | zero =>
        show m.Moves (m.polling (schedule 0)) (r.state 0)
        rw [first]
        exact moves
      | succ t => exact goes t (Nat.lt_of_succ_lt_succ ht)

end ScopedEffects
