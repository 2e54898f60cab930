import ScopedEffects.Proofs.Execution.Crew

/-! Sound executions. No panic is on its way out of one, the branches of each of its crews have
indices of their own, and each of its signals that cancels something descends from another.
Executions stay sound as long as no tracer panics, and no retry does when it asks its predicate or
draws its delay. -/

namespace ScopedEffects

variable {H : Host}

/-! Signals that cancel only what is below them -/

def Signal.IsChild (g : Signal) : Prop := 2 ≤ g.lineage.length

def Signal.IsProper (g : Signal) : Prop := 1 ≤ g.lineage.length

theorem Signal.IsChild.isProper {g : Signal} (h : g.IsChild) : g.IsProper := Nat.le_of_succ_le h

theorem Signal.isProper_root (n : Nat) : (Signal.root n).IsProper := Nat.le_refl 1

theorem Signal.IsProper.isChild {g : Signal} (h : g.IsProper) (n : Nat) : (g.child n).IsChild :=
  Nat.succ_le_succ h

/-- A signal without ancestors does not fire with a child. -/
theorem Signal.IsChild.not_ancestor {c : Signal} (h : c.IsChild) (n : Nat) :
    (Signal.root n).descendsFrom c = false := by
  rw [Signal.descendsFrom, Bool.eq_false_iff, Ne, List.isSuffixOf_iff_suffix]
  intro hs
  have := hs.length_le
  unfold IsChild at h
  simp only [Signal.root, List.length_singleton] at this
  omega

/-! Soundness -/

def Frame.Sound : Frame H → Prop
  | .timeout _ _ child _ => child.IsChild
  | _ => True

/-- The branches to be admitted have indices of their own, which none under way has. -/
def Crew.Sound (running : List Nat) : Crew H → Prop
  | .all _ _ pending _ _ =>
    (pending.map Prod.fst).Nodup ∧ ∀ i ∈ pending.map Prod.fst, i ∉ running
  | .any child _ _ => child.IsChild
  | .race child _ => child.IsChild

mutual

def Execution.Sound : Execution H → Prop
  | .enter _ env => env.signal.IsProper
  | .task .. => True
  | .pause _ env .. => env.signal.IsProper
  | .frame env f above => env.signal.IsProper ∧ f.Sound ∧ above.Sound
  | .crew env c _ b =>
    env.signal.IsProper ∧ c.Sound b.indices ∧ b.indices.Nodup ∧ Branches.Sound b
  | .settled _ => True
  | .unwound _ => False

def Branches.Sound : Branches H → Prop
  | .nil => True
  | .cons _ e rest => e.Sound ∧ Branches.Sound rest

end

namespace Branches

variable {b : Branches H} {i : Nat} {e : Execution H}

theorem Sound.find? (h : b.Sound) (hi : b.find? i = some e) : e.Sound := by
  induction b with
  | nil => cases hi
  | cons j f rest ih =>
    rcases find?_cons hi with ⟨-, rfl⟩ | hi
    · exact h.1
    · exact ih h.2 hi

theorem sound_of_find? (hb : b.indices.Nodup) (h : ∀ i e, b.find? i = some e → e.Sound) :
    b.Sound := by
  induction b with
  | nil => trivial
  | cons j f rest ih =>
    obtain ⟨hj, hrest⟩ := List.nodup_cons.1 hb
    refine ⟨h j f (by rw [Branches.find?, if_pos rfl]), ih hrest fun i e hi => ?_⟩
    exact h i e (find?_of_rest hj hi f)

end Branches

/-! What can panic -/

/-- Asked about a failure, the policy answers; and if the failure is to be tried again, it says when.
-/
def RetryPolicy.Answers (p : RetryPolicy H) (f : Failure H) (attempt : Nat) (s : Store H) : Prop :=
  ∃ again, (s.perform (p.accepts f)).1 = .ok again ∧
    (again = true → ∃ d, p.nextDelay attempt ((s.perform (p.accepts f)).2.draw p).1 = .ok d)

/-- A frame that goes on without a panic of a retry, should the inner effect settle so. -/
def Frame.Steady (s : Store H) (exit : Exit H) : Frame H → Prop
  | .retry _ policy attempt =>
    ∀ f, exit = .error f → attempt < policy.times → policy.Answers f (attempt + 1) s
  | _ => True

mutual

/-- No tracer has panicked, and no retry is about to. -/
def Execution.Steady (s : Store H) : Execution H → Prop
  | .task guard t => guard = .bare → t.panic? = none
  | .frame _ f above => (∀ exit, above.exit? = some exit → f.Steady s exit) ∧ above.Steady s
  | .crew _ _ _ b => Branches.Steady s b
  | _ => True

def Branches.Steady (s : Store H) : Branches H → Prop
  | .nil => True
  | .cons _ e rest => e.Steady s ∧ Branches.Steady s rest

end

theorem Branches.Steady.find? {s : Store H} {b : Branches H} {i : Nat} {e : Execution H}
    (h : b.Steady s) (hi : b.find? i = some e) : e.Steady s := by
  induction b with
  | nil => cases hi
  | cons j f rest ih =>
    rcases Branches.find?_cons hi with ⟨-, rfl⟩ | hi
    · exact h.1
    · exact ih h.2 hi

theorem Crew.sound_unstarted (cap : Option Nat) (collect : List (Value H) → Exit H)
    (nodes : List (Node H)) :
    Crew.Sound [] (.all cap collect (nodes.zipIdx.map Prod.swap) (nodes.map fun _ => none) none) := by
  refine ⟨?_, fun _ _ => List.not_mem_nil⟩
  have indices : (nodes.zipIdx.map Prod.swap).map Prod.fst = nodes.zipIdx.map Prod.snd := by
    rw [List.map_map]
    rfl
  rw [indices, List.zipIdx_map_snd]
  exact List.nodup_range'

/-! Entering nodes -/

namespace Execution

variable {env : Env} {s : Store H}

theorem sound_source {x : Execution H × Store H} (h : x.1.Sound) : (source env s x).1.Sound := by
  unfold source
  split
  · trivial
  · exact h

theorem sound_build {α : Type} {code : Code H α} {next : α → Execution H}
    (h : ∀ a, (next a).Sound) : (build s code next).1.Sound := by
  unfold build
  split
  · exact h _
  · trivial

theorem sound_ofNodes (henv : env.signal.IsProper) (k : Nat) (nodes : List (Node H)) :
    (Branches.ofNodes env k nodes).Sound := by
  induction nodes generalizing k with
  | nil => trivial
  | cons n rest ih => exact ⟨henv, ih (k + 1)⟩

theorem sound_start (henv : env.signal.IsProper) (n : Node H) : (start env s n).1.Sound := by
  cases n with
  | sync => exact sound_source (sound_build fun _ => trivial)
  | program => exact sound_source (sound_build fun _ => trivial)
  | cancellable => exact sound_source (sound_build fun _ => trivial)
  | suspend => exact sound_source (sound_build fun _ => henv)
  | service => exact sound_source trivial
  | all cap collect nodes =>
    exact sound_source ⟨henv, Crew.sound_unstarted cap collect nodes, List.nodup_nil, trivial⟩
  | any nodes =>
    have child := henv.isChild s.signals.next
    exact sound_source
      ⟨henv, child, Branches.nodup_ofNodes _ 0 nodes, sound_ofNodes child.isProper 0 nodes⟩
  | race nodes =>
    have child := henv.isChild s.signals.next
    exact sound_source
      ⟨henv, child, Branches.nodup_ofNodes _ 0 nodes, sound_ofNodes child.isProper 0 nodes⟩
  | map | withService | recover | tap | tapError | ensuring | retry => exact ⟨henv, trivial, henv⟩
  | timeout =>
    have child := henv.isChild s.signals.next
    exact ⟨henv, child, child.isProper⟩
  | provide => exact henv
  | span => exact ⟨henv, trivial, trivial⟩

/-! Going on with steps -/

theorem sound_next (henv : env.signal.IsProper) (next : Next H (Node H)) :
    (next.execution env).Sound := by
  cases next with
  | effect => exact henv
  | _ => trivial

theorem sound_concludeFinalizer (exit cleanup : Exit H) (s : Store H) :
    (concludeFinalizer exit cleanup s).1.Sound := by
  unfold concludeFinalizer
  split <;> trivial

theorem sound_retryAfter (henv : env.signal.IsProper) {inner : Node H} {policy : RetryPolicy H}
    {attempt : Nat} {f : Failure H}
    (h : attempt < policy.times → policy.Answers f (attempt + 1) s) :
    (retryAfter env inner policy attempt f s).1.Sound := by
  have goes := retries env inner policy attempt f s
  generalize retryAfter env inner policy attempt f s = x at goes ⊢
  cases goes with
  | exhausted | declines => trivial
  | asking more asked =>
    obtain ⟨again, answers, -⟩ := h more
    rw [asked] at answers
    cases answers
  | drawing more asked spread =>
    obtain ⟨again, answers, delays⟩ := h more
    rw [asked] at answers delays
    cases answers
    obtain ⟨d, delayed⟩ := delays rfl
    rw [spread] at delayed
    cases delayed
  | again => exact ⟨henv, trivial, henv⟩
  | pauses => exact henv

theorem sound_resume [Tracing H] (henv : env.signal.IsProper) {exit : Exit H} {f : Frame H}
    (h : f.Steady s exit) : (f.resume env exit s).1.Sound := by
  cases f with
  | map code =>
    cases exit with
    | ok v => exact sound_build fun _ => sound_next henv _
    | error => trivial
  | withService t pair =>
    cases exit with
    | ok v =>
      unfold Frame.resume
      dsimp only
      split <;> trivial
    | error => trivial
  | recover code =>
    cases exit with
    | ok => trivial
    | error f =>
      unfold Frame.resume
      dsimp only
      split
      · trivial
      · refine sound_build fun n => ?_
        cases n with
        | some => exact henv
        | none => trivial
  | tap code =>
    cases exit with
    | ok v =>
      refine sound_build fun n => ?_
      cases n with
      | ok => exact ⟨henv, trivial, henv⟩
      | error => trivial
    | error => trivial
  | tapped => cases exit <;> trivial
  | tapError code =>
    cases exit with
    | ok => trivial
    | error => exact sound_build fun _ => ⟨henv, trivial, henv⟩
  | tapErrored => cases exit <;> trivial
  | ensuring code =>
    have own := Signal.isProper_root s.signals.next
    unfold Frame.resume
    dsimp only
    split
    · exact ⟨own, trivial, own⟩
    · exact sound_concludeFinalizer ..
  | ensured => exact sound_concludeFinalizer ..
  | timeout => trivial
  | draining after fallback =>
    cases fallback with
    | none => trivial
    | some => exact henv
  | retry inner policy attempt =>
    cases exit with
    | ok => trivial
    | error f => exact sound_retryAfter henv (h f rfl)
  | acquire inner name attributes =>
    unfold Frame.resume
    dsimp only
    split
    · exact ⟨henv, trivial, trivial⟩
    · trivial
  | entered inner tracer name =>
    cases exit with
    | ok => exact ⟨henv, trivial, henv⟩
    | error => trivial
  | body => trivial

/-! Moves -/

variable {policy : Policy} {depth : Nat} {s' : Store H} {c : Crew H} {b : Branches H}
  {e e' : Execution H}

theorem sound_moveTask {g : Guard} {t : Task H} (h : g = .bare → t.panic? = none)
    (hm : moveTask policy depth s g t = some (e', s')) : e'.Sound := by
  cases moveTask_moves hm with
  | unwinds ho bare =>
    have calm := h bare
    simp [Task.panic?, ho] at calm
  | _ => trivial

theorem sound_absorb (h : c.Sound b.indices) (i : Nat) (exit : Exit H) (s : Store H) :
    (c.absorb i exit s).1.Sound (b.erase i).indices := by
  rw [Branches.indices_erase]
  unfold Crew.absorb
  cases c with
  | all cap collect pending values failure =>
    have apart : ∀ j ∈ pending.map Prod.fst, j ∉ b.indices.erase i := fun j hj hm =>
      h.2 j hj (List.mem_of_mem_erase hm)
    cases exit with
    | ok => exact ⟨h.1, apart⟩
    | error => exact ⟨h.1, apart⟩
  | any child errors won =>
    cases won with
    | some => exact h
    | none => cases exit <;> exact h
  | race child won => cases won <;> exact h

theorem sound_next? {rest : Crew H} {i running : Nat} {n : Node H} (h : c.Sound b.indices)
    (hn : c.next? env running = some (i, n, rest)) :
    i ∉ b.indices ∧ rest.Sound (b.indices ++ [i]) := by
  obtain ⟨cap, collect, pending, values, rfl, rfl⟩ := Crew.next?_some hn
  obtain ⟨distinct, apart⟩ := h
  rw [List.map_cons] at distinct apart
  obtain ⟨hi, hrest⟩ := List.nodup_cons.1 distinct
  refine ⟨apart i List.mem_cons_self, hrest, fun j hj hm => ?_⟩
  rcases List.mem_append.1 hm with hm | hm
  · exact apart j (List.mem_cons_of_mem _ hj) hm
  · rw [List.mem_singleton.1 hm] at hj
    exact hi hj

theorem sound_housekeeping (henv : env.signal.IsProper) (hc : c.Sound b.indices)
    (hd : b.indices.Nodup) (hb : b.Sound) (hm : Housekeeping s env c b e' s') : e'.Sound := by
  cases hm with
  | panics => trivial
  | @absorbs i exit line =>
    have distinct := Branches.nodup_erase hd i
    refine ⟨henv, sound_absorb hc i exit s, distinct, ?_⟩
    exact Branches.sound_of_find? distinct fun j f hj => hb.find? (Branches.find?_of_erase hd hj).2
  | @admits i n rest line hn =>
    obtain ⟨new, sound⟩ := sound_next? hc hn
    rw [← Branches.indices_push b i (.enter n env)] at sound
    have distinct := Branches.nodup_push hd new (.enter n env)
    refine ⟨henv, sound, distinct, Branches.sound_of_find? distinct fun j f hj => ?_⟩
    rcases Branches.find?_of_push new hj with rfl | old
    · exact henv
    · exact hb.find? old
  | concludes => trivial

variable [Tracing H]

theorem sound_move (h : e.Sound) (hs : e.Steady s)
    (hm : e.move policy depth s = some (e', s')) : e'.Sound := by
  induction e generalizing policy depth e' s' with
  | enter n env =>
    rw [move] at hm
    have sound := sound_start (s := s) h n
    rw [Option.some.inj hm] at sound
    exact sound
  | task g t =>
    rw [move] at hm
    exact sound_moveTask hs hm
  | pause till env inner policy attempt =>
    rw [move] at hm
    split at hm
    · cases hm
      trivial
    · split at hm
      · cases hm
        exact ⟨h, trivial, h⟩
      · cases hm
  | frame env f above ih =>
    obtain ⟨henv, hf, ha⟩ := h
    cases move_frame hm with
    | resumes settled => exact sound_resume henv (hs.1 _ (by rw [settled]; rfl))
    | passes unwound =>
      rw [unwound] at ha
      cases ha
    | moves _ moved => exact ⟨henv, hf, ih ha hs.2 moved⟩
    | expires => exact ⟨henv, trivial, ha⟩
  | crew env c round b ih =>
    obtain ⟨henv, hc, hd, hb⟩ := h
    cases move_crew hd hm with
    | keeps hk => exact sound_housekeeping henv hc hd hb hk
    | @moves i f f' b' line policy depth s₁ idle same others found found' moved =>
      have distinct : b'.indices.Nodup := same ▸ hd
      refine ⟨henv, same ▸ hc, distinct, Branches.sound_of_find? distinct fun j g hj => ?_⟩
      by_cases hji : j = i
      · rw [hji, found'] at hj
        cases hj
        exact ih i f found (hb.find? found) (hs.find? found) moved
      · rw [others j hji] at hj
        exact hb.find? hj
  | settled => rw [move] at hm; cases hm
  | unwound => rw [move] at hm; cases hm

end Execution

end ScopedEffects
