import ScopedEffects.Proofs.Effect.Requirements
import ScopedEffects.Proofs.Execution.Places

/-! Nodes at work. A node goes through stages: it is entered, and then it waits in a frame, pauses,
or is a crew. At its stages it enters its inner nodes, in the context that it runs in itself; a node
with a provider, and one with a fallback, give their place to another node. What the closures of a
node build is entered at none of its stages. -/

namespace ScopedEffects

variable {H : Host}

namespace Node

/-- The nodes that a node enters in its own context. -/
def inner : Node H → List (Node H)
  | all _ _ branches | any branches | race branches => branches
  | map u _ | withService u _ _ | recover u _ | tap u _ | tapError u _ | ensuring u _ | retry u _
  | span u _ _ => [u]
  | timeout u _ fallback => u :: fallback.toList
  | _ => []

/-- The nodes whose place another node may take. -/
def Turns : Node H → Prop
  | provide .. | timeout .. => True
  | _ => False

theorem needs_of_inner {n u : Node H} {k : Key} (h : u ∈ n.inner) (hu : u.Needs k) :
    n.Needs k := by
  cases n with
  | all => exact .all h hu
  | any => exact .any h hu
  | race => exact .race h hu
  | map | recover | tap | tapError | ensuring | retry =>
    rw [List.mem_singleton.1 h] at hu
    simpa using hu
  | withService | span =>
    rw [List.mem_singleton.1 h] at hu
    simp [hu]
  | timeout =>
    rcases List.mem_cons.1 h with rfl | h
    · exact .timeout hu
    · rw [Option.mem_toList.1 h]
      exact .fallback hu
  | _ => cases h

end Node

/-- The frames in which a node waits for the inner nodes. -/
inductive Frame.Of : Node H → Frame H → Prop
  | map {u code} : Of (.map u code) (.map code)
  | withService {u t pair} : Of (.withService u t pair) (.withService t pair)
  | recover {u code} : Of (.recover u code) (.recover code)
  | tap {u code} : Of (.tap u code) (.tap code)
  | tapError {u code} : Of (.tapError u code) (.tapError code)
  | ensuring {u code} : Of (.ensuring u code) (.ensuring code)
  | timeout {u deadline after child fallback} :
      Of (.timeout u after fallback) (.timeout deadline after child fallback)
  | draining {u after fallback} : Of (.timeout u after fallback) (.draining after fallback)
  | retry {u policy attempt} : Of (.retry u policy) (.retry u policy attempt)
  | acquire {u name attributes} : Of (.span u name attributes) (.acquire u name attributes)
  | entered {u tracer name attributes} : Of (.span u name attributes) (.entered u tracer name)
  | body {u tracer name attributes} : Of (.span u name attributes) (.body tracer name)

namespace Execution

inductive Stage (env : Env) : Node H → Execution H → Prop
  | enter {n} : Stage env n (.enter n env)
  | frame {n f above} (h : f.Of n) : Stage env n (.frame env f above)
  | pause {till u policy attempt} : Stage env (.retry u policy) (.pause till env u policy attempt)
  | all {cap collect branches pending values failure round b} :
      Stage env (.all cap collect branches)
        (.crew env (.all cap collect pending values failure) round b)
  | any {branches child errors won round b} :
      Stage env (.any branches) (.crew env (.any child errors won) round b)
  | race {branches child won round b} :
      Stage env (.race branches) (.crew env (.race child won) round b)

theorem Stage.of_frame {env envf : Env} {n : Node H} {f : Frame H} {above : Execution H}
    (h : Stage env n (.frame envf f above)) : f.Of n := by
  cases h with
  | frame hf => exact hf

/-- Nothing is under way there. -/
def Vacant (hop : Hop) (x : Execution H) : Prop := ∀ y, x.part? hop = some y → y.ended = true

/-- Branches have indices of their own, and those yet to be admitted are among the nodes. -/
def Staffed (nodes : List (Node H)) : Execution H → Prop
  | crew _ (.all cap collect pending values failure) _ b => b.indices.Nodup ∧
      (Crew.all cap collect pending values failure).Sound b.indices ∧ ∀ p ∈ pending, p.2 ∈ nodes
  | crew _ _ _ b => b.indices.Nodup
  | _ => True

variable {env env' : Env} {n u : Node H} {s s' : Store H} {x x' : Execution H} {hop : Hop}
  {c : Crew H} {round : Round} {b : Branches H} {nodes : List (Node H)}

theorem Staffed.nodup (h : (crew env c round b).Staffed nodes) : b.indices.Nodup := by
  cases c with
  | all => exact h.1
  | any | race => exact h

/-! Entering -/

theorem source_cases (env : Env) (s : Store H) (x : Execution H × Store H) :
    (source env s x).1 = settled (.error .aborted) ∨ (source env s x).1 = x.1 := by
  unfold source
  split
  · exact .inl rfl
  · exact .inr rfl

theorem build_cases {α : Type} (s : Store H) (code : Code H α) (next : α → Execution H) :
    (∃ p, (build s code next).1 = ofPanic p) ∨ ∃ a, (build s code next).1 = next a := by
  unfold build
  split
  · exact .inr ⟨_, rfl⟩
  · exact .inl ⟨_, rfl⟩

theorem part?_build {α : Type} {code : Code H α} {next : α → Execution H}
    (h : ∀ a, (next a).part? hop = none) : (build s code next).1.part? hop = none := by
  rcases build_cases s code next with ⟨p, hb⟩ | ⟨a, hb⟩
  · rw [hb]
    rfl
  · rw [hb]
    exact h a

theorem part?_source {y : Execution H × Store H} (h : (source env s y).1.part? hop = some x) :
    y.1.part? hop = some x := by
  rcases source_cases env s y with hs | hs
  · rw [hs] at h
    cases h
  · rwa [hs] at h

theorem inner_of_start (h : (start env s n).1.part? hop = some (.enter u env')) :
    u ∈ n.inner ∧ env'.scope = env.scope := by
  have above : ∀ {f : Frame H} {v : Node H} {envv : Env},
      (frame env f (.enter v envv)).part? hop = some (.enter u env') → u = v ∧ env' = envv := by
    intro f v envv h
    cases hop <;> cases h
    exact ⟨rfl, rfl⟩
  cases n with
  | sync | program | cancellable | suspend =>
    have none := part?_source h
    rw [part?_build fun _ => rfl] at none
    cases none
  | service => cases part?_source h
  | provide => cases h
  | all => cases hop <;> cases part?_source h
  | any branches | race branches =>
    have h := part?_source h
    cases hop with
    | above => cases h
    | branch i =>
      obtain ⟨v, hv, he⟩ := Branches.find?_ofNodes h
      cases he
      exact ⟨hv, rfl⟩
  | map | withService | recover | tap | tapError | ensuring | retry | timeout =>
    obtain ⟨rfl, rfl⟩ := above h
    exact ⟨List.mem_cons_self, rfl⟩
  | span => cases hop <;> cases h

theorem staffed_start (env : Env) (s : Store H) (n : Node H) :
    (start env s n).1.Staffed n.inner := by
  have source : ∀ y : Execution H × Store H, y.1.Staffed n.inner →
      (source env s y).1.Staffed n.inner := by
    intro y hy
    rcases source_cases env s y with hs | hs
    · rw [hs]
      trivial
    · rwa [hs]
  have build : ∀ {α : Type} (code : Code H α) (next : α → Execution H),
      (∀ a, (next a).Staffed n.inner) → (build s code next).1.Staffed n.inner := by
    intro α code next h
    rcases build_cases s code next with ⟨p, hb⟩ | ⟨a, hb⟩
    · rw [hb]
      trivial
    · rw [hb]
      exact h a
  cases n with
  | sync | program | cancellable | suspend => exact source _ (build _ _ fun _ => trivial)
  | service => exact source _ trivial
  | all cap collect nodes =>
    refine source _ ⟨List.nodup_nil, ⟨?_, fun _ _ => List.not_mem_nil⟩, fun p hp => ?_⟩
    · have indices : (nodes.zipIdx.map Prod.swap).map Prod.fst = nodes.zipIdx.map Prod.snd := by
        rw [List.map_map]
        rfl
      rw [indices, List.zipIdx_map_snd]
      exact List.nodup_range'
    · obtain ⟨⟨m, i⟩, hm, rfl⟩ := List.mem_map.1 hp
      exact List.fst_mem_of_mem_zipIdx hm
  | any nodes => exact source _ (Branches.nodup_ofNodes _ 0 nodes)
  | race nodes => exact source _ (Branches.nodup_ofNodes _ 0 nodes)
  | _ => trivial

/-! Going on -/

variable [Tracing H] {policy : Policy} {depth : Nat}

/-- When a step goes on and stays what it is, it can only have entered an inner node. -/
theorem inner_of_resume {f : Frame H} {exit : Exit H} (hf : f.Of n)
    (hs : Stage env n (f.resume env exit s).1)
    (h : (f.resume env exit s).1.part? hop = some (.enter u env')) :
    u ∈ n.inner ∧ env'.scope = env.scope := by
  cases hf with
  | @map _ code =>
    cases exit with
    | ok v =>
      have none : (build s (code v) (Next.execution env)).1.part? hop = none :=
        part?_build fun next => by cases next <;> rfl
      rw [Frame.resume, none] at h
      cases h
    | error => cases h
  | withService =>
    cases exit with
    | ok v =>
      unfold Frame.resume at h
      dsimp only at h
      split at h <;> cases h
    | error => cases h
  | recover =>
    cases exit with
    | ok => cases h
    | error =>
      unfold Frame.resume at h
      dsimp only at h
      split at h
      · cases h
      · rw [part?_build fun n => by cases n <;> rfl] at h
        cases h
  | tap =>
    cases exit with
    | ok v =>
      -- the frame that waits for the effect of a tap is no stage of the tap
      unfold Frame.resume at hs h
      dsimp only at hs h
      rcases build_cases s _ _ with ⟨p, hb⟩ | ⟨next, hb⟩
      · rw [hb] at h
        cases h
      · rw [hb] at hs h
        cases next with
        | ok => cases hs.of_frame
        | error => cases h
    | error => cases h
  | tapError =>
    cases exit with
    | ok => cases h
    | error =>
      unfold Frame.resume at hs h
      dsimp only at hs h
      rcases build_cases s _ _ with ⟨p, hb⟩ | ⟨next, hb⟩
      · rw [hb] at h
        cases h
      · rw [hb] at hs
        cases hs.of_frame
  | ensuring =>
    unfold Frame.resume at hs h
    dsimp only at hs h
    split at hs
    · cases hs.of_frame
    · rename_i hp
      rw [hp] at h
      unfold concludeFinalizer at h
      dsimp only at h
      split at h <;> cases h
  | timeout => cases h
  | @draining v after fallback => cases fallback <;> cases h
  | @retry inner policy attempt =>
    cases exit with
    | ok => cases h
    | error f =>
      rw [Frame.resume] at h
      have goes := retries env inner policy attempt f s
      generalize retryAfter env inner policy attempt f s = y at goes h
      cases goes with
      | again =>
        cases hop <;> cases h
        exact ⟨List.mem_cons_self, rfl⟩
      | _ => cases h
  | acquire =>
    unfold Frame.resume at h
    dsimp only at h
    split at h
    · cases hop <;> cases h
    · cases h
  | entered =>
    cases exit with
    | ok =>
      cases hop <;> cases h
      exact ⟨List.mem_cons_self, rfl⟩
    | error => cases h
  | body => cases h

theorem staffed_move_crew (h : (crew env c round b).Staffed nodes)
    (hm : (crew env c round b).move policy depth s = some (x', s')) :
    x'.Staffed nodes ∧ ∀ hop u env', (crew env c round b).Vacant hop →
      x'.part? hop = some (.enter u env') → u ∈ nodes ∧ env'.scope = env.scope := by
  have distinct := h.nodup
  cases move_crew distinct hm with
  | keeps hk =>
    cases hk with
    | panics => exact ⟨trivial, fun _ _ _ _ hp => nomatch hp⟩
    | concludes => exact ⟨trivial, fun _ _ _ _ hp => nomatch hp⟩
    | @absorbs i exit line settled =>
      refine ⟨?_, fun hop u env' vacant hp => ?_⟩
      · have distinct : (b.erase i).indices.Nodup := by
          rw [Branches.indices_erase]
          exact distinct.erase i
        cases c with
        | all cap collect pending values failure =>
          have sound := sound_absorb h.2.1 i exit s
          cases exit <;> exact ⟨distinct, sound, h.2.2⟩
        | any child errors won =>
          cases won with
          | some => exact distinct
          | none => cases exit <;> exact distinct
        | race child won => cases won <;> exact distinct
      · cases hop with
        | above => cases hp
        | branch j =>
          cases vacant _ (Branches.find?_of_erase distinct hp).2
    | @admits i m rest line hn =>
      obtain ⟨cap, collect, pending, values, rfl, rfl⟩ := Crew.next?_some hn
      obtain ⟨-, sound, members⟩ := h
      obtain ⟨new, sound⟩ := sound_next? sound hn
      refine ⟨⟨Branches.nodup_push distinct new _, ?_, ?_⟩, fun hop u env' vacant hp => ?_⟩
      · rwa [Branches.indices_push]
      · exact fun p hp => members p (List.mem_cons_of_mem _ hp)
      · cases hop with
        | above => cases hp
        | branch j =>
          rcases Branches.find?_of_push new hp with same | old
          · cases same
            exact ⟨members (i, m) List.mem_cons_self, rfl⟩
          · cases vacant _ old
  | @moves i f f' b' line policy depth s₁ idle same others found found' moved =>
    refine ⟨?_, fun hop u env' vacant hp => ?_⟩
    · cases c with
      | all => exact ⟨same ▸ distinct, same ▸ h.2.1, h.2.2⟩
      | any | race =>
        show b'.indices.Nodup
        rw [same]
        exact distinct
    · cases hop with
      | above => cases hp
      | branch j =>
        have hp : b'.find? j = some (.enter u env') := hp
        by_cases hj : j = i
        · -- a branch that moves has not ended
          have ended := vacant f (hj ▸ found)
          cases f <;> cases ended <;> (rw [move] at moved; cases moved)
        · rw [others j hj] at hp
          cases vacant _ hp

omit [Tracing H] in
theorem staffed_of_stage_frame {f : Frame H} (hf : f.Of n) (h : Stage env n x) :
    x.Staffed n.inner := by
  cases h with
  | all | any | race => cases hf
  | _ => trivial

/-- From one stage of a node to the next, only inner nodes are entered, in the node's own context.
-/
theorem Stage.move (h : Stage env n x) (staffed : x.Staffed n.inner)
    (hm : x.move policy depth s = some (x', s')) (next : Stage env n x') :
    x'.Staffed n.inner ∧ ∀ hop u env', x.Vacant hop → x'.part? hop = some (.enter u env') →
      u ∈ n.inner ∧ env'.scope = env.scope := by
  cases h with
  | enter =>
    rw [Execution.move] at hm
    have here := Option.some.inj hm
    have entered : (start env s n).1 = x' := by rw [here]
    subst entered
    exact ⟨staffed_start env s n, fun hop u env' _ hp => inner_of_start hp⟩
  | @frame _ f above hf =>
    refine ⟨staffed_of_stage_frame hf next, fun hop u env' vacant hp => ?_⟩
    have under_way : above.ended = false → hop ≠ .above := by
      rintro running rfl
      rw [vacant above rfl] at running
      cases running
    cases move_frame hm with
    | resumes => exact inner_of_resume hf next hp
    | passes => cases hp
    | moves running =>
      cases hop with
      | above => exact absurd rfl (under_way running)
      | branch => cases hp
    | expires running =>
      cases hop with
      | above => exact absurd rfl (under_way running)
      | branch => cases hp
  | pause =>
    refine ⟨staffed_of_stage_frame (f := .retry _ _ 0) .retry next, fun hop u env' _ hp => ?_⟩
    rw [Execution.move] at hm
    split at hm
    · cases hm
      cases hp
    · split at hm
      · cases hm
        cases hop <;> cases hp
        exact ⟨List.mem_cons_self, rfl⟩
      · cases hm
  | all | any | race => exact staffed_move_crew staffed hm

/-- A node that gives up its place gives it to the node in a new layer, or to the fallback. -/
theorem Stage.turns (h : Stage env n x) (ht : n.Turns)
    (hm : x.move policy depth s = some (.enter u env', s')) :
    (∃ p, n = .provide u p ∧ env'.scope = env.scope.push p.identity ∧
      s' = (s.layer env.scope p).2) ∨ u ∈ n.inner ∧ env'.scope = env.scope := by
  have pushed : ∀ p : Provider H, (s.layer env.scope p).1 = env.scope.push p.identity := by
    intro p
    unfold Store.layer
    dsimp only
    split <;> rfl
  cases h with
  | enter =>
    rw [Execution.move] at hm
    cases n with
    | provide u p =>
      cases hm
      exact .inl ⟨p, rfl, pushed p, rfl⟩
    | timeout => cases hm
    | _ => cases ht
  | @frame _ f above hf =>
    cases hf with
    | timeout => cases move_frame hm
    | @draining v after fallback =>
      generalize hx' : Execution.enter u env' = x' at hm
      cases move_frame hm with
      | resumes =>
        cases fallback with
        | none => cases hx'
        | some f =>
          cases hx'
          exact .inr ⟨List.mem_cons_of_mem _ (Option.mem_toList.2 rfl), rfl⟩
      | passes | moves | expires => cases hx'
    | _ => cases ht
  | _ => cases ht

end Execution

end ScopedEffects
