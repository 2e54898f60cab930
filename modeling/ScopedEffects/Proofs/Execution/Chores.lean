import Mathlib.Logic.Hydra
import ScopedEffects.Proofs.Execution.Stages

/-! What is left to do in a program, a task or an execution, as a multiset of chores. Whoever takes up
a chore leaves others behind, as many as there may be, but each of them is under the one taken up:
closures build whatever they like, and yet programs and nodes are finite along each of their answers.
So chores cannot be taken up forever. -/

namespace ScopedEffects

open Relation

variable {H : Host}

/-! Nodes and the nodes that they enter -/

/-- The nodes that a frame enters, or that a frame enters which takes its place. -/
inductive Frame.Enters : Frame H → Node H → Prop
  | map {code v now s n} (h : (code v now s).answer = .ok (.effect n)) : Enters (.map code) n
  | recover {code f now s n} (h : (code f now s).answer = .ok (some n)) : Enters (.recover code) n
  | tap {code v now s n} (h : (code v now s).answer = .ok (.ok n)) : Enters (.tap code) n
  | tapError {code f now s n} (h : (code f now s).answer = .ok n) : Enters (.tapError code) n
  | ensuring {code now s n} (h : (code now s).answer = .ok n) : Enters (.ensuring code) n
  | timeout {deadline after child n} : Enters (.timeout deadline after child (some n)) n
  | draining {after n} : Enters (.draining after (some n)) n
  | retry {n policy attempt} : Enters (.retry n policy attempt) n
  | acquire {n name attributes} : Enters (.acquire n name attributes) n
  | entered {n tracer name} : Enters (.entered n tracer name) n

/-- The frames that take the place of another. -/
inductive Frame.Becomes : Frame H → Frame H → Prop
  | tapped {code v} : Becomes (.tap code) (.tapped v)
  | tapErrored {code f} : Becomes (.tapError code) (.tapErrored f)
  | ensured {code exit} : Becomes (.ensuring code) (.ensured exit)
  | draining {deadline after child fallback} :
      Becomes (.timeout deadline after child fallback) (.draining after fallback)
  | retry {n policy attempt} (h : attempt < policy.times) :
      Becomes (.retry n policy attempt) (.retry n policy (attempt + 1))
  | entered {n tracer name attributes} :
      Becomes (.acquire n name attributes) (.entered n tracer name)
  | body {n tracer name} : Becomes (.entered n tracer name) (.body tracer name)

/-- How many frames can follow one another in the place of this one. -/
def Frame.followers : Frame H → Nat
  | .tap _ | .tapError _ | .ensuring _ | .timeout .. | .entered .. => 1
  | .acquire .. => 2
  | .retry _ policy attempt => policy.times - attempt
  | _ => 0

theorem Frame.Becomes.followers_lt {f g : Frame H} (h : f.Becomes g) :
    g.followers < f.followers := by
  cases h with
  | retry more => exact Nat.sub_succ_lt_self _ _ more
  | _ => exact Nat.lt_succ_self _

theorem Frame.Becomes.enters {f g : Frame H} (h : f.Becomes g) {n : Node H} (hn : g.Enters n) :
    f.Enters n := by
  cases h with
  | draining =>
    cases hn
    exact .timeout
  | retry =>
    cases hn
    exact .retry
  | entered =>
    cases hn
    exact .acquire
  | _ => cases hn

namespace Node

/-- The nodes that a node enters, whatever its closures are asked. -/
inductive Part : Node H → Node H → Prop
  | inner {n m : Node H} (h : m ∈ n.inner) : Part n m
  | provide {m p} : Part (.provide m p) m
  | suspend {code now s m} (h : (code now s).answer = .ok m) : Part (.suspend code) m
  | frame {n m : Node H} {f : Frame H} (hf : f.Of n) (h : f.Enters m) : Part n m

/-- Induction over a node and all that its closures build. -/
theorem induct {P : Node H → Prop} (h : ∀ n : Node H, (∀ m, n.Part m → P m) → P n) (n : Node H) :
    P n := by
  -- what a closure replies holds the nodes that it answers with
  refine @Node.rec H P (fun r => ∀ m, r.answer = .ok m → P m) (fun ns => ∀ m ∈ ns, P m)
    (fun r => ∀ m, r.answer = .ok (.effect m) → P m) (fun r => ∀ m, r.answer = .ok (some m) → P m)
    (fun r => ∀ m, r.answer = .ok (.ok m) → P m) (fun o => ∀ m, o = some m → P m)
    (fun a => ∀ m, a = .ok m → P m) (fun a => ∀ m, a = .ok (.effect m) → P m)
    (fun a => ∀ m, a = .ok (some m) → P m) (fun a => ∀ m, a = .ok (.ok m) → P m)
    (fun a => ∀ m, a = .effect m → P m) (fun a => ∀ m, a = .ok m → P m)
    ?sync ?program ?cancellable ?suspend ?service ?all ?any ?race ?map ?withService ?recover ?tap
    ?tapError ?ensuring ?timeout ?retry ?provide ?span (fun _ _ _ ih => ih) nofun
    (fun _ _ first rest => List.forall_mem_cons.2 ⟨first, rest⟩) (fun _ _ _ ih => ih)
    (fun _ _ _ ih => ih) (fun _ _ _ ih => ih) nofun (fun _ ih _ hm => Option.some.inj hm ▸ ih)
    nofun (fun _ ih _ hm => Except.ok.inj hm ▸ ih) nofun (fun _ ih m hm => ih m (Except.ok.inj hm))
    nofun (fun _ ih m hm => ih m (Except.ok.inj hm)) nofun
    (fun _ ih m hm => ih m (Except.ok.inj hm)) nofun nofun nofun
    (fun _ ih _ hm => Next.effect.inj hm ▸ ih) nofun (fun _ ih _ hm => Except.ok.inj hm ▸ ih) n
  case sync | program | cancellable | service =>
    intros
    refine h _ fun m hm => ?_
    cases hm with
    | inner hm => cases hm
    | frame hf => cases hf
  case suspend =>
    intro code ih
    refine h _ fun m hm => ?_
    cases hm with
    | inner hm => cases hm
    | suspend answer => exact ih _ _ m answer
    | frame hf => cases hf
  case all =>
    intro cap collect branches ih
    refine h _ fun m hm => ?_
    cases hm with
    | inner hm => exact ih m hm
    | frame hf => cases hf
  case any | race =>
    intro branches ih
    refine h _ fun m hm => ?_
    cases hm with
    | inner hm => exact ih m hm
    | frame hf => cases hf
  case map | recover | tap | tapError =>
    intro u code ihu ih
    refine h _ fun m hm => ?_
    cases hm with
    | inner hm => exact List.mem_singleton.1 hm ▸ ihu
    | frame hf enters =>
      cases hf
      cases enters
      exact ih _ _ _ m ‹_›
  case ensuring =>
    intro u code ihu ih
    refine h _ fun m hm => ?_
    cases hm with
    | inner hm => exact List.mem_singleton.1 hm ▸ ihu
    | frame hf enters =>
      cases hf
      cases enters
      exact ih _ _ m ‹_›
  case withService =>
    intro u t pair ihu
    refine h _ fun m hm => ?_
    cases hm with
    | inner hm => exact List.mem_singleton.1 hm ▸ ihu
    | frame hf enters =>
      cases hf
      cases enters
  case timeout =>
    intro u after fallback ihu ih
    refine h _ fun m hm => ?_
    cases hm with
    | inner hm =>
      rcases List.mem_cons.1 hm with rfl | hm
      · exact ihu
      · exact ih m (Option.mem_toList.1 hm)
    | frame hf enters =>
      cases hf <;> cases enters <;> exact ih m rfl
  case retry =>
    intro u policy ihu
    refine h _ fun m hm => ?_
    cases hm with
    | inner hm => exact List.mem_singleton.1 hm ▸ ihu
    | frame hf enters =>
      cases hf
      cases enters
      exact ihu
  case provide =>
    intro u p ihu
    refine h _ fun m hm => ?_
    cases hm with
    | inner hm => cases hm
    | provide => exact ihu
    | frame hf => cases hf
  case span =>
    intro u name attributes ihu
    refine h _ fun m hm => ?_
    cases hm with
    | inner hm => exact List.mem_singleton.1 hm ▸ ihu
    | frame hf enters =>
      cases hf <;> cases enters <;> exact ihu

end Node

/-! Chores -/

inductive Chore (H : Host) where
  /-- What leaves nothing behind. -/
  | token
  | run (p : Program H)
  /-- Going on with a program after a wait. -/
  | resume (next : Program H)
  | answer (next : Except (Failure H) (AnyInstance H) → Program H)
  | join (next : Exit H → Exit H → Program H)
  | pick (next : Bool → Exit H → Program H)
  | invoke (f : Factory H)
  | node (n : Node H)
  | frame (f : Frame H)
  /-- Another attempt after a delay. -/
  | again (inner : Node H) (policy : RetryPolicy H) (attempt : Nat)

namespace Chore

/-- A chore that can be left behind when the other is taken up. -/
inductive Under : Chore H → Chore H → Prop
  | act {update next now s} : Under (.run (next now s)) (.run (.act update next))
  | fire {g next} : Under (.run next) (.run (.fire g next))
  | isFired {g next b} : Under (.run (next b)) (.run (.isFired g next))
  | record {e next} : Under (.run next) (.run (.record e next))
  | sleep {d next} : Under (.resume next) (.run (.sleep d next))
  | watch {g next} : Under (.resume next) (.run (.awaitSignal g next))
  | resume {next} : Under (.run next) (.resume next)
  | get {via key next} : Under (.answer next) (.run (.get via key next))
  | refuse {via key next o} : Under (.run (next o)) (.run (.get via key next))
  | answer {next o} : Under (.run (next o)) (.answer next)
  | bothLeft {l r next} : Under (.run l) (.run (.both l r next))
  | bothRight {l r next} : Under (.run r) (.run (.both l r next))
  | join {l r next} : Under (.join next) (.run (.both l r next))
  | joined {next a b} : Under (.run (next a b)) (.join next)
  | joinPanic {next p} : Under (.run (.panic p)) (.join next)
  | firstLeft {l r next} : Under (.run l) (.run (.first l r next))
  | firstRight {l r next} : Under (.run r) (.run (.first l r next))
  | pick {l r next} : Under (.pick next) (.run (.first l r next))
  | picked {next side exit} : Under (.run (next side exit)) (.pick next)
  | pickPanic {next p} : Under (.run (.panic p)) (.pick next)
  | invoke {f p} : Under (.run p) (.invoke f)
  | token {n} : Under .token (.node n)
  | program {n p} : Under (.run p) (.node n)
  | factory {n f} : Under (.invoke f) (.node n)
  | part {n m} (h : n.Part m) : Under (.node m) (.node n)
  | step {n f} (h : f.Of n) : Under (.frame f) (.node n)
  | enter {f n} (h : f.Enters n) : Under (.node n) (.frame f)
  | call {f p} : Under (.run p) (.frame f)
  | become {f f'} (h : f.Becomes f') : Under (.frame f') (.frame f)
  | pause {n policy attempt} (h : attempt < policy.times) :
      Under (.again n policy (attempt + 1)) (.frame (.retry n policy attempt))
  | again {n policy attempt} : Under (.frame (.retry n policy attempt)) (.again n policy attempt)
  | attempt {n policy attempt} : Under (.node n) (.again n policy attempt)

/-! Nothing goes down forever -/

/-- From the chore one can only go down so far. -/
abbrev Finite (c : Chore H) : Prop := Acc Under c

theorem finite_token : (token : Chore H).Finite := ⟨_, fun _ h => nomatch h⟩

theorem finite_resume {next : Program H} (h : (run next).Finite) : (resume next).Finite := by
  refine ⟨_, fun c hc => ?_⟩
  cases hc
  exact h

theorem finite_panic (p : Panic) : (run (.panic p) : Chore H).Finite := ⟨_, fun _ h => nomatch h⟩

theorem finite_run (p : Program H) : (run p).Finite := by
  induction p with
  | done => exact ⟨_, fun _ h => nomatch h⟩
  | panic => exact finite_panic _
  | act update next ih =>
    refine ⟨_, fun c hc => ?_⟩
    cases hc
    exact ih _ _
  | fire g next ih | record e next ih =>
    refine ⟨_, fun c hc => ?_⟩
    cases hc
    exact ih
  | isFired g next ih =>
    refine ⟨_, fun c hc => ?_⟩
    cases hc
    exact ih _
  | sleep d next ih | awaitSignal g next ih =>
    refine ⟨_, fun c hc => ?_⟩
    cases hc
    exact finite_resume ih
  | get via key next ih =>
    refine ⟨_, fun c hc => ?_⟩
    cases hc with
    | refuse => exact ih _
    | get =>
      refine ⟨_, fun c hc => ?_⟩
      cases hc
      exact ih _
  | both l r next ihl ihr ih =>
    refine ⟨_, fun c hc => ?_⟩
    cases hc with
    | bothLeft => exact ihl
    | bothRight => exact ihr
    | join =>
      refine ⟨_, fun c hc => ?_⟩
      cases hc with
      | joined => exact ih _ _
      | joinPanic => exact finite_panic _
  | first l r next ihl ihr ih =>
    refine ⟨_, fun c hc => ?_⟩
    cases hc with
    | firstLeft => exact ihl
    | firstRight => exact ihr
    | pick =>
      refine ⟨_, fun c hc => ?_⟩
      cases hc with
      | picked => exact ih _ _
      | pickPanic => exact finite_panic _

theorem finite_invoke (f : Factory H) : (invoke f).Finite := by
  refine ⟨_, fun c hc => ?_⟩
  cases hc
  exact finite_run _

theorem finite_frame {f : Frame H} (h : ∀ n, f.Enters n → (node n).Finite) :
    (frame f).Finite := by
  induction left : f.followers using Nat.strong_induction_on generalizing f with
  | _ left ih =>
    have next : ∀ g, f.Becomes g → (frame g).Finite := fun g hg =>
      ih _ (left ▸ hg.followers_lt) (fun n hn => h n (hg.enters hn)) rfl
    refine ⟨_, fun c hc => ?_⟩
    cases hc with
    | enter hn => exact h _ hn
    | call => exact finite_run _
    | become hg => exact next _ hg
    | pause more =>
      refine ⟨_, fun c hc => ?_⟩
      cases hc with
      | again => exact next _ (.retry more)
      | attempt => exact h _ .retry

theorem finite_node (n : Node H) : (node n).Finite := by
  induction n using Node.induct with
  | h n ih =>
    refine ⟨_, fun c hc => ?_⟩
    cases hc with
    | token => exact finite_token
    | program => exact finite_run _
    | factory => exact finite_invoke _
    | part h => exact ih _ h
    | step hf => exact finite_frame fun m hm => ih m (.frame hf hm)

theorem wellFounded_under : WellFounded (Under (H := H)) := by
  refine ⟨fun c => ?_⟩
  cases c with
  | token => exact finite_token
  | run p => exact finite_run p
  | resume p => exact finite_resume (finite_run p)
  | answer next =>
    refine ⟨_, fun c hc => ?_⟩
    cases hc
    exact finite_run _
  | join next | pick next =>
    refine ⟨_, fun c hc => ?_⟩
    cases hc <;> exact finite_run _
  | invoke f => exact finite_invoke f
  | node n => exact finite_node n
  | frame f => exact finite_frame fun n _ => finite_node n
  | again n policy attempt =>
    refine ⟨_, fun c hc => ?_⟩
    cases hc with
    | again => exact finite_frame fun n _ => finite_node n
    | attempt => exact finite_node n

end Chore

/-! Fewer chores -/

/-- What can be left of chores when some of them, at least one, have been taken up. -/
def Lighter (a b : Multiset (Chore H)) : Prop := TransGen (CutExpand Chore.Under) a b

/-- What can be left of chores, perhaps all. -/
def NoHeavier (a b : Multiset (Chore H)) : Prop := ReflTransGen (CutExpand Chore.Under) a b

theorem wellFounded_lighter : WellFounded (Lighter (H := H)) :=
  Chore.wellFounded_under.cutExpand.transGen

variable {a b c d : Multiset (Chore H)}

theorem NoHeavier.refl (a : Multiset (Chore H)) : NoHeavier a a := ReflTransGen.refl

theorem Lighter.noHeavier (h : Lighter a b) : NoHeavier a b := TransGen.to_reflTransGen h

theorem NoHeavier.trans (h : NoHeavier a b) (h' : NoHeavier b c) : NoHeavier a c :=
  ReflTransGen.trans h h'

theorem Lighter.trans_noHeavier (h : Lighter a b) (h' : NoHeavier b c) : Lighter a c :=
  TransGen.trans_left h h'

theorem Lighter.add_right (h : Lighter a b) (c : Multiset (Chore H)) : Lighter (a + c) (b + c) :=
  TransGen.lift (· + c) (fun _ _ => (cutExpand_add_right c).2) _ _ h

theorem Lighter.add_left (h : Lighter a b) (c : Multiset (Chore H)) : Lighter (c + a) (c + b) :=
  TransGen.lift (c + ·) (fun _ _ => (cutExpand_add_left c).2) _ _ h

theorem NoHeavier.add (h : NoHeavier a b) (h' : NoHeavier c d) : NoHeavier (a + c) (b + d) := by
  have left : NoHeavier (a + c) (b + c) :=
    ReflTransGen.lift (· + c) (fun _ _ => (cutExpand_add_right c).2) _ _ h
  have right : NoHeavier (b + c) (b + d) :=
    ReflTransGen.lift (b + ·) (fun _ _ => (cutExpand_add_left b).2) _ _ h'
  exact left.trans right

theorem Lighter.add_noHeavier (h : Lighter a b) (h' : NoHeavier c d) :
    Lighter (a + c) (b + d) :=
  (h.add_right c).trans_noHeavier ((NoHeavier.refl b).add h')

/-- All that is left of a chore is under it. -/
theorem Lighter.of_under {c : Chore H} (h : ∀ d ∈ a, d.Under c) : Lighter a {c} :=
  .single (cutExpand_singleton h)

theorem noHeavier_zero (a : Multiset (Chore H)) : NoHeavier 0 a := by
  induction a using Multiset.induction with
  | empty => exact .refl 0
  | cons c a ih =>
    have one : NoHeavier 0 {c} := .single cutExpand_zero
    rw [← Multiset.singleton_add]
    exact one.add ih

theorem Lighter.of_under_cons {c : Chore H} (h : ∀ d ∈ a, d.Under c) (b : Multiset (Chore H)) :
    Lighter a (c ::ₘ b) := by
  rw [← Multiset.singleton_add, ← add_zero a]
  exact (Lighter.of_under h).add_noHeavier (noHeavier_zero b)

/-- Two that are done side by side: one of them gets lighter, together with what is around. -/
theorem Lighter.left (h : Lighter (a + c) (b + d)) (x : Chore H) (e : Multiset (Chore H)) :
    Lighter (x ::ₘ (a + e) + c) (x ::ₘ (b + e) + d) := by
  have regroup : ∀ a c : Multiset (Chore H), x ::ₘ (a + e) + c = (a + c) + x ::ₘ e := by
    intro a c
    simp only [← Multiset.singleton_add]
    abel
  rw [regroup, regroup]
  exact h.add_right _

theorem Lighter.right (h : Lighter (a + c) (b + d)) (x : Chore H) (e : Multiset (Chore H)) :
    Lighter (x ::ₘ (e + a) + c) (x ::ₘ (e + b) + d) := by
  rw [add_comm e a, add_comm e b]
  exact h.left x e

theorem lighter_zero {c : Chore H} (h : c ∈ a) : Lighter 0 a := by
  obtain ⟨rest, rfl⟩ := Multiset.exists_cons_of_mem h
  have one : Lighter 0 {c} := .single cutExpand_zero
  rw [← Multiset.singleton_add]
  exact one.add_noHeavier (noHeavier_zero rest)

end ScopedEffects
