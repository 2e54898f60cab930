import Mathlib.Tactic
import ScopedEffects.Effect.CatchTable

/-! What effects require. Every operation keeps the set of required keys by itself, while the nodes
show which services and tracers are asked for outside the layers of their providers. The two agree
for all effects that the operations build, whatever the closures of these effects would build. -/

namespace ScopedEffects

variable {H : Host} {k : Key}

namespace KeySet

@[simp] theorem mem_unions {sets : List KeySet} : k ∈ unions sets ↔ ∃ s ∈ sets, k ∈ s := by
  suffices ∀ s, k ∈ sets.foldl union s ↔ k ∈ s ∨ ∃ t ∈ sets, k ∈ t by
    exact (this empty).trans (or_iff_right not_mem_empty)
  induction sets with
  | nil => simp
  | cons t rest ih =>
    intro s
    rw [List.foldl_cons, ih, mem_union, List.exists_mem_cons_iff, or_assoc]

end KeySet

/-! What a node asks for, by its form -/

namespace Node

variable {u : Node H} {branches : List (Node H)}

@[simp] theorem needs_sync {code} : ¬ (sync (H := H) code).Needs k := nofun

@[simp] theorem needs_program {code} : ¬ (program (H := H) code).Needs k := nofun

@[simp] theorem needs_cancellable {code} : ¬ (cancellable (H := H) code).Needs k := nofun

@[simp] theorem needs_suspend {code} : ¬ (suspend (H := H) code).Needs k := nofun

@[simp] theorem needs_service {t : Token H} : (service t).Needs k ↔ k = t.key :=
  ⟨fun | .service _ => rfl, fun h => h ▸ .service t⟩

@[simp] theorem needs_all {cap collect} :
    (all cap collect branches).Needs k ↔ ∃ n ∈ branches, n.Needs k :=
  ⟨fun | .all h n => ⟨_, h, n⟩, fun ⟨_, h, n⟩ => .all h n⟩

@[simp] theorem needs_any : (any branches).Needs k ↔ ∃ n ∈ branches, n.Needs k :=
  ⟨fun | .any h n => ⟨_, h, n⟩, fun ⟨_, h, n⟩ => .any h n⟩

@[simp] theorem needs_race : (race branches).Needs k ↔ ∃ n ∈ branches, n.Needs k :=
  ⟨fun | .race h n => ⟨_, h, n⟩, fun ⟨_, h, n⟩ => .race h n⟩

@[simp] theorem needs_map {code} : (map u code).Needs k ↔ u.Needs k := ⟨fun | .map n => n, .map⟩

@[simp] theorem needs_withService {t pair} :
    (withService u t pair).Needs k ↔ k = t.key ∨ u.Needs k := by
  constructor
  · intro h
    cases h with
    | withServiceToken => exact .inl rfl
    | withService n => exact .inr n
  · rintro (rfl | n)
    · exact .withServiceToken
    · exact .withService n

@[simp] theorem needs_recover {code} : (recover u code).Needs k ↔ u.Needs k :=
  ⟨fun | .recover n => n, .recover⟩

@[simp] theorem needs_tap {code} : (tap u code).Needs k ↔ u.Needs k := ⟨fun | .tap n => n, .tap⟩

@[simp] theorem needs_tapError {code} : (tapError u code).Needs k ↔ u.Needs k :=
  ⟨fun | .tapError n => n, .tapError⟩

@[simp] theorem needs_ensuring {code} : (ensuring u code).Needs k ↔ u.Needs k :=
  ⟨fun | .ensuring n => n, .ensuring⟩

@[simp] theorem needs_timeout {after fallback} :
    (timeout u after fallback).Needs k ↔ u.Needs k ∨ ∃ f, fallback = some f ∧ f.Needs k := by
  constructor
  · intro h
    cases h with
    | timeout n => exact .inl n
    | fallback n => exact .inr ⟨_, rfl, n⟩
  · rintro (n | ⟨f, rfl, n⟩)
    · exact .timeout n
    · exact .fallback n

@[simp] theorem needs_retry {policy} : (retry u policy).Needs k ↔ u.Needs k :=
  ⟨fun | .retry n => n, .retry⟩

@[simp] theorem needs_provide {p : Provider H} :
    (provide u p).Needs k ↔ u.Needs k ∧ p.contains k = false :=
  ⟨fun | .provide n h => ⟨n, h⟩, fun ⟨n, h⟩ => .provide n h⟩

@[simp] theorem needs_span {name attributes} :
    (span u name attributes).Needs k ↔ k = (Token.tracer H).key ∨ u.Needs k := by
  constructor
  · intro h
    cases h with
    | spanTracer => exact .inl rfl
    | span n => exact .inr n
  · rintro (rfl | n)
    · exact .spanTracer
    · exact .span n

end Node

namespace Effect

/-- Effects that are built with the operations on effects. What the closures build is left open. -/
inductive Built : {a : Shape H.Plain} → Effect H a → Prop
  | succeed {a : Shape H.Plain} (x : a.El H) : Built (Effect.succeed x)
  | fail {a} (f : Failure H) : Built (Effect.fail f : Effect H a)
  | sync {a : Shape H.Plain} (code : Code H (Except (Failure H) (a.El H))) :
      Built (Effect.sync code)
  | ofProgram {a} (code) : Built (Effect.ofProgram code : Effect H a)
  | cancellable {a} (code) : Built (Effect.cancellable code : Effect H a)
  | suspend {a} (code : Code H (Effect H a)) : Built (Effect.suspend code)
  | sleep (d) : Built (Effect.sleep d)
  | service (t) : Built (Effect.service t)
  | all {a} {es : List (Effect H a)} (h : ∀ e ∈ es, Built e) : Built (Effect.all es)
  | allWithConcurrency {a} {es : List (Effect H a)} (h : ∀ e ∈ es, Built e) {cap g}
      (hg : Effect.allWithConcurrency es cap = .ok g) : Built g
  | any {a} {es : List (Effect H a)} (h : ∀ e ∈ es, Built e) {g} (hg : Effect.any es = .ok g) :
      Built g
  | race {a} {es : List (Effect H a)} (h : ∀ e ∈ es, Built e) {g} (hg : Effect.race es = .ok g) :
      Built g
  | map {a b : Shape H.Plain} {e : Effect H a} (h : Built e) (f : a.El H → Code H (b.El H)) :
      Built (e.map f)
  | tryMap {a b : Shape H.Plain} {e : Effect H a} (h : Built e)
      (f : a.El H → Code H (Except (Failure H) (b.El H))) : Built (e.tryMap f)
  | thenProgram {a b} {e : Effect H a} (h : Built e) (f) :
      Built (e.thenProgram f : Effect H b)
  | andThen {a b} {e : Effect H a} (h : Built e) (f : a.El H → Code H (Effect H b)) :
      Built (e.andThen f)
  | withService {a b} {e : Effect H a} (h : Built e) (t)
      (f : a.El H → Instance H t.kind → Code H (Effect H b)) : Built (e.withService t f)
  | catchAll {a} {e : Effect H a} (h : Built e) (f) : Built (e.catchAll f)
  | catchKey {a} {e : Effect H a} (h : Built e) (key f) : Built (e.catchKey key f)
  | catchTag {a} {e : Effect H a} (h : Built e) (tag f) : Built (e.catchTag tag f)
  | catchTable {a} {e : Effect H a} (h : Built e) (t) : Built (e.catchTable t)
  | tap {a b} {e : Effect H a} (h : Built e) (f : a.El H → Code H (Effect H b)) : Built (e.tap f)
  | tapError {a b} {e : Effect H a} (h : Built e) (f : Failure H → Code H (Effect H b)) :
      Built (e.tapError f)
  | ensuring {a b} {e : Effect H a} (h : Built e) (f : Code H (Effect H b)) : Built (e.ensuring f)
  | timeout {a} {e : Effect H a} (h : Built e) (after) : Built (e.timeout after)
  | timeoutOr {a} {e f : Effect H a} (h : Built e) (after) (hf : Built f) :
      Built (e.timeoutOr after f)
  | retry {a} {e : Effect H a} (h : Built e) (policy) : Built (e.retry policy)
  | provide {a} {e : Effect H a} (h : Built e) (p) : Built (e.provide p)
  | span {a} {e : Effect H a} (h : Built e) (name attributes) : Built (e.span name attributes)

variable {a : Shape H.Plain}

theorem mem_requirementsOf {es : List (Effect H a)} :
    k ∈ requirementsOf es ↔ ∃ e ∈ es, k ∈ e.requires := by
  simp [requirementsOf]

/-- What some of the effects require is what some of their nodes ask for. -/
theorem mem_requirementsOf_iff {es : List (Effect H a)}
    (h : ∀ e ∈ es, k ∈ e.requires ↔ e.node.Needs k) :
    k ∈ requirementsOf es ↔ ∃ n ∈ es.map Effect.node, n.Needs k := by
  simp only [mem_requirementsOf, List.mem_map, exists_exists_and_eq_and]
  exact exists_congr fun e => and_congr_right (h e)

theorem Built.mem_requires_iff {e : Effect H a} (h : e.Built) :
    k ∈ e.requires ↔ e.node.Needs k := by
  induction h with
  | succeed | fail | sync | ofProgram | cancellable | suspend | sleep =>
    exact iff_of_false KeySet.not_mem_empty nofun
  | service t => simp [Effect.service]
  | all _ ih => exact (mem_requirementsOf_iff ih).trans Node.needs_all.symm
  | allWithConcurrency _ hg ih =>
    unfold Effect.allWithConcurrency at hg
    split at hg
    · cases hg
    · cases hg
      exact (mem_requirementsOf_iff ih).trans Node.needs_all.symm
  | any _ hg ih =>
    unfold Effect.any at hg
    split at hg
    · cases hg
    · cases hg
      exact (mem_requirementsOf_iff ih).trans Node.needs_any.symm
  | race _ hg ih =>
    unfold Effect.race at hg
    split at hg
    · cases hg
    · cases hg
      exact (mem_requirementsOf_iff ih).trans Node.needs_race.symm
  | map _ _ ih | tryMap _ _ ih | thenProgram _ _ ih | andThen _ _ ih =>
    exact ih.trans Node.needs_map.symm
  | withService _ t _ ih => simp [Effect.withService, zipService, Effect.andThen, ih]
  | catchAll _ _ ih | catchKey _ _ _ ih | catchTag _ _ _ ih | catchTable _ _ ih =>
    exact ih.trans Node.needs_recover.symm
  | tap _ _ ih => exact ih.trans Node.needs_tap.symm
  | tapError _ _ ih => exact ih.trans Node.needs_tapError.symm
  | ensuring _ _ ih => exact ih.trans Node.needs_ensuring.symm
  | timeout _ _ ih => simp [Effect.timeout, ih]
  | timeoutOr _ _ _ ih ihf => simp [Effect.timeoutOr, ih, ihf]
  | retry _ _ ih => exact ih.trans Node.needs_retry.symm
  | provide _ p ih => simp [Effect.provide, ih]
  | span _ _ _ ih => simp [Effect.span, ih]

end Effect

end ScopedEffects
