import ScopedEffects.Proofs.Effect.Defects
import ScopedEffects.Proofs.Program.Promises

/-! Shapes of effects. Nodes handle values without knowing their shapes, and each operation says anew
which shape its steps expect. The nodes of an effect that is built with the operations agree on these
shapes all the way down, and so do the nodes that its closures come to build. -/

namespace ScopedEffects

variable {H : Host}

def Value.HasShape (a : Shape H.Plain) (v : Value H) : Prop := v.1 = a

theorem Value.hasShape_iff {a : Shape H.Plain} {v : Value H} : v.HasShape a ↔ ∃ x, v = ⟨a, x⟩ := by
  constructor
  · rintro rfl
    exact ⟨v.2, rfl⟩
  · rintro ⟨x, rfl⟩
    rfl

/-- Code of a tap on the value of a step, at the shape that the tap expects. -/
def Code.onTap (a : Shape H.Plain) (v : Value H)
    (f : a.El H → Code H (Except (Failure H) (Node H))) : Code H (Except (Failure H) (Node H)) :=
  match v.at? a with
  | some x => f x
  | none => Code.pure (.error (.ofMessage ("tap expected a value of type " ++ H.shapeName a)))

theorem Code.onTap_mk {a : Shape H.Plain} (x : a.El H)
    (f : a.El H → Code H (Except (Failure H) (Node H))) : Code.onTap a ⟨a, x⟩ f = f x := by
  simp only [Code.onTap, Value.at?_mk]

/-- What code answers, whenever it is run, has the property. -/
def Code.Gives {α : Type} (P : α → Prop) (c : Code H α) : Prop :=
  ∀ now s x, (c now s).answer = .ok x → P x

theorem Code.gives_map {α β : Type} {P : β → Prop} {c : Code H α} {f : α → β}
    (h : c.Gives fun x => P (f x)) : (c.map f).Gives P := by
  intro now s y hy
  obtain ⟨x, hx, rfl⟩ := Code.answer_map hy
  exact h now s x hx

theorem Code.gives_pure {α : Type} {P : α → Prop} {x : α} (h : P x) :
    (Code.pure (H := H) x).Gives P := by
  intro now s y hy
  cases hy
  exact h

theorem Code.answer_map_some {α : Type} {c : Code H α} {now : Clock} {s : H.State} {x : α}
    (h : ((c.map some) now s).answer = .ok (some x)) : (c now s).answer = .ok x := by
  obtain ⟨y, hy, same⟩ := Code.answer_map h
  rwa [Option.some.inj same] at hy

/-! Nodes -/

/-- `P` says which effects to go on with. -/
def Next.Typed (V : Value H → Prop) (P : Node H → Prop) : Next H (Node H) → Prop
  | .value v => V v
  | .fail _ => True
  | .program p => p.Promises V
  | .effect n => P n

/-- When the node succeeds, then with a value that has the property `V`, and every step in it is code
on the values of one shape, which is the shape of what the step is handed. The same holds of every
node that its closures build. -/
inductive Node.Typed : (Value H → Prop) → Node H → Prop
  | sync {V code} (h : Code.Gives (Exit.Holds V) code) : Typed V (.sync code)
  | program {V code} (h : Code.Gives (Program.Promises V) code) : Typed V (.program code)
  | cancellable {V code} (h : ∀ g, Code.Gives (Program.Promises V) (code g)) :
      Typed V (.cancellable code)
  | suspend {V code} (h : ∀ now s n, (code now s).answer = .ok n → Typed V n) :
      Typed V (.suspend code)
  | service {V t} (h : ∀ i, V ⟨.shared t.kind, i⟩) : Typed V (.service t)
  | all {V a cap nodes} (h : ∀ n ∈ nodes, Typed (Value.HasShape a) n)
      (lists : ∀ xs : List (a.El H), xs.length = nodes.length → V ⟨.list a, xs⟩) :
      Typed V (.all cap (Value.takeAll a) nodes)
  | any {V nodes} (h : ∀ n ∈ nodes, Typed V n) : Typed V (.any nodes)
  | race {V nodes} (h : ∀ n ∈ nodes, Typed V n) : Typed V (.race nodes)
  | map {V a u} (inner : Typed (Value.HasShape a) u) (f : a.El H → Code H (Next H (Node H)))
      (h : ∀ x, (f x).Gives (Next.Typed V fun _ => True))
      (effects : ∀ x now s n, (f x now s).answer = .ok (.effect n) → Typed V n) :
      Typed V (.map u fun v => Code.onValue a v .fail f)
  | withService {V a u t} (inner : Typed (Value.HasShape a) u)
      (f : a.El H → Instance H t.kind → Value H) (h : ∀ x i, V (f x i)) :
      Typed V (.withService u t fun v => (v.take a).map f)
  | recover {V u code} (inner : Typed V u)
      (h : ∀ f now s n, (code f now s).answer = .ok (some n) → Typed V n) :
      Typed V (.recover u code)
  | tap {V a b u} (inner : Typed (Value.HasShape a) u) (keeps : ∀ v, v.HasShape a → V v)
      (f : a.El H → Code H (Except (Failure H) (Node H)))
      (h : ∀ x now s n, (f x now s).answer = .ok (.ok n) → Typed (Value.HasShape b) n) :
      Typed V (.tap u fun v => Code.onTap a v f)
  | tapError {V b u code} (inner : Typed V u)
      (h : ∀ f now s n, (code f now s).answer = .ok n → Typed (Value.HasShape b) n) :
      Typed V (.tapError u code)
  | ensuring {V b u code} (inner : Typed V u)
      (h : ∀ now s n, (code now s).answer = .ok n → Typed (Value.HasShape b) n) :
      Typed V (.ensuring u code)
  | timeout {V u after fallback} (inner : Typed V u)
      (h : ∀ n, fallback = some n → Typed V n) : Typed V (.timeout u after fallback)
  | retry {V u policy} (inner : Typed V u) : Typed V (.retry u policy)
  | provide {V u p} (inner : Typed V u) : Typed V (.provide u p)
  | span {V u name attributes} (inner : Typed V u) : Typed V (.span u name attributes)

theorem Code.gives_next {V : Value H → Prop} {c : Code H (Next H (Node H))}
    (h : c.Gives (Next.Typed V fun _ => True))
    (effects : ∀ now s n, (c now s).answer = .ok (.effect n) → n.Typed V) :
    c.Gives (Next.Typed V (Node.Typed V)) := by
  intro now s n hn
  cases n with
  | effect n => exact effects now s n hn
  | _ => exact h now s _ hn

/-! Effects -/

namespace Effect

/-- Effects that are built with the operations on effects, by whose closures only such effects are
built, and programs that settle with values of the shapes that they are meant for. -/
inductive Constructed : {a : Shape H.Plain} → Effect H a → Prop
  | succeed {a : Shape H.Plain} (x : a.El H) : Constructed (Effect.succeed x)
  | fail {a} (f : Failure H) : Constructed (Effect.fail f : Effect H a)
  | sync {a : Shape H.Plain} (code : Code H (Except (Failure H) (a.El H))) :
      Constructed (Effect.sync code)
  | ofProgram {a code} (programs : Code.Gives (Program.Promises (Value.HasShape a)) code) :
      Constructed (Effect.ofProgram code : Effect H a)
  | cancellable {a code}
      (programs : ∀ g, Code.Gives (Program.Promises (Value.HasShape a)) (code g)) :
      Constructed (Effect.cancellable code : Effect H a)
  | suspend {a} {code : Code H (Effect H a)}
      (effects : ∀ now s g, (code now s).answer = .ok g → Constructed g) :
      Constructed (Effect.suspend code)
  | sleep (d) : Constructed (Effect.sleep d)
  | service (t) : Constructed (Effect.service t)
  | all {a} {es : List (Effect H a)} (h : ∀ e ∈ es, Constructed e) : Constructed (Effect.all es)
  | allWithConcurrency {a} {es : List (Effect H a)} (h : ∀ e ∈ es, Constructed e) {cap g}
      (built : Effect.allWithConcurrency es cap = .ok g) : Constructed g
  | any {a} {es : List (Effect H a)} (h : ∀ e ∈ es, Constructed e) {g}
      (built : Effect.any es = .ok g) : Constructed g
  | race {a} {es : List (Effect H a)} (h : ∀ e ∈ es, Constructed e) {g}
      (built : Effect.race es = .ok g) : Constructed g
  | map {a b : Shape H.Plain} {e : Effect H a} (h : Constructed e) (f : a.El H → Code H (b.El H)) :
      Constructed (e.map f)
  | tryMap {a b : Shape H.Plain} {e : Effect H a} (h : Constructed e)
      (f : a.El H → Code H (Except (Failure H) (b.El H))) : Constructed (e.tryMap f)
  | thenProgram {a b} {e : Effect H a} (h : Constructed e) {f : a.El H → Code H (Program H)}
      (programs : ∀ x, (f x).Gives (Program.Promises (Value.HasShape b))) :
      Constructed (e.thenProgram f : Effect H b)
  | andThen {a b} {e : Effect H a} (h : Constructed e) {f : a.El H → Code H (Effect H b)}
      (effects : ∀ x now s g, (f x now s).answer = .ok g → Constructed g) :
      Constructed (e.andThen f)
  | withService {a b} {e : Effect H a} (h : Constructed e) (t)
      {f : a.El H → Instance H t.kind → Code H (Effect H b)}
      (effects : ∀ x i now s g, (f x i now s).answer = .ok g → Constructed g) :
      Constructed (e.withService t f)
  | catchAll {a} {e : Effect H a} (h : Constructed e) {handler : Failure H → Code H (Effect H a)}
      (effects : ∀ f now s g, (handler f now s).answer = .ok g → Constructed g) :
      Constructed (e.catchAll handler)
  | catchKey {a} {e : Effect H a} (h : Constructed e) (key)
      {handler : Failure H → Code H (Effect H a)}
      (effects : ∀ f now s g, (handler f now s).answer = .ok g → Constructed g) :
      Constructed (e.catchKey key handler)
  | catchTag {a} {e : Effect H a} (h : Constructed e) (tag)
      {handler : H.El tag.type → Code H (Effect H a)}
      (effects : ∀ p now s g, (handler p now s).answer = .ok g → Constructed g) :
      Constructed (e.catchTag tag handler)
  | catchTable {a} {e : Effect H a} (h : Constructed e) {t : CatchTable H a}
      (effects : ∀ key handler f now s g, t.handlers.get? key = some handler →
        (handler f now s).answer = .ok (some g) → Constructed g) : Constructed (e.catchTable t)
  | tap {a b} {e : Effect H a} (h : Constructed e) {f : a.El H → Code H (Effect H b)}
      (effects : ∀ x now s g, (f x now s).answer = .ok g → Constructed g) :
      Constructed (e.tap f)
  | tapError {a b} {e : Effect H a} (h : Constructed e) {code : Failure H → Code H (Effect H b)}
      (effects : ∀ f now s g, (code f now s).answer = .ok g → Constructed g) :
      Constructed (e.tapError code)
  | ensuring {a b} {e : Effect H a} (h : Constructed e) {code : Code H (Effect H b)}
      (effects : ∀ now s g, (code now s).answer = .ok g → Constructed g) :
      Constructed (e.ensuring code)
  | timeout {a} {e : Effect H a} (h : Constructed e) (after) : Constructed (e.timeout after)
  | timeoutOr {a} {e f : Effect H a} (h : Constructed e) (after) (hf : Constructed f) :
      Constructed (e.timeoutOr after f)
  | retry {a} {e : Effect H a} (h : Constructed e) (policy) : Constructed (e.retry policy)
  | provide {a} {e : Effect H a} (h : Constructed e) (p) : Constructed (e.provide p)
  | span {a} {e : Effect H a} (h : Constructed e) (name attributes) :
      Constructed (e.span name attributes)

variable {a b : Shape H.Plain}

/-- The node settles with values of one shape alone. -/
abbrev Typed (e : Effect H a) : Prop := e.node.Typed (Value.HasShape a)

theorem forall_node {P : Node H → Prop} {es : List (Effect H a)} (h : ∀ e ∈ es, P e.node) :
    ∀ n ∈ es.map Effect.node, P n := by
  intro n hn
  obtain ⟨e, he, rfl⟩ := List.mem_map.1 hn
  exact h e he

theorem typed_gather {cap : Option Nat} {es : List (Effect H a)} {V : Value H → Prop}
    (h : ∀ e ∈ es, e.Typed)
    (lists : ∀ xs : List (a.El H), xs.length = es.length → V ⟨.list a, xs⟩) :
    (gather cap es).node.Typed V :=
  .all (forall_node h) fun xs same => lists xs (same.trans (List.length_map _))

theorem typed_map {u : Node H} {V : Value H → Prop} {f : a.El H → Code H (Next H (Node H))}
    (h : u.Typed (Value.HasShape a)) (next : ∀ x, (f x).Gives (Next.Typed V (Node.Typed V))) :
    (Node.map u fun v => Code.onValue a v .fail f).Typed V := by
  refine .map h f (fun x now s n hn => ?_) fun x now s n hn => next x now s _ hn
  cases n with
  | effect => trivial
  | _ => exact next x now s _ hn

theorem typed_recover {e : Effect H a} {handler : Failure H → Code H (Option (Effect H a))}
    (h : e.Typed) (effects : ∀ f now s g, (handler f now s).answer = .ok (some g) → g.Typed) :
    (e.recover handler).Typed := by
  refine .recover h fun f now s n hn => ?_
  obtain ⟨o, ho, some_node⟩ := Code.answer_map hn
  obtain ⟨g, rfl, rfl⟩ := Option.map_eq_some_iff.1 some_node
  exact effects f now s g ho

theorem typed_andThen {e : Effect H a} {f : a.El H → Code H (Effect H b)} (h : e.Typed)
    (effects : ∀ x now s g, (f x now s).answer = .ok g → g.Typed) : (e.andThen f).Typed := by
  refine typed_map h fun x => Code.gives_map fun now s g hg => ?_
  exact effects x now s g hg

theorem Constructed.typed {e : Effect H a} (h : e.Constructed) : e.Typed := by
  induction h with
  | succeed x => exact .sync (Code.gives_pure rfl)
  | fail f => exact .sync (Code.gives_pure trivial)
  | sync code =>
    refine .sync (Code.gives_map fun now s r _ => ?_)
    cases r with
    | ok x => exact rfl
    | error f => trivial
  | ofProgram programs => exact .program programs
  | cancellable programs => exact .cancellable programs
  | suspend _ ih =>
    refine .suspend fun now s n hn => ?_
    obtain ⟨g, hg, rfl⟩ := Code.answer_map hn
    exact ih now s g hg
  | sleep d => exact .program (Code.gives_pure rfl)
  | service t => exact .service fun _ => rfl
  | all _ ih => exact typed_gather ih fun _ _ => rfl
  | allWithConcurrency _ built ih =>
    unfold Effect.allWithConcurrency at built
    split at built
    · cases built
    · cases built
      exact typed_gather ih fun _ _ => rfl
  | any _ built ih =>
    unfold Effect.any at built
    split at built
    · cases built
    · cases built
      exact .any (forall_node ih)
  | race _ built ih =>
    unfold Effect.race at built
    split at built
    · cases built
    · cases built
      exact .race (forall_node ih)
  | map _ f ih => exact typed_map ih fun x => Code.gives_map fun _ _ _ _ => rfl
  | tryMap _ f ih =>
    refine typed_map ih fun x => Code.gives_map fun now s r _ => ?_
    cases r with
    | ok y => exact rfl
    | error g => trivial
  | thenProgram _ programs ih => exact typed_map ih fun x => Code.gives_map (programs x)
  | andThen _ _ ih effects => exact typed_andThen ih effects
  | withService _ t _ ih effects =>
    have zipped : Typed (zipService _ t) := .withService ih _ fun _ _ => rfl
    exact typed_andThen zipped fun p => effects p.1 p.2
  | catchAll _ _ ih effects =>
    exact typed_recover ih fun f now s g hg => effects f now s g (Code.answer_map_some hg)
  | catchKey _ key _ ih effects =>
    refine typed_recover ih fun f now s g hg => ?_
    split at hg
    · exact effects f now s g (Code.answer_map_some hg)
    · cases hg
  | catchTag _ tag _ ih effects =>
    refine typed_recover ih fun f now s g hg => ?_
    cases payload : tag.payload? f with
    | none =>
      simp only [payload] at hg
      cases hg
    | some p =>
      simp only [payload] at hg
      exact effects p now s g (Code.answer_map_some hg)
  | @catchTable _ _ _ t _ ih effects =>
    refine typed_recover ih fun f now s g hg => ?_
    cases found : t.handlers.get? f.key with
    | none =>
      simp only [found] at hg
      cases hg
    | some handler =>
      simp only [found] at hg
      exact effects f.key handler f now s g found hg
  | @tap _ b _ _ _ _ ih effects =>
    refine .tap (b := b) ih (fun _ => id) _ fun x now s n hn => ?_
    obtain ⟨g, hg, same⟩ := Code.answer_map hn
    cases same
    exact effects x now s g hg
  | @tapError _ b _ _ _ _ ih effects =>
    refine .tapError (b := b) ih fun f now s n hn => ?_
    obtain ⟨g, hg, rfl⟩ := Code.answer_map hn
    exact effects f now s g hg
  | @ensuring _ b _ _ _ _ ih effects =>
    refine .ensuring (b := b) ih fun now s n hn => ?_
    obtain ⟨g, hg, rfl⟩ := Code.answer_map hn
    exact effects now s g hg
  | timeout _ _ ih =>
    refine .timeout ih fun n hn => ?_
    cases hn
  | timeoutOr _ _ _ ih fallback => exact .timeout ih fun n hn => Option.some.inj hn ▸ fallback
  | retry _ _ ih => exact .retry ih
  | provide _ _ ih => exact .provide ih
  | span _ _ _ ih => exact .span ih

end Effect

end ScopedEffects
