import ScopedEffects.Effect.Retry
import ScopedEffects.Provider

/-! The nodes that effects are made of. A source starts an effect, and each step stands on the node
above whose settlement it awaits. Closures of user code handle values without knowing their shapes.
What can be seen without running anything is in the constructors: the tokens that services and spans
ask for, the branches of combinators, the fallbacks of timeouts, the providers of layers. -/

namespace ScopedEffects

/-- What a continuation goes on with, where `ν` is the type of nodes. -/
inductive Next (H : Host) (ν : Type) where
  | value (v : Value H)
  | fail (f : Failure H)
  | program (p : Program H)
  | effect (e : ν)

inductive Node (H : Host) where
  /-- Settles as synchronous code says. -/
  | sync (code : Clock → H.State → Reply H (Exit H))
  /-- Runs a program, and abandons it when the signal fires. -/
  | program (code : Clock → H.State → Reply H (Program H))
  /-- Runs a program that looks at the signal itself. -/
  | cancellable (code : Signal → Clock → H.State → Reply H (Program H))
  /-- Builds an effect and runs it. -/
  | suspend (code : Clock → H.State → Reply H (Node H))
  | service (token : Token H)
  /-- Runs all branches, at most `cap` at a time, and collects their values. -/
  | all (cap : Option Nat) (collect : List (Value H) → Exit H) (branches : List (Node H))
  /-- Runs all branches until one succeeds. -/
  | any (branches : List (Node H))
  /-- Runs all branches until one settles. -/
  | race (branches : List (Node H))
  | map (inner : Node H) (code : Value H → Clock → H.State → Reply H (Next H (Node H)))
  /-- Pairs a value with an instance. -/
  | withService (inner : Node H) (token : Token H)
      (pair : Value H → Except (Failure H) (Instance H token.kind → Value H))
  /-- Recovers from failures that are no defects; a handler may decline. -/
  | recover (inner : Node H)
      (code : Failure H → Clock → H.State → Reply H (Option (Node H)))
  /-- Runs an effect after a success and keeps the value. -/
  | tap (inner : Node H)
      (code : Value H → Clock → H.State → Reply H (Except (Failure H) (Node H)))
  /-- Runs an effect after a failure and keeps the failure. -/
  | tapError (inner : Node H) (code : Failure H → Clock → H.State → Reply H (Node H))
  /-- Runs an effect after the inner one has settled in whatever way. -/
  | ensuring (inner : Node H) (code : Clock → H.State → Reply H (Node H))
  | timeout (inner : Node H) (after : Duration) (fallback : Option (Node H))
  | retry (inner : Node H) (policy : RetryPolicy H)
  | provide (inner : Node H) (provider : Provider H)
  | span (inner : Node H) (name : String) (attributes : List (String × String))

/-- The keys that a node asks for outside the layers of its own providers. The closures of a node are
not looked into. -/
inductive Node.Needs {H : Host} : Node H → Key → Prop where
  | service (t : Token H) : Needs (.service t) t.key
  | all {cap collect branches b k} (h : b ∈ branches) (n : Needs b k) :
      Needs (.all cap collect branches) k
  | any {branches b k} (h : b ∈ branches) (n : Needs b k) : Needs (.any branches) k
  | race {branches b k} (h : b ∈ branches) (n : Needs b k) : Needs (.race branches) k
  | map {u code k} (n : Needs u k) : Needs (.map u code) k
  | withServiceToken {u t pair} : Needs (.withService u t pair) t.key
  | withService {u t pair k} (n : Needs u k) : Needs (.withService u t pair) k
  | recover {u code k} (n : Needs u k) : Needs (.recover u code) k
  | tap {u code k} (n : Needs u k) : Needs (.tap u code) k
  | tapError {u code k} (n : Needs u k) : Needs (.tapError u code) k
  | ensuring {u code k} (n : Needs u k) : Needs (.ensuring u code) k
  | timeout {u d fallback k} (n : Needs u k) : Needs (.timeout u d fallback) k
  | fallback {u d f k} (n : Needs f k) : Needs (.timeout u d (some f)) k
  | retry {u policy k} (n : Needs u k) : Needs (.retry u policy) k
  | provide {u p k} (n : Needs u k) (h : p.contains k = false) : Needs (.provide u p) k
  | spanTracer {u name attributes} : Needs (.span u name attributes) (Token.tracer H).key
  | span {u name attributes k} (n : Needs u k) : Needs (.span u name attributes) k

end ScopedEffects
