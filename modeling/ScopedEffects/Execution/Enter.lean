import ScopedEffects.Execution.Basic

/-! How nodes are entered. A source looks at the signal first: once the signal has fired, no source
starts. A step puts its frame around its inner node, after preparing what that node runs in. -/

namespace ScopedEffects.Execution

variable {H : Host}

/-- A program that settles with the instance bound to a token, seen as a value. -/
def serviceProgram (env : Env) (t : Token H) (wrap : Instance H t.kind → Value H) : Program H :=
  .getAs (.context env.scope) t fun r => .done (r.map wrap)

/-- Runs code that builds an execution. A panic is a failure. -/
def build {α : Type} (s : Store H) (code : Code H α) (next : α → Execution H) :
    Execution H × Store H :=
  match s.perform code with
  | (.ok a, s) => (next a, s)
  | (.error p, s) => (ofPanic p, s)

/-- Starts a source, or aborts it when the signal has fired. -/
def source (env : Env) (s : Store H) (start : Execution H × Store H) : Execution H × Store H :=
  if s.isFired env.signal then (settled (.error .aborted), s) else start

/-- The execution that a node begins with. -/
def start (env : Env) (s : Store H) : Node H → Execution H × Store H
  | .sync code => source env s <| build s code settled
  | .program code => source env s <| build s code (ofProgram env)
  | .cancellable code =>
    source env s <| build s (code env.signal) fun p => task .caught (.run p)
  | .suspend code => source env s <| build s code (enter · env)
  | .service t =>
    source env s (ofProgram env (serviceProgram env t fun i => ⟨.shared t.kind, i⟩), s)
  | .all cap collect nodes =>
    source env s
      (crew env (.all cap collect (nodes.zipIdx.map Prod.swap) (nodes.map fun _ => none) none) {}
        .nil, s)
  | .any nodes =>
    source env s <|
      let (child, s) := s.childSignal env.signal
      (crew env (.any child (nodes.map fun _ => none) none) { queue := List.range nodes.length }
        (.ofNodes { env with signal := child } 0 nodes), s)
  | .race nodes =>
    source env s <|
      let (child, s) := s.childSignal env.signal
      (crew env (.race child none) { queue := List.range nodes.length }
        (.ofNodes { env with signal := child } 0 nodes), s)
  | .map u code => (frame env (.map code) (enter u env), s)
  | .withService u t pair => (frame env (.withService t pair) (enter u env), s)
  | .recover u code => (frame env (.recover code) (enter u env), s)
  | .tap u code => (frame env (.tap code) (enter u env), s)
  | .tapError u code => (frame env (.tapError code) (enter u env), s)
  | .ensuring u code => (frame env (.ensuring code) (enter u env), s)
  | .timeout u after fallback =>
    let (child, s) := s.childSignal env.signal
    (frame env (.timeout (s.now + after.ticks) after child fallback)
      (enter u { env with signal := child }), s)
  | .retry u policy => (frame env (.retry u policy 0) (enter u env), s)
  | .provide u p =>
    let (scope, s) := s.layer env.scope p
    (enter u { env with scope := scope }, s)
  | .span u name attributes =>
    (frame env (.acquire u name attributes) <|
      task .bare (.run (serviceProgram env (.tracer H) fun i => ⟨.shared .tracer, i⟩)), s)

end ScopedEffects.Execution
