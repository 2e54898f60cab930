import ScopedEffects.Data.KeySet
import ScopedEffects.Duration
import ScopedEffects.Host
import ScopedEffects.Text.Quoted

/-! How an effect fails. A domain failure is told apart by its key, and may carry a message, a typed
payload and a cause. All other failures are produced by the runtime itself and have fixed keys. A
defect cannot be recovered from or retried: it is an abort, or an error of resolution. -/

namespace ScopedEffects

/-- What user code panics with: a text, or anything else. -/
inductive Panic where
  | text (message : String)
  | other
  deriving DecidableEq, Repr

def Panic.message : Panic → String
  | .text m => m
  | .other => "panic with non-string payload"

/-- An error of a foreign kind: its text, and the texts of the errors below it. -/
structure ForeignError where
  message : String
  sources : List String := []
  deriving DecidableEq, Repr

inductive Failure (H : Host) where
  | domain (key : Key) (message : Option String) (payload : Option (PlainValue H))
      (cause : Option (Failure H))
  | unexpected (message : String) (cause : Option ForeignError)
  | timeout (after : Duration)
  | abort (reason : String)
  | aggregate (errors : List (Failure H))
  | tokenNotProvided (key : Key)
  | circularDependency (cycle : List Key)
  | missingRequirements (keys : List Key)

namespace Failure

variable {H : Host}

/-- A domain failure with nothing but a key. -/
def ofKey (key : Key) : Failure H := .domain key none none none

def ofMessage (message : String) : Failure H := .unexpected message none

def ofForeign (e : ForeignError) : Failure H := .unexpected e.message (some e)

def ofPanic (p : Panic) : Failure H := ofMessage ("panicked: " ++ p.message)

/-- The abort that a fired signal causes. -/
def aborted : Failure H := .abort "cancellation requested"

/-- The key by which handlers and logs tell failures apart. -/
def key : Failure H → Key
  | .domain k _ _ _ => k
  | .unexpected .. => "UnexpectedError"
  | .timeout _ => "TimeoutError"
  | .abort _ => "AbortError"
  | .aggregate _ => "AggregateError"
  | .tokenNotProvided _ => "TokenNotProvidedError"
  | .circularDependency _ => "CircularDependencyError"
  | .missingRequirements _ => "MissingRequirementsError"

def isDefect : Failure H → Bool
  | .abort _ | .tokenNotProvided _ | .circularDependency _ | .missingRequirements _ => true
  | _ => false

def isDomain : Failure H → Bool
  | .domain .. => true
  | _ => false

/-- The failures of the alternatives, for an aggregate. -/
def errors : Failure H → List (Failure H)
  | .aggregate es => es
  | _ => []

/-- The failure in one line. -/
def display : Failure H → String
  | .domain k m _ _ => k ++ (match m with | some m => ": " ++ m | none => "")
  | .unexpected m _ => "unexpected error: " ++ m
  | .timeout d => "timed out after " ++ d.render
  | .abort r => "aborted: " ++ r
  | .aggregate es => "all " ++ toString es.length ++ " alternatives failed"
  | .tokenNotProvided k => "token not provided: " ++ k
  | .circularDependency c => "circular dependency: " ++ " -> ".intercalate c
  | .missingRequirements ks => "missing requirements: " ++ ", ".intercalate ks

/-- The texts of the errors below a failure, from the nearest on. -/
def sources : Failure H → List String
  | .domain _ _ _ (some cause) => cause.display :: cause.sources
  | .unexpected _ (some e) => e.message :: e.sources
  | _ => []

open Text in
mutual

/-- The failure with all its parts. A payload shows only that it is there. -/
def describe : Failure H → String
  | .domain k m p c =>
    delimited "Domain(" ")" [record "TypedError"
      [("key", quote k), ("message", optional (m.map quote)),
        ("has_payload", toString p.isSome), ("cause", describeCause c)]]
  | .unexpected m c =>
    record "Unexpected" [("message", quote m), ("cause", optional (c.map fun _ => "Foreign"))]
  | .timeout d => record "Timeout" [("after", d.render)]
  | .abort r => record "Abort" [("reason", quote r)]
  | .aggregate es => delimited "Aggregate([" "])" (describeAll es)
  | .tokenNotProvided k => record "TokenNotProvided" [("key", quote k)]
  | .circularDependency c => record "CircularDependency" [("cycle", quoteList c)]
  | .missingRequirements ks => record "MissingRequirements" [("keys", quoteList ks)]

def describeCause : Option (Failure H) → String
  | none => optional none
  | some f => optional (some (describe f))

def describeAll : List (Failure H) → List String
  | [] => []
  | f :: rest => describe f :: describeAll rest

end

end Failure

/-- A family of domain failures: their key and the type of their payload. -/
structure FailureTag (H : Host) where
  key : Key
  type : H.Plain

namespace FailureTag

variable {H : Host}

/-- Does the failure have the key of this family? -/
def matchesKey (t : FailureTag H) (f : Failure H) : Bool := f.key == t.key

/-- The payload of a domain failure of this family. -/
def payload? (t : FailureTag H) : Failure H → Option (H.El t.type)
  | .domain k _ (some v) _ => if k = t.key then v.at? t.type else none
  | _ => none

def failure (t : FailureTag H) (v : H.El t.type) : Failure H :=
  .domain t.key none (some ⟨t.type, v⟩) none

def describe (t : FailureTag H) : String := Text.delimited "ErrorTag(" ")" [Text.quote t.key]

end FailureTag

end ScopedEffects
