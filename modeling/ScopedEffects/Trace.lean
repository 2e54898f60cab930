import ScopedEffects.Duration
import ScopedEffects.Text.Quoted

/-! The trace: what the machine tells about its work, in order. Each event has one line of text, made
of a level, a message, and named fields. -/

namespace ScopedEffects

inductive Event where
  /-- A run begins, before its requirements are checked. -/
  | runOpened (label : String)
  | runRefused (missing : List String)
  | runStarted
  | runSucceeded
  | runFailed (failure key : String)
  | invokingFactory (key : String)
  | joiningResolution (key : String)
  | refusingCircular (key waiting : String)
  | openingLayer (keys : List String)
  | timeoutExpired (after : Duration)
  | retrying (attempt times : Nat) (delay : Duration) (failure : String)
  | finalizerFailed (failure finalizer : String)
  | branchFailed (index : Nat) (failure : String)
  | branchSucceeded (index : Nat)
  /-- A span of the standard tracer, and the outcome written to it. -/
  | spanOpened (name : String) (attributes : List (String × String))
  | spanClosed (outcome : String)
  deriving DecidableEq, Repr

namespace Event

open Text in
/-- A pair of quoted texts. -/
def renderPair (p : String × String) : String := delimited "(" ")" [quote p.1, quote p.2]

open Text in
def render : Event → String
  | .runOpened label => "SPAN weft.run label=" ++ label
  | .runRefused missing =>
    "DEBUG requirements not provided, run refused missing=" ++ quoteList missing
  | .runStarted => "DEBUG run started"
  | .runSucceeded => "DEBUG run succeeded"
  | .runFailed failure key => "DEBUG run failed error=" ++ failure ++ " key=" ++ key
  | .invokingFactory key => "TRACE invoking factory key=" ++ key
  | .joiningResolution key => "TRACE joining resolution key=" ++ key
  | .refusingCircular key waiting =>
    "TRACE refusing circular resolution key=" ++ key ++ " waiting=" ++ waiting
  | .openingLayer keys => "TRACE opening provider layer keys=" ++ quoteList keys
  | .timeoutExpired after => "DEBUG timeout expired, cancelling upstream after=" ++ after.render
  | .retrying attempt times delay failure =>
    "DEBUG retrying effect attempt=" ++ toString attempt ++ " times=" ++ toString times ++
      " delay=" ++ delay.render ++ " error=" ++ failure
  | .finalizerFailed failure finalizer =>
    "WARN finalizer failed after upstream failure, keeping upstream failure error=" ++ failure ++
      " finalizer_error=" ++ finalizer
  | .branchFailed index failure =>
    "TRACE all: branch failed index=" ++ toString index ++ " error=" ++ failure
  | .branchSucceeded index =>
    "TRACE any: branch succeeded, cancelling the rest index=" ++ toString index
  | .spanOpened name attributes =>
    "SPAN weft.span span.name=" ++ name ++ " attributes=" ++
      delimited "[" "]" (attributes.map renderPair)
  | .spanClosed outcome => "RECORD outcome=" ++ outcome

end Event

end ScopedEffects
