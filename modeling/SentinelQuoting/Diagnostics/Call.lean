import SentinelQuoting.Diagnostics.Sink

/-! # Calls on a sink

A sink can be asked three things. A list of calls is replayed one after the other; a call that
fails does not stop the ones after it. -/

namespace SentinelQuoting
set_option autoImplicit false

/-- Something that a sink can be asked. -/
inductive Call
  | write (text : String)
  | writeLine (text : String)
  | isTerminal
  deriving DecidableEq

/-- What came of a call: its answer, if it has one, or the fault; and what the sink did. -/
structure CallReport where
  outcome : Except WriterFault (Option Bool)
  events : List Event

/-- What a sink did after it had already come so far. -/
def Sink.since (after before : Sink) : List Event :=
  after.transcript.drop before.transcript.length

namespace Call

/-- Make a call. -/
def perform : Call → Reporting (Option Bool)
  | .write text => do
    SentinelQuoting.write text
    return none
  | .writeLine text => do
    SentinelQuoting.writeLine text
    return none
  | .isTerminal => do
    return some (← SentinelQuoting.isTerminal)

/-- Make the calls in order. -/
def replay : List Call → Sink → List CallReport
  | [], _ => []
  | call :: rest, sink =>
    match call.perform sink with
    | .ok answer after => ⟨.ok answer, after.since sink⟩ :: replay rest after
    | .error fault after => ⟨.error fault, after.since sink⟩ :: replay rest after

end Call
end SentinelQuoting
