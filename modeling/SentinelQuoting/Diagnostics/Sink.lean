import SentinelQuoting.Fault

/-! # Diagnostics

Inputs that break the conventions are bugs of whatever produced them, not errors of the user. They
are reported to a *sink*. A sink either drops everything or hands it to a *writer*, which may fail
at any call: a failing call leaves no trace but is counted. What the writer has been asked
successfully is its list of events. A report that goes through changes no result; one that fails
takes the place of the result. -/

namespace SentinelQuoting
set_option autoImplicit false

/-- Something that a writer has done. -/
inductive Event
  | write (text : String)
  | flush
  | isTerminal
  deriving DecidableEq

/-- A writer: whether it is a terminal, which of its calls fail (counted from 1), how many calls
there have been, and what came of them. -/
structure Writer where
  terminal : Bool
  failsWrite : Nat → Bool
  failsFlush : Nat → Bool
  writes : Nat
  flushes : Nat
  events : List Event

/-- Where reports go. -/
inductive Sink
  /-- Reports are dropped. -/
  | silent
  /-- Reports are handed on. -/
  | writer (w : Writer)

/-- What a sink has done so far, in order. -/
def Sink.transcript : Sink → List Event
  | .silent => []
  | .writer w => w.events

/-- A step that may use the sink, and may end in a fault of the writer. What the sink did before
the fault stays done. -/
abbrev Reporting := EStateM WriterFault Sink

namespace Writer

/-- A writer that has not been called. -/
def fresh (terminal : Bool) (failsWrite failsFlush : Nat → Bool) : Writer :=
  ⟨terminal, failsWrite, failsFlush, 0, 0, []⟩

end Writer

/-- Write a text as it is. -/
def write (text : String) : Reporting Unit
  | .silent => .ok () .silent
  | .writer w =>
    let called := { w with writes := w.writes + 1 }
    if w.failsWrite called.writes then .error .write (.writer called)
    else .ok () (.writer { called with events := w.events ++ [.write text] })

/-- Have the writer pass on what it holds. -/
def flush : Reporting Unit
  | .silent => .ok () .silent
  | .writer w =>
    let called := { w with flushes := w.flushes + 1 }
    if w.failsFlush called.flushes then .error .flush (.writer called)
    else .ok () (.writer { called with events := w.events ++ [.flush] })

/-- Write a text and a newline at once, then flush. -/
def writeLine (text : String) : Reporting Unit := do
  write (text ++ "\n")
  flush

/-- Whether reports go to a terminal. A silent sink is none, and asks nobody. -/
def isTerminal : Reporting Bool
  | .silent => .ok false .silent
  | .writer w => .ok w.terminal (.writer { w with events := w.events ++ [.isTerminal] })

end SentinelQuoting
