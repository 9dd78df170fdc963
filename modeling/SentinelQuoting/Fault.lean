import SentinelQuoting.Text.ByteLiteral

/-! # What can go wrong

Quoting itself never fails: every byte string has an encoding, and every byte string can be
decoded. Faults come from the edges: a position outside a byte string, a value that may not be
changed in place, a code that is no byte, an entry that does not exist, and the writer behind the
diagnostics. -/

namespace SentinelQuoting
set_option autoImplicit false

/-- The two calls of a writer that can fail. -/
inductive WriterFault
  | write
  | flush
  deriving DecidableEq

/-- The wording of a writer's failure. -/
def WriterFault.message : WriterFault → String
  | .write => "write failed"
  | .flush => "flush failed"

/-- Every cause of failure. -/
inductive Fault
  /-- A position at or after the end of a byte string held in this way. -/
  | outOfRange (storage : Storage)
  /-- A change in place was asked of this value, which is fixed. -/
  | immutable (value : Bytes)
  /-- A character code outside 0 to 255. -/
  | notAByte (code : Int)
  /-- The number of a word, list, buffer or snapshot that does not exist. -/
  | unknownEntry
  /-- The diagnostic writer failed. -/
  | writer (fault : WriterFault)
  deriving DecidableEq

/-- The wording of a failure. A refused change names the value, and a refused code is named in
decimal. -/
def Fault.message : Fault → String
  | .outOfRange .fixed => "index out of range"
  | .outOfRange .growable => "bytearray index out of range"
  | .immutable value => ByteLiteral.render value
  | .notAByte code => toString code
  | .unknownEntry => "list index out of range"
  | .writer fault => fault.message

end SentinelQuoting
