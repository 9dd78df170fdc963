/-! # Byte strings

Shell words are byte strings, not texts: a word may hold any bytes, whether or not they are
well-formed UTF-8. A byte string is a list of bytes. Where it matters whether a value may be
changed in place, the list travels with its `Storage`. -/

namespace SentinelQuoting
set_option autoImplicit false

/-- Any bytes in any order. -/
abbrev Bytes := List UInt8

/-- Whether a byte string may be changed where it stands. -/
inductive Storage
  /-- The value never changes. -/
  | fixed
  /-- The value is a buffer that can be written to, extended and cut. -/
  | growable
  deriving DecidableEq

/-- A byte string together with the way it is held. -/
structure Stored where
  storage : Storage
  bytes : Bytes
  deriving DecidableEq

end SentinelQuoting
