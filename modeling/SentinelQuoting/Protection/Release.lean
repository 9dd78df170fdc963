import SentinelQuoting.Protection.Piece
import SentinelQuoting.Separators.Basic

/-! # Releasing the separators

Separators are protected so that splitting passes them over. Once it is settled that no splitting
takes place, the marks in front of separators have to go. A mark in front of anything else still
protects it from a later pass, and stays. -/

namespace SentinelQuoting
set_option autoImplicit false

/-- A text without the marks in front of separators. A separator is a byte, so what counts is the
first byte of the protected character. -/
def releaseSeparators (ifs : Separators) (s : Bytes) : Bytes :=
  releaseIn ifs.contains (characters s)

end SentinelQuoting
