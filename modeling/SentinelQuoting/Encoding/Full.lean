import SentinelQuoting.Diagnostics.Sink
import SentinelQuoting.Protection.Piece

/-! # The full encoding

Text that has to stay one field whatever comes gets a mark in front of every character. The empty
text becomes the null mark alone, so that it is still there after its word is joined to others.

Decoding removes every mark that is not itself protected. Two whole texts are read differently: the
null mark alone is the empty text, and an escape mark alone is kept. The full encoder writes no such
text as the latter, so decoding it is reported. -/

namespace SentinelQuoting.Full
set_option autoImplicit false

/-- The line that reports a text that is only an escape mark. -/
def bareEscapeWarning : String := "DequoteString: string with bare CTLESC"

/-- The encoding of a list of characters: a mark in front of each. -/
def encodeIn (cs : List Character) : Bytes := cs.flatMap fun c => escapeMark :: c.bytes

/-- The text with a mark in front of every character; the empty text is the null mark. -/
def encode (s : Bytes) : Bytes :=
  if s.isEmpty then quotedNull else encodeIn (characters s)

/-- The text without its unprotected marks, apart from the two texts that are read as a whole. A
text that holds no mark is left as it is. -/
def decode (s : Bytes) : Bytes :=
  if s = bareEscape then s
  else if isQuotedNull s then []
  else if s.contains escapeMark then contentOf (characters s)
  else s

/-- Report a text that is only an escape mark, which `encode` never writes. -/
def report (s : Bytes) : Reporting Unit :=
  if s = bareEscape then writeLine bareEscapeWarning else pure ()

/-- Decode and report. When the report fails there is no result. -/
def decodeReporting (s : Bytes) : Reporting Bytes := do
  report s
  return decode s

/-- The encoding of a single byte. The byte 0 cannot be part of a word, and stands for the empty
text. -/
def encodeByte (b : UInt8) : Bytes :=
  if b = 0 then quotedNull else [escapeMark, b]

/-- The encoding of the byte with this code. -/
def encodeCode (code : Int) : Except Fault Bytes :=
  if 0 ≤ code ∧ code < 256 then .ok (encodeByte (UInt8.ofNat code.toNat))
  else .error (.notAByte code)

end SentinelQuoting.Full
