import SentinelQuoting.Pass
import SentinelQuoting.Word.Flags

/-! # Words

A word is a text with flags. A pass over a word replaces the text, and keeps the flag
`hasQuotedNull` true to its name: set, it says that the text is exactly the quoted empty string.
Each pass has its own reason to believe so. -/

namespace SentinelQuoting
set_option autoImplicit false

/-- A text and its flags. -/
structure Word where
  text : Bytes
  flags : Flags
  deriving DecidableEq

namespace Word

/-! ## Flags -/

/-- Whether the word carries any flag of `mask`. -/
def hasFlag (w : Word) (mask : Flags) : Bool := w.flags.meets mask

/-- The word with the flags of `mask` set. -/
def setFlag (w : Word) (mask : Flags) : Word := { w with flags := w.flags.set mask }

/-- The word with the flags of `mask` cleared. -/
def clearFlag (w : Word) (mask : Flags) : Word := { w with flags := w.flags.clear mask }

/-- The word with another text and the same flags. -/
def withText (w : Word) (text : Bytes) : Word := { w with text }

/-- Clear `hasQuotedNull` when the text is something else. -/
def dropStaleNull (w : Word) : Word :=
  if isQuotedNull w.text then w else w.clearFlag .hasQuotedNull

/-! ## Passes -/

/-- Encode fully. Only an empty text becomes the quoted empty string; a null mark that was there
before is now protected. -/
def encode (w : Word) : Word :=
  let encoded := w.withText (Full.encode w.text)
  let marked :=
    if w.text.isEmpty then encoded.setFlag .hasQuotedNull else encoded.clearFlag .hasQuotedNull
  marked.setFlag .quoted

/-- The word with its text decoded. The flag of the quoted empty string goes with that text. -/
def withDecoded (w : Word) (text : Bytes) : Word :=
  let decoded := w.withText text
  if isQuotedNull w.text then decoded.clearFlag .hasQuotedNull else decoded

/-- Decode the full encoding, and report nothing. -/
def decode (w : Word) : Word := w.withDecoded (Full.decode w.text)

/-- Decode the full encoding and report. When the report fails there is no decoded word. -/
def decodeReporting (w : Word) : Reporting Word := do
  return w.withDecoded (← Full.decodeReporting w.text)

/-- Encode selectively, for an expansion. -/
def escape (ifs : Separators) (w : Word) : Word :=
  (w.withText (Selective.encode .expansion ifs w.text)).dropStaleNull

/-- Decode the selective encoding. -/
def unescape (ifs : Separators) (w : Word) : Word :=
  (w.withText (Selective.decode ifs w.text)).dropStaleNull

/-- Remove the null marks. No word claims a quoted empty string after that. -/
def dropNulls (w : Word) : Word :=
  (w.withText (compact w.text)).clearFlag .hasQuotedNull

/-- Make a pass over the text alone. -/
def apply (pass : Pass) (ifs : Separators) (w : Word) : Word :=
  w.withText (pass.apply ifs w.text)

/-- How a word shows itself in messages. -/
def describe (w : Word) : String :=
  "<Word " ++ ByteLiteral.render w.text ++ " flags=" ++ toString w.flags.bits ++ ">"

end Word
end SentinelQuoting
