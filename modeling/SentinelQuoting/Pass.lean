import SentinelQuoting.Encoding.Full
import SentinelQuoting.Encoding.Selective
import SentinelQuoting.NullMark.Compaction
import SentinelQuoting.Protection.Release

/-! # Passes over one text

A *pass* is any of the steps that change the protection of a text. Passes can be chained. Two of
them are also made inside a buffer, which only a growable value allows. -/

namespace SentinelQuoting
set_option autoImplicit false

/-- The steps that change the protection of a text. -/
inductive Pass
  /-- Encode selectively, for this place. -/
  | escape (place : Place)
  /-- Decode the selective encoding. -/
  | unescape
  /-- Encode fully. -/
  | encode
  /-- Decode the full encoding, without a report. -/
  | decode
  /-- Release the separators. -/
  | releaseSeparators
  /-- Remove the null marks. -/
  | dropNulls
  deriving DecidableEq

namespace Pass

/-- The text after a pass. Passes that do not depend on the separators ignore them. -/
def apply (pass : Pass) (ifs : Separators) (s : Bytes) : Bytes :=
  match pass with
  | .escape place => Selective.encode place ifs s
  | .unescape => Selective.decode ifs s
  | .encode => Full.encode s
  | .decode => Full.decode s
  | .releaseSeparators => SentinelQuoting.releaseSeparators ifs s
  | .dropNulls => compact s

/-- The texts after each pass of a chain, in order. -/
def chain (s : Bytes) : List (Pass × Separators) → List Bytes
  | [] => []
  | (pass, ifs) :: rest => pass.apply ifs s :: chain (pass.apply ifs s) rest

end Pass

namespace Stored

/-- Make a pass inside the buffer that holds the text. -/
def applyInPlace (pass : Pass) (ifs : Separators) (s : Stored) : Except Fault Stored :=
  match s.storage with
  | .fixed => .error (.immutable s.bytes)
  | .growable => .ok { s with bytes := pass.apply ifs s.bytes }

end Stored
end SentinelQuoting
