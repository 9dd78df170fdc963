import SentinelQuoting.Character.Scan
import SentinelQuoting.Sentinel

/-! # Reading protection

Protected text is read from left to right. An escape mark that is not itself protected protects the
character after it, whatever that is; one at the very end protects nothing. So a text is a list of
*pieces*: bare characters, guarded characters with their mark, and at most one dangling mark. What
a pass does to protection it says piece by piece.

The functions here work on a list of characters, so that a text can be read by characters
(`characters`) as well as by single bytes (`octets`). -/

namespace SentinelQuoting
set_option autoImplicit false

namespace Character

/-- Whether a character is the escape mark. -/
def isEscape (c : Character) : Bool := c.lead == escapeMark

/-- Whether a character is the null mark. -/
def isNull (c : Character) : Bool := c.lead == nullMark

end Character

/-- The smallest stretches of a text that protection treats as one. -/
inductive Piece
  /-- A character that nothing protects. -/
  | bare (c : Character)
  /-- An escape mark and the character that it protects. -/
  | guarded (c : Character)
  /-- An escape mark at the end, which protects nothing. -/
  | dangling
  deriving DecidableEq

namespace Piece

/-- The bytes that a piece is written with. -/
def bytes : Piece → Bytes
  | .bare c => c.bytes
  | .guarded c => escapeMark :: c.bytes
  | .dangling => [escapeMark]

/-- The bytes that a piece means: the character without its mark. -/
def content : Piece → Bytes
  | .bare c => c.bytes
  | .guarded c => c.bytes
  | .dangling => []

/-- A piece without its mark where the protected character starts with a byte that is to be
released. Other marks stay, a dangling one too. -/
def release (released : UInt8 → Bool) : Piece → Bytes
  | .bare c => c.bytes
  | .guarded c => if released c.lead then c.bytes else escapeMark :: c.bytes
  | .dangling => [escapeMark]

/-- A piece, unless it is a null mark that nothing protects. -/
def withoutNull : Piece → Bytes
  | .bare c => if c.isNull then [] else c.bytes
  | .guarded c => escapeMark :: c.bytes
  | .dangling => [escapeMark]

end Piece

/-- The pieces of a list of characters. -/
def pieces : List Character → List Piece
  | [] => []
  | [c] => if c.isEscape then [.dangling] else [.bare c]
  | c :: d :: rest =>
    if c.isEscape then .guarded d :: pieces rest else .bare c :: pieces (d :: rest)

/-- The content of a text: every mark that is not itself protected is gone. -/
def contentOf (cs : List Character) : Bytes := (pieces cs).flatMap Piece.content

/-- A text without the marks that protect what is to be released. -/
def releaseIn (released : UInt8 → Bool) (cs : List Character) : Bytes :=
  (pieces cs).flatMap (Piece.release released)

/-- A text without the null marks that nothing protects. -/
def dropNullsIn (cs : List Character) : Bytes := (pieces cs).flatMap Piece.withoutNull

/-! ## Equations -/

@[simp] theorem pieces_nil : pieces [] = [] := rfl

theorem pieces_bare {c : Character} (h : c.isEscape = false) (rest : List Character) :
    pieces (c :: rest) = .bare c :: pieces rest := by
  cases rest <;> simp [pieces, h]

theorem pieces_guarded {c : Character} (h : c.isEscape = true) (d : Character)
    (rest : List Character) : pieces (c :: d :: rest) = .guarded d :: pieces rest := by
  simp [pieces, h]

theorem pieces_dangling {c : Character} (h : c.isEscape = true) : pieces [c] = [.dangling] := by
  simp [pieces, h]

end SentinelQuoting
