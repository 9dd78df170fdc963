import SentinelQuoting.Protection.Piece
import SentinelQuoting.Separators.Basic

/-! # The selective encoding

Text that is still to be split and matched keeps its characters open to that, except for those that
would be misread on the way: the two sentinels, and the space when there are no separators, because
fields joined without separators are later split at spaces. Encoding puts a mark in front of these.

Whether a sentinel that is itself a separator needs a mark depends on the place. In an expansion it
stays bare, for splitting must see it. On the right of an assignment nothing is split, and a bare
sentinel would be lost when the text is decoded.

Decoding removes the marks that protect such characters, and no other mark. -/

namespace SentinelQuoting

/-- Where a value is put. -/
inductive Place
  /-- Into a word that is still to be split. -/
  | expansion
  /-- Onto the right of an assignment, which is never split. -/
  | assignment
  deriving DecidableEq

namespace Selective
set_option autoImplicit false

/-- Whether a character that starts with `b` can be misread on the way. -/
def isEndangered (ifs : Separators) (b : UInt8) : Bool :=
  isSentinel b || (ifs.isEmpty && b == space)

/-- Whether the encoder puts a mark in front of a character that starts with `b`. -/
def protects (place : Place) (ifs : Separators) (b : UInt8) : Bool :=
  match place with
  | .expansion => isEndangered ifs b && !ifs.contains b
  | .assignment => isEndangered ifs b

/-- The encoding of a list of characters. -/
def encodeIn (place : Place) (ifs : Separators) (cs : List Character) : Bytes :=
  cs.flatMap fun c => if protects place ifs c.lead then escapeMark :: c.bytes else c.bytes

/-- The text with a mark in front of every character that needs one in this place. -/
def encode (place : Place) (ifs : Separators) (s : Bytes) : Bytes :=
  encodeIn place ifs (characters s)

/-- The text without the marks that protect a sentinel or, when there are no separators, a space.
A text that holds no mark is left as it is. -/
def decode (ifs : Separators) (s : Bytes) : Bytes :=
  if s.contains escapeMark then releaseIn (isEndangered ifs) (characters s) else s

/-! ## Equations -/

theorem protects_assignment (ifs : Separators) {b : UInt8} (hb : isSentinel b = true) :
    protects .assignment ifs b = true := by
  rw [protects, isEndangered, hb, Bool.true_or]

theorem protects_expansion {ifs : Separators} {b : UInt8} (hb : isSentinel b = true)
    (h : ifs.contains b = false) : protects .expansion ifs b = true := by
  rw [protects, isEndangered, hb, h]
  rfl

/-- Only sentinels can be separators and endangered at once: a space is endangered where nothing
separates. -/
theorem protects_expansion_eq (ifs : Separators) (b : UInt8) :
    protects .expansion ifs b =
      ((b == escapeMark && !ifs.contains escapeMark) || (b == nullMark && !ifs.contains nullMark) ||
        (ifs.isEmpty && b == space)) := by
  rw [protects, isEndangered, isSentinel]
  by_cases hmark : b = escapeMark
  · subst hmark
    simp [escapeMark, nullMark, space]
  by_cases hnull : b = nullMark
  · subst hnull
    simp [escapeMark, nullMark, space]
  · rw [beq_false_of_ne hmark, beq_false_of_ne hnull]
    cases hempty : ifs.isEmpty with
    | false => rfl
    | true => rw [ifs.contains_of_isEmpty hempty, Bool.not_false, Bool.and_true]; rfl

end Selective
end SentinelQuoting
