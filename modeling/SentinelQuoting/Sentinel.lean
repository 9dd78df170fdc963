import SentinelQuoting.Bytes

/-! # The two sentinels

Protection rides along in the text itself. The *escape mark* says that the character after it is
protected from later expansion, and the *null mark* says that an empty string stood here. Both are
ASCII, so neither is ever part of a longer character. -/

namespace SentinelQuoting
set_option autoImplicit false

/-- The byte that protects the character after it. -/
def escapeMark : UInt8 := 0x01

/-- The byte that stands for an empty string. -/
def nullMark : UInt8 := 0x7f

/-- The space, which needs protection when there are no separators at all. -/
def space : UInt8 := 0x20

/-- The empty string after quoting, which is not the same as no word at all. -/
def quotedNull : Bytes := [nullMark]

/-- A text that is only an escape mark, which protects nothing. -/
def bareEscape : Bytes := [escapeMark]

/-- Whether a text is exactly the quoted empty string. -/
def isQuotedNull (s : Bytes) : Bool := s == quotedNull

@[simp] theorem isQuotedNull_iff (s : Bytes) : isQuotedNull s = true ↔ s = quotedNull := by
  simp [isQuotedNull]

/-- Whether a byte is one of the two sentinels. -/
def isSentinel (b : UInt8) : Bool := b == escapeMark || b == nullMark

end SentinelQuoting
