import SentinelQuoting.Bytes

/-! # Byte strings as printable literals

Messages show a byte string as a literal in ASCII: a `b`, a quote, the bytes, and the same quote.
Printable bytes stand for themselves, the rest are escaped. The quote is the single one unless that
would force an escape that the double one avoids. -/

namespace SentinelQuoting.ByteLiteral
set_option autoImplicit false

/-- The single quote, the usual delimiter of a literal. -/
def singleQuote : UInt8 := 0x27

/-- The double quote. -/
def doubleQuote : UInt8 := 0x22

/-- The delimiter of the literal of `s`: the double quote when `s` holds single quotes and no
double ones. -/
def delimiter (s : Bytes) : UInt8 :=
  if s.contains singleQuote && !s.contains doubleQuote then doubleQuote else singleQuote

/-- The character with the code `b`. -/
def character (b : UInt8) : Char := Char.ofNat b.toNat

/-- One byte inside a literal that ends at `quote`. The double quote is never escaped, since a
literal that ends at one contains none. -/
def item (quote b : UInt8) : List Char :=
  if b = 0x09 then ['\\', 't']
  else if b = 0x0a then ['\\', 'n']
  else if b = 0x0d then ['\\', 'r']
  else if b = 0x5c then ['\\', '\\']
  else if b = singleQuote ∧ quote = singleQuote then ['\\', character singleQuote]
  else if 0x20 ≤ b ∧ b ≤ 0x7e then [character b]
  else ['\\', 'x', Nat.digitChar (b.toNat / 16), Nat.digitChar (b.toNat % 16)]

/-- The literal of a byte string. -/
def render (s : Bytes) : String :=
  let quote := delimiter s
  String.ofList ('b' :: character quote :: s.flatMap (item quote) ++ [character quote])

end SentinelQuoting.ByteLiteral
