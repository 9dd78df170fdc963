import SentinelQuoting.Protection.Piece

/-! # Removing the null marks

When every substitution is done, the empty strings inside a word have served their purpose, and
their null marks have to go. A protected null mark is a character of the text and stays. This is
the plain removal, which reads a text and writes another; the one that works inside a buffer is
`Compaction`. -/

namespace SentinelQuoting
set_option autoImplicit false

/-- A text without its unprotected null marks. -/
def dropNulls (s : Bytes) : Bytes := dropNullsIn (characters s)

end SentinelQuoting
