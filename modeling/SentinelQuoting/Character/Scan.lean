import SentinelQuoting.Character.Width

/-! # Splitting a byte string into characters

`characters` cuts a byte string into its characters from left to right, and `octets` into single
bytes. Both give back the byte string when the parts are joined again, so a rule for characters can
be compared with the same rule for bytes. `stops` are the positions at which the characters end. -/

namespace SentinelQuoting
set_option autoImplicit false

/-- One character of a byte string: its first byte and the bytes that belong to it. -/
structure Character where
  lead : UInt8
  tail : Bytes
  deriving DecidableEq

namespace Character

/-- The bytes of a character. -/
def bytes (c : Character) : Bytes := c.lead :: c.tail

/-- The number of bytes of a character. -/
def size (c : Character) : Nat := c.tail.length + 1

/-- A byte that stands alone. -/
def single (b : UInt8) : Character := ⟨b, []⟩

end Character

/-! ## Characters -/

/-- The characters after the next `skip` bytes, which belong to a character already seen. -/
def charactersAfter : Nat → Bytes → List Character
  | _, [] => []
  | skip + 1, _ :: rest => charactersAfter skip rest
  | 0, lead :: rest =>
    ⟨lead, rest.take (tailLength lead rest)⟩ :: charactersAfter (tailLength lead rest) rest

/-- The characters of a byte string, in order. -/
def characters (s : Bytes) : List Character := charactersAfter 0 s

theorem charactersAfter_eq (skip : Nat) (s : Bytes) :
    charactersAfter skip s = characters (s.drop skip) := by
  induction s generalizing skip with
  | nil => cases skip <;> rfl
  | cons lead rest ih =>
    cases skip with
    | zero => rfl
    | succ skip => exact ih skip

@[simp] theorem characters_nil : characters [] = [] := rfl

/-- The first character takes its tail from the rest, and the scan goes on behind it. -/
theorem characters_cons (lead : UInt8) (rest : Bytes) :
    characters (lead :: rest) =
      ⟨lead, rest.take (tailLength lead rest)⟩ ::
        characters (rest.drop (tailLength lead rest)) := by
  rw [← charactersAfter_eq]
  rfl

/-- The bytes that are skipped are left out, and none after them. -/
theorem flatMap_bytes_charactersAfter (skip : Nat) (s : Bytes) :
    (charactersAfter skip s).flatMap Character.bytes = s.drop skip := by
  induction s generalizing skip with
  | nil => cases skip <;> rfl
  | cons lead rest ih =>
    cases skip with
    | zero =>
      simp only [charactersAfter, List.flatMap_cons, ih, Character.bytes, List.cons_append,
        List.take_append_drop, List.drop_zero]
    | succ skip => exact ih skip

/-- Splitting loses nothing. -/
@[simp] theorem flatMap_bytes_characters (s : Bytes) :
    (characters s).flatMap Character.bytes = s :=
  flatMap_bytes_charactersAfter 0 s

/-! ## Single bytes -/

/-- The bytes of a byte string, each a character of its own. -/
def octets (s : Bytes) : List Character := s.map Character.single

@[simp] theorem flatMap_bytes_octets (s : Bytes) : (octets s).flatMap Character.bytes = s := by
  induction s with
  | nil => rfl
  | cons b rest ih => exact congrArg (b :: ·) ih

/-! ## Positions -/

/-- The positions at which the given characters end, when the first starts at `start`. -/
def endsFrom (start : Nat) : List Character → List Nat
  | [] => []
  | c :: rest => (start + c.size) :: endsFrom (start + c.size) rest

/-- The positions at which the characters of a byte string end, in order. -/
def stops (s : Bytes) : List Nat := endsFrom 0 (characters s)

/-- The width of the character that would start at each byte, whether or not the scan stops
there. -/
def widths : Bytes → List Nat
  | [] => []
  | b :: rest => width (b :: rest) :: widths rest

end SentinelQuoting
