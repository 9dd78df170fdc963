import SentinelQuoting.Fault

/-! # The width of a character

A character of a byte string is a complete, well-formed UTF-8 sequence, or else a single byte. The
lead byte announces a length; the bytes after it complete the sequence when there are enough of
them, the second lies in the range that its lead allows (which rules out overlong forms, surrogates
and code points above U+10FFFF), and the later ones are continuation bytes. No byte string is
refused: a byte that starts no complete sequence is a character of width one.

Main facts: `width_pos` and `width_le_length` say that a character is not empty and ends inside its
byte string. -/

namespace SentinelQuoting
set_option autoImplicit false

/-! ## Ranges -/

/-- The length that a lead byte announces, or 0 for a byte that leads no sequence: a continuation
byte, an overlong lead, or a byte beyond the last code point. -/
def leadLength (b : UInt8) : Nat :=
  if b ≤ 0x7f then 1
  else if 0xc2 ≤ b ∧ b ≤ 0xdf then 2
  else if 0xe0 ≤ b ∧ b ≤ 0xef then 3
  else if 0xf0 ≤ b ∧ b ≤ 0xf4 then 4
  else 0

/-- The length announced by a code of any size. A code that is no byte leads no sequence. -/
def announcedLength (code : Int) : Nat :=
  if 0 ≤ code ∧ code < 256 then leadLength (UInt8.ofNat code.toNat) else 0

/-- The least and the greatest byte that may follow a lead. -/
def secondRange (lead : UInt8) : UInt8 × UInt8 :=
  if lead = 0xe0 then (0xa0, 0xbf)
  else if lead = 0xed then (0x80, 0x9f)
  else if lead = 0xf0 then (0x90, 0xbf)
  else if lead = 0xf4 then (0x80, 0x8f)
  else (0x80, 0xbf)

/-- Whether `b` may be the second byte after `lead`. -/
def allowsSecond (lead b : UInt8) : Bool :=
  (secondRange lead).1 ≤ b && b ≤ (secondRange lead).2

/-- Whether `b` continues a sequence after its second byte. -/
def isContinuation (b : UInt8) : Bool := 0x80 ≤ b && b ≤ 0xbf

/-! ## Width -/

/-- Whether these bytes, as many as the lead announces, complete its sequence. -/
def completes (lead : UInt8) : Bytes → Bool
  | [] => true
  | second :: others => allowsSecond lead second && others.all isContinuation

/-- How many bytes of `rest` belong to the character that starts with `lead`: all that the lead
announces, or none. -/
def tailLength (lead : UInt8) (rest : Bytes) : Nat :=
  let tail := rest.take (leadLength lead - 1)
  if tail.length = leadLength lead - 1 ∧ completes lead tail then tail.length else 0

/-- The width of the character at the start of a byte string; nothing has width 0. -/
def width : Bytes → Nat
  | [] => 0
  | lead :: rest => tailLength lead rest + 1

/-- The width of the character that starts at position `i`. -/
def widthAt (s : Bytes) (i : Nat) : Nat := width (s.drop i)

theorem tailLength_le_length (lead : UInt8) (rest : Bytes) :
    tailLength lead rest ≤ rest.length := by
  simp only [tailLength]
  split
  · simp only [List.length_take]; omega
  · exact Nat.zero_le _

theorem leadLength_le_four (b : UInt8) : leadLength b ≤ 4 := by
  unfold leadLength
  repeat' split
  all_goals decide

theorem tailLength_le_three (lead : UInt8) (rest : Bytes) : tailLength lead rest ≤ 3 := by
  have h := leadLength_le_four lead
  simp only [tailLength]
  split
  · simp only [List.length_take]; omega
  · exact Nat.zero_le 3

/-- A character is never empty. -/
theorem width_pos {s : Bytes} (h : s ≠ []) : 0 < width s := by
  cases s with
  | nil => exact absurd rfl h
  | cons lead rest => exact Nat.succ_pos _

/-- A character ends inside its byte string. -/
theorem width_le_length (s : Bytes) : width s ≤ s.length := by
  cases s with
  | nil => exact Nat.le_refl 0
  | cons lead rest => exact Nat.succ_le_succ (tailLength_le_length lead rest)

theorem widthAt_pos {s : Bytes} {i : Nat} (h : i < s.length) : 0 < widthAt s i :=
  width_pos (by simpa using h)

theorem add_widthAt_le_length {s : Bytes} {i : Nat} (h : i ≤ s.length) :
    i + widthAt s i ≤ s.length := by
  have hw := width_le_length (s.drop i)
  simp only [List.length_drop] at hw
  simp only [widthAt]
  omega

/-- A byte that announces no more than itself is a character of its own, whatever follows. -/
theorem tailLength_eq_zero {lead : UInt8} (h : leadLength lead ≤ 1) (rest : Bytes) :
    tailLength lead rest = 0 := by
  have h0 : leadLength lead - 1 = 0 := by omega
  simp [tailLength, h0]

/-! ## Checked positions -/

namespace Stored

/-- The width of the character at position `i`, which has to lie inside the byte string. -/
def width? (s : Stored) (i : Nat) : Except Fault Nat :=
  if i < s.bytes.length then .ok (widthAt s.bytes i) else .error (.outOfRange s.storage)

/-- The position after the character at position `i`. -/
def next? (s : Stored) (i : Nat) : Except Fault Nat :=
  (s.width? i).map (i + ·)

end Stored
end SentinelQuoting
