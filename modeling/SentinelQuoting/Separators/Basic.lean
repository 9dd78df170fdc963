import SentinelQuoting.Text.ByteLiteral

/-! # Separators

The separators are the bytes at which unprotected text is split into fields. They are a set of
bytes, not of characters: a byte of a longer character can be one. An unset value means space, tab
and newline. An empty value means no splitting at all, which is a different thing. -/

namespace SentinelQuoting
set_option autoImplicit false

/-- The separators in force, as the bytes of the value that gave them. Repeated bytes are kept. -/
structure Separators where
  bytes : Bytes
  deriving DecidableEq

namespace Separators

/-- Space, tab and newline, which separate when nothing else is said. -/
def standard : Separators := ⟨[0x20, 0x09, 0x0a]⟩

/-- The separators that a value stands for; without a value, the standard ones. -/
def ofValue : Option Bytes → Separators
  | none => standard
  | some value => ⟨value⟩

/-- Whether there is no separator, so that nothing is split. -/
def isEmpty (ifs : Separators) : Bool := ifs.bytes.isEmpty

/-- Whether a byte is a separator. -/
def contains (ifs : Separators) (b : UInt8) : Bool := ifs.bytes.contains b

/-- Whether a code is that of a separator. A code outside 0 to 255 is that of none. -/
def containsCode (ifs : Separators) (code : Int) : Bool :=
  ifs.bytes.any fun b => (b.toNat : Int) == code

/-- Every byte, from the least to the greatest. -/
def allBytes : Bytes := (List.range 256).map UInt8.ofNat

/-- The separators in increasing order, each once. -/
def members (ifs : Separators) : Bytes := allBytes.filter ifs.contains

/-- The separators of two values together. -/
def union (ifs other : Separators) : Separators := ⟨ifs.bytes ++ other.bytes⟩

/-- How a set of separators shows itself in messages. -/
def describe (ifs : Separators) : String :=
  "<SeparatorSet " ++ ByteLiteral.render ifs.bytes ++ ">"

@[simp] theorem contains_iff (ifs : Separators) (b : UInt8) :
    ifs.contains b = true ↔ b ∈ ifs.bytes := by
  simp [contains]

@[simp] theorem isEmpty_iff (ifs : Separators) : ifs.isEmpty = true ↔ ifs.bytes = [] := by
  simp [isEmpty]

@[simp] theorem contains_union (ifs other : Separators) (b : UInt8) :
    (ifs.union other).contains b = (ifs.contains b || other.contains b) := by
  simp [contains, union]

/-- Asking by code is asking by byte. -/
theorem containsCode_toNat (ifs : Separators) (b : UInt8) :
    ifs.containsCode b.toNat = ifs.contains b := by
  have h (x : UInt8) : ((x.toNat : Int) == (b.toNat : Int)) = (b == x) := by
    rw [Bool.eq_iff_iff, beq_iff_eq, beq_iff_eq, Int.ofNat_inj, UInt8.toNat_inj]
    exact eq_comm
  simp only [containsCode, contains, h, List.contains_eq_any_beq]

/-- Where nothing separates, no byte is a separator. -/
theorem contains_of_isEmpty {ifs : Separators} (h : ifs.isEmpty = true) (b : UInt8) :
    ifs.contains b = false := by
  simp [contains, (isEmpty_iff ifs).1 h]

theorem ne_of_contains {ifs : Separators} {b c : UInt8} (hb : ifs.contains b = true)
    (hc : ifs.contains c = false) : b ≠ c := by
  rintro rfl
  rw [hc] at hb
  exact absurd hb (by decide)

end Separators
end SentinelQuoting
