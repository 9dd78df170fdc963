/-! # Flags of a word

Flags are bits of a natural number of any size. Two of them have a meaning here; the others belong
to the callers, and every pass leaves them alone.

Negative integers, which would be the sets of all but finitely many flags, are left out: no pass
makes one out of anything else. -/

namespace SentinelQuoting
set_option autoImplicit false

/-- A set of flags, one per bit. -/
structure Flags where
  bits : Nat
  deriving DecidableEq

namespace Flags

/-- No flag. -/
def none : Flags := ⟨0⟩

/-- The word has been quoted. -/
def quoted : Flags := ⟨1⟩

/-- The text of the word is exactly the quoted empty string. -/
def hasQuotedNull : Flags := ⟨2⟩

/-- Whether any flag of `mask` is set. -/
def meets (f mask : Flags) : Bool := f.bits &&& mask.bits != 0

/-- Set every flag of `mask`. -/
def set (f mask : Flags) : Flags := ⟨f.bits ||| mask.bits⟩

/-- Clear every flag of `mask`. -/
def clear (f mask : Flags) : Flags := ⟨f.bits ^^^ (f.bits &&& mask.bits)⟩

/-- Whether the flag number `i` is set. -/
def test (f : Flags) (i : Nat) : Bool := f.bits.testBit i

@[simp] theorem test_set (f mask : Flags) (i : Nat) :
    (f.set mask).test i = (f.test i || mask.test i) := by
  simp [set, test]

@[simp] theorem test_clear (f mask : Flags) (i : Nat) :
    (f.clear mask).test i = (f.test i && !mask.test i) := by
  cases hf : f.bits.testBit i <;> cases hm : mask.bits.testBit i <;>
    simp [clear, test, hf, hm]

/-- Flags are the same when every single one is. -/
theorem ext_test {f g : Flags} (h : ∀ i, f.test i = g.test i) : f = g := by
  cases f
  cases g
  exact congrArg Flags.mk (Nat.eq_of_testBit_eq h)

end Flags
end SentinelQuoting
