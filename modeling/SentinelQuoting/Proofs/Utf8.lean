import Mathlib.Tactic.SplitIfs
import SentinelQuoting.Proofs.Reading

/-! # The characters of UTF-8 text

A sequence is well-formed when it is as long as its lead announces and each byte lies in its range.
The encoding of every code point is such a sequence (`wellFormed_ofChar`), and a well-formed
sequence is one character whatever follows it. So the characters of UTF-8 text are the encodings of
its code points (`characters_utf8`), and a code point below 0x80 can be told by the first byte. -/
namespace SentinelQuoting
set_option autoImplicit false

/-! ## Ranges as numbers -/

theorem ofNat_eq_iff {n : Nat} (hn : n < 256) (b : UInt8) : UInt8.ofNat n = b ↔ n = b.toNat := by
  rw [← UInt8.toNat_inj, UInt8.toNat_ofNat', Nat.mod_eq_of_lt hn]

theorem leadLength_ofNat {n : Nat} (hn : n < 256) :
    leadLength (UInt8.ofNat n) =
      if n ≤ 0x7f then 1
      else if 0xc2 ≤ n ∧ n ≤ 0xdf then 2
      else if 0xe0 ≤ n ∧ n ≤ 0xef then 3
      else if 0xf0 ≤ n ∧ n ≤ 0xf4 then 4
      else 0 := by
  simp only [leadLength, UInt8.le_iff_toNat_le, UInt8.toNat_ofNat', Nat.mod_eq_of_lt hn]
  rfl

theorem allowsSecond_ofNat_iff {m n : Nat} (hm : m < 256) (hn : n < 256) :
    allowsSecond (UInt8.ofNat m) (UInt8.ofNat n) = true ↔
      0x80 ≤ n ∧ n ≤ 0xbf ∧ (m = 0xe0 → 0xa0 ≤ n) ∧ (m = 0xed → n ≤ 0x9f) ∧
        (m = 0xf0 → 0x90 ≤ n) ∧ (m = 0xf4 → n ≤ 0x8f) := by
  simp only [allowsSecond, Bool.and_eq_true, decide_eq_true_eq, UInt8.le_iff_toNat_le,
    UInt8.toNat_ofNat', Nat.mod_eq_of_lt hn, secondRange, ofNat_eq_iff hm, UInt8.reduceToNat]
  split_ifs
  all_goals
    simp only [UInt8.reduceToNat]
    omega

theorem isContinuation_ofNat (n : Nat) : isContinuation (UInt8.ofNat (n % 0x40 + 0x80)) = true := by
  have hn : n % 0x40 + 0x80 < 256 := by omega
  simp only [isContinuation, Bool.and_eq_true, decide_eq_true_eq, UInt8.le_iff_toNat_le,
    UInt8.toNat_ofNat', Nat.mod_eq_of_lt hn, UInt8.reduceToNat]
  omega

/-! ## Well-formed sequences -/

/-- The character is as long as its lead announces, and every byte lies in its range. -/
structure Character.WellFormed (c : Character) : Prop where
  announced : leadLength c.lead = c.tail.length + 1
  completes : completes c.lead c.tail = true

section WellFormed
variable {c : Character} (h : c.WellFormed)
include h

theorem Character.WellFormed.tailLength_eq (rest : Bytes) :
    tailLength c.lead (c.tail ++ rest) = c.tail.length := by
  unfold tailLength
  rw [h.announced, Nat.add_sub_cancel, List.take_left, if_pos ⟨rfl, h.completes⟩]

theorem Character.WellFormed.characters_append (rest : Bytes) :
    characters (c.bytes ++ rest) = c :: characters rest := by
  rw [bytes, List.cons_append, characters_cons, h.tailLength_eq, List.take_left, List.drop_left]

theorem Character.WellFormed.sound : c.Sound := by
  apply sound_of_mem_characters (s := c.bytes ++ [])
  rw [h.characters_append]
  exact List.mem_cons_self

end WellFormed

theorem wellFormed_of_second {m n : Nat} (others : List Nat)
    (hlead : leadLength (UInt8.ofNat m) = others.length + 2)
    (hsecond : allowsSecond (UInt8.ofNat m) (UInt8.ofNat n) = true) :
    Character.WellFormed ⟨UInt8.ofNat m,
      UInt8.ofNat n :: others.map fun k => UInt8.ofNat (k % 0x40 + 0x80)⟩ where
  announced := by rw [hlead, List.length_cons, List.length_map]
  completes := by
    rw [completes, hsecond, Bool.true_and, List.all_map, List.all_eq_true]
    exact fun k _ => isContinuation_ofNat k

/-! ## Code points -/

/-- The character that a code point is written as. -/
def Character.ofChar (c : Char) : Character :=
  ⟨(String.utf8EncodeChar c).headD 0, (String.utf8EncodeChar c).tail⟩

theorem bytes_ofChar (c : Char) : (Character.ofChar c).bytes = String.utf8EncodeChar c := by
  unfold Character.ofChar Character.bytes
  cases h : String.utf8EncodeChar c with
  | cons lead tail => rfl
  | nil =>
    have hlength := String.length_utf8EncodeChar c
    have hpos := c.utf8Size_pos
    rw [h, List.length_nil] at hlength
    omega

theorem ofChar_of_ascii {c : Char} (h : c.toNat ≤ 0x7f) :
    Character.ofChar c = .single (UInt8.ofNat c.toNat) := by
  have hval : c.val.toNat ≤ 0x7f := h
  unfold Character.ofChar String.utf8EncodeChar
  simp only [hval, if_true]
  rfl

/-- The encoder has one case for each length. In each of the longer ones the bounds of the code point
give the lead and the second byte their ranges, and surrogates are what the lead 0xed leaves out. -/
theorem wellFormed_ofChar (c : Char) : (Character.ofChar c).WellFormed := by
  have hscalar : c.val.toNat < 0xd800 ∨ 0xdfff < c.val.toNat ∧ c.val.toNat < 0x110000 := c.valid
  by_cases h1 : c.val.toNat ≤ 0x7f
  · have hlead : leadLength (UInt8.ofNat c.val.toNat) = 1 := by
      rw [leadLength_ofNat (by omega), if_pos h1]
    rw [ofChar_of_ascii h1]
    exact ⟨hlead, rfl⟩
  unfold Character.ofChar String.utf8EncodeChar
  by_cases h2 : c.val.toNat ≤ 0x7ff
  · simp only [h1, h2, if_true, if_false]
    apply wellFormed_of_second []
    · rw [leadLength_ofNat (by omega), if_neg (by omega), if_pos (by omega)]
      rfl
    · rw [allowsSecond_ofNat_iff (by omega) (by omega)]
      omega
  by_cases h3 : c.val.toNat ≤ 0xffff
  · simp only [h1, h2, h3, if_true, if_false]
    apply wellFormed_of_second [c.val.toNat]
    · rw [leadLength_ofNat (by omega), if_neg (by omega), if_neg (by omega), if_pos (by omega)]
      rfl
    · rw [allowsSecond_ofNat_iff (by omega) (by omega)]
      omega
  · simp only [h1, h2, h3, if_false]
    apply wellFormed_of_second [c.val.toNat / 64, c.val.toNat]
    · rw [leadLength_ofNat (by omega), if_neg (by omega), if_neg (by omega), if_neg (by omega),
        if_pos (by omega)]
      rfl
    · rw [allowsSecond_ofNat_iff (by omega) (by omega)]
      omega

theorem lead_ofChar_high {c : Char} (h : 0x7f < c.toNat) : 0x80 ≤ (Character.ofChar c).lead := by
  apply (wellFormed_ofChar c).sound.lead_high
  intro htail
  have hlength : (Character.ofChar c).bytes.length = c.utf8Size := by
    rw [bytes_ofChar, String.length_utf8EncodeChar]
  rw [Character.bytes, htail, List.length_singleton] at hlength
  have hle := UInt32.le_iff_toNat_le.mp (Char.utf8Size_eq_one_iff.mp hlength.symm)
  have hval : c.val.toNat = c.toNat := rfl
  rw [hval] at hle
  exact absurd hle (by simpa using h)

/-- A code point below 0x80 is told by its first byte. -/
theorem lead_ofChar_eq_iff {d : Char} (hd : d.toNat ≤ 0x7f) (c : Char) :
    (Character.ofChar c).lead = UInt8.ofNat d.toNat ↔ c = d := by
  have hbyte : (UInt8.ofNat d.toNat).toNat = d.toNat := by
    rw [UInt8.toNat_ofNat']
    exact Nat.mod_eq_of_lt (by omega)
  by_cases hc : c.toNat ≤ 0x7f
  · have hlead : (Character.ofChar c).lead = UInt8.ofNat c.toNat := by
      rw [ofChar_of_ascii hc]
      rfl
    rw [hlead, ofNat_eq_iff (by omega), hbyte, Char.toNat_inj]
  · have hhigh := UInt8.le_iff_toNat_le.mp (lead_ofChar_high (Nat.lt_of_not_le hc))
    constructor
    · intro he
      rw [he, hbyte] at hhigh
      exact absurd hhigh (by simpa using Nat.lt_succ_of_le hd)
    · rintro rfl
      exact absurd hd hc

/-! ## Texts -/

/-- The UTF-8 encoding of code points. -/
def utf8 (cs : List Char) : Bytes := cs.flatMap String.utf8EncodeChar

@[simp] theorem utf8_nil : utf8 [] = [] := rfl

theorem utf8_cons (c : Char) (cs : List Char) : utf8 (c :: cs) = String.utf8EncodeChar c ++ utf8 cs :=
  List.flatMap_cons

theorem utf8_singleton (c : Char) : utf8 [c] = (Character.ofChar c).bytes := by
  rw [utf8_cons, utf8_nil, List.append_nil, bytes_ofChar]

theorem utf8_append (cs ds : List Char) : utf8 (cs ++ ds) = utf8 cs ++ utf8 ds :=
  List.flatMap_append

theorem utf8_flatMap (f : Char → List Char) (cs : List Char) :
    utf8 (cs.flatMap f) = cs.flatMap fun c => utf8 (f c) := List.flatMap_assoc

theorem toByteArray_utf8 (cs : List Char) : (utf8 cs).toByteArray = cs.utf8Encode := rfl

theorem utf8_inj {cs ds : List Char} : utf8 cs = utf8 ds ↔ cs = ds := by
  constructor
  · intro h
    have hdecode : some cs.toArray = some ds.toArray := by
      rw [← List.utf8Decode?_utf8Encode, ← List.utf8Decode?_utf8Encode, ← toByteArray_utf8, h,
        toByteArray_utf8]
    exact congrArg Array.toList (Option.some.inj hdecode)
  · exact congrArg utf8

/-- The characters of UTF-8 text are its code points. -/
theorem characters_utf8 (cs : List Char) : characters (utf8 cs) = cs.map Character.ofChar := by
  induction cs with
  | nil => rfl
  | cons c cs ih =>
    rw [utf8_cons, ← bytes_ofChar, (wellFormed_ofChar c).characters_append, ih, List.map_cons]

end SentinelQuoting
