import SentinelQuoting.Proofs.Utf8

/-! # A longer character is the encoding of a code point

The ranges for the lead, for the second byte and for the later ones are those of the encodings, and
no wider: from a well-formed sequence a code point can be computed that is encoded as this sequence
(`Character.WellFormed.exists_ofChar`). Overlong forms, surrogates and numbers above 0x10ffff are
what the ranges of the second byte leave out. So the width at a position is the length of the
encoding that starts there, and one where none does. -/
namespace SentinelQuoting
set_option autoImplicit false

/-! ## Ranges as numbers -/

theorem exists_ofNat_eq (b : UInt8) : ∃ n < 256, UInt8.ofNat n = b :=
  ⟨b.toNat, b.toNat_lt, UInt8.ofNat_toNat⟩

theorem lead_of_leadLength {m k : Nat} (hm : m < 256) (h : leadLength (UInt8.ofNat m) = k) :
    (k = 1 → m ≤ 0x7f) ∧ (k = 2 → 0xc2 ≤ m ∧ m ≤ 0xdf) ∧ (k = 3 → 0xe0 ≤ m ∧ m ≤ 0xef) ∧
      (k = 4 → 0xf0 ≤ m ∧ m ≤ 0xf4) := by
  rw [leadLength_ofNat hm] at h
  split_ifs at h
  all_goals omega

theorem isContinuation_ofNat_iff {n : Nat} (hn : n < 256) :
    isContinuation (UInt8.ofNat n) = true ↔ 0x80 ≤ n ∧ n ≤ 0xbf := by
  simp only [isContinuation, Bool.and_eq_true, decide_eq_true_eq, UInt8.le_iff_toNat_le,
    UInt8.toNat_ofNat', Nat.mod_eq_of_lt hn, UInt8.reduceToNat]

/-! ## Encodings as numbers -/

theorem exists_char_toNat_eq {n : Nat} (h : n < 0xd800 ∨ 0xdfff < n ∧ n < 0x110000) :
    ∃ d : Char, d.val.toNat = n := by
  have hsize : n < UInt32.size := by
    rw [UInt32.size]
    omega
  have hvalid : (UInt32.ofNatLT n hsize).isValidChar := by
    rw [UInt32.isValidChar, UInt32.toNat_ofNatLT]
    exact h
  exact ⟨⟨UInt32.ofNatLT n hsize, hvalid⟩, UInt32.toNat_ofNatLT⟩

section Encode
variable {m k j i : Nat} (hk : 0x80 ≤ k ∧ k ≤ 0xbf)
include hk

theorem exists_encode_two (hm : 0xc2 ≤ m ∧ m ≤ 0xdf) :
    ∃ d : Char, String.utf8EncodeChar d = [UInt8.ofNat m, UInt8.ofNat k] := by
  obtain ⟨d, hd⟩ := exists_char_toNat_eq (n := (m - 0xc0) * 0x40 + (k - 0x80)) (by omega)
  have hlead : d.val.toNat / 64 % 0x20 + 0xc0 = m := by omega
  have hsecond : d.val.toNat % 0x40 + 0x80 = k := by omega
  refine ⟨d, ?_⟩
  unfold String.utf8EncodeChar
  simp only
  rw [if_neg (by omega), if_pos (by omega), hlead, hsecond]

variable (hj : 0x80 ≤ j ∧ j ≤ 0xbf)
include hj

/-- The bounds of the second byte rule out what two bytes can say, and the surrogates. -/
theorem exists_encode_three (hm : 0xe0 ≤ m ∧ m ≤ 0xef) (hlow : m = 0xe0 → 0xa0 ≤ k)
    (hhigh : m = 0xed → k ≤ 0x9f) :
    ∃ d : Char, String.utf8EncodeChar d = [UInt8.ofNat m, UInt8.ofNat k, UInt8.ofNat j] := by
  obtain ⟨d, hd⟩ := exists_char_toNat_eq
    (n := (m - 0xe0) * 0x1000 + (k - 0x80) * 0x40 + (j - 0x80)) (by omega)
  have hlead : d.val.toNat / 4096 % 0x10 + 0xe0 = m := by omega
  have hsecond : d.val.toNat / 64 % 0x40 + 0x80 = k := by omega
  have hthird : d.val.toNat % 0x40 + 0x80 = j := by omega
  refine ⟨d, ?_⟩
  unfold String.utf8EncodeChar
  simp only
  rw [if_neg (by omega), if_neg (by omega), if_pos (by omega), hlead, hsecond, hthird]

/-- The bounds of the second byte rule out what three bytes can say, and what is above 0x10ffff. -/
theorem exists_encode_four (hi : 0x80 ≤ i ∧ i ≤ 0xbf) (hm : 0xf0 ≤ m ∧ m ≤ 0xf4)
    (hlow : m = 0xf0 → 0x90 ≤ k) (hhigh : m = 0xf4 → k ≤ 0x8f) :
    ∃ d : Char, String.utf8EncodeChar d =
      [UInt8.ofNat m, UInt8.ofNat k, UInt8.ofNat j, UInt8.ofNat i] := by
  obtain ⟨d, hd⟩ := exists_char_toNat_eq
    (n := (m - 0xf0) * 0x40000 + (k - 0x80) * 0x1000 + (j - 0x80) * 0x40 + (i - 0x80)) (by omega)
  have hlead : d.val.toNat / 262144 % 0x08 + 0xf0 = m := by omega
  have hsecond : d.val.toNat / 4096 % 0x40 + 0x80 = k := by omega
  have hthird : d.val.toNat / 64 % 0x40 + 0x80 = j := by omega
  have hfourth : d.val.toNat % 0x40 + 0x80 = i := by omega
  refine ⟨d, ?_⟩
  unfold String.utf8EncodeChar
  simp only
  rw [if_neg (by omega), if_neg (by omega), if_neg (by omega), hlead, hsecond, hthird, hfourth]

end Encode

theorem ofChar_of_encode {d : Char} {lead : UInt8} {tail : Bytes}
    (h : String.utf8EncodeChar d = lead :: tail) : Character.ofChar d = ⟨lead, tail⟩ := by
  rw [Character.ofChar, h]
  rfl

theorem Character.WellFormed.exists_ofChar {c : Character} (h : c.WellFormed) :
    ∃ d : Char, Character.ofChar d = c := by
  obtain ⟨lead, tail⟩ := c
  have hannounced : leadLength lead = tail.length + 1 := h.announced
  have hcompletes : SentinelQuoting.completes lead tail = true := h.completes
  obtain ⟨m, hm, rfl⟩ := exists_ofNat_eq lead
  obtain ⟨hone, htwo, hthree, hfour⟩ := lead_of_leadLength hm hannounced
  -- one case for each length that a lead announces
  match tail with
  | [] =>
    have hascii := hone rfl
    obtain ⟨d, hd⟩ := exists_char_toNat_eq (n := m) (by omega)
    have hle : d.toNat ≤ 0x7f := hd.le.trans hascii
    refine ⟨d, ?_⟩
    rw [ofChar_of_ascii hle, ← hd]
    rfl
  | [second] =>
    obtain ⟨k, hk, rfl⟩ := exists_ofNat_eq second
    obtain ⟨hallows, -⟩ := Bool.and_eq_true_iff.mp hcompletes
    obtain ⟨hlow, hhigh, -⟩ := (allowsSecond_ofNat_iff hm hk).mp hallows
    obtain ⟨d, hd⟩ := exists_encode_two ⟨hlow, hhigh⟩ (htwo rfl)
    exact ⟨d, ofChar_of_encode hd⟩
  | [second, third] =>
    obtain ⟨k, hk, rfl⟩ := exists_ofNat_eq second
    obtain ⟨j, hj, rfl⟩ := exists_ofNat_eq third
    obtain ⟨hallows, hothers⟩ := Bool.and_eq_true_iff.mp hcompletes
    obtain ⟨hlow, hhigh, he0, hed, -⟩ := (allowsSecond_ofNat_iff hm hk).mp hallows
    have hthird := (isContinuation_ofNat_iff hj).mp (by simpa using hothers)
    obtain ⟨d, hd⟩ := exists_encode_three ⟨hlow, hhigh⟩ hthird (hthree rfl) he0 hed
    exact ⟨d, ofChar_of_encode hd⟩
  | [second, third, fourth] =>
    obtain ⟨k, hk, rfl⟩ := exists_ofNat_eq second
    obtain ⟨j, hj, rfl⟩ := exists_ofNat_eq third
    obtain ⟨i, hi, rfl⟩ := exists_ofNat_eq fourth
    obtain ⟨hallows, hothers⟩ := Bool.and_eq_true_iff.mp hcompletes
    obtain ⟨hlow, hhigh, -, -, hf0, hf4⟩ := (allowsSecond_ofNat_iff hm hk).mp hallows
    have hcontinue : isContinuation (UInt8.ofNat j) = true ∧ isContinuation (UInt8.ofNat i) = true := by
      simpa using hothers
    have hthird := (isContinuation_ofNat_iff hj).mp hcontinue.1
    have hfourth := (isContinuation_ofNat_iff hi).mp hcontinue.2
    obtain ⟨d, hd⟩ := exists_encode_four ⟨hlow, hhigh⟩ hthird hfourth (hfour rfl) hf0 hf4
    exact ⟨d, ofChar_of_encode hd⟩
  | _ :: _ :: _ :: _ :: _ =>
    have hle := leadLength_le_four (UInt8.ofNat m)
    rw [hannounced] at hle
    simp only [List.length_cons] at hle
    omega

/-! ## Widths -/

theorem wellFormed_of_tailLength_pos {lead : UInt8} {rest : Bytes}
    (h : 0 < tailLength lead rest) :
    Character.WellFormed ⟨lead, rest.take (tailLength lead rest)⟩ := by
  unfold tailLength at h ⊢
  simp only at h ⊢
  split_ifs at h ⊢ with hc
  · rw [hc.1] at h ⊢
    exact ⟨by simp only [hc.1]; omega, hc.2⟩
  · exact absurd h (Nat.lt_irrefl 0)

theorem width_of_encode {c : Char} {s : Bytes} (h : String.utf8EncodeChar c <+: s) :
    width s = (String.utf8EncodeChar c).length := by
  obtain ⟨rest, rfl⟩ := h
  rw [← bytes_ofChar, Character.bytes, List.cons_append, width, (wellFormed_ofChar c).tailLength_eq,
    List.length_cons]

theorem width_of_no_encode {s : Bytes} (hs : s ≠ [])
    (h : ∀ c : Char, ¬ String.utf8EncodeChar c <+: s) : width s = 1 := by
  cases s with
  | nil => exact absurd rfl hs
  | cons lead rest =>
    have hzero : tailLength lead rest = 0 := by
      by_contra hne
      obtain ⟨d, hd⟩ := (wellFormed_of_tailLength_pos (Nat.pos_of_ne_zero hne)).exists_ofChar
      apply h d
      rw [← bytes_ofChar, hd, Character.bytes, List.cons_prefix_cons]
      exact ⟨rfl, List.take_prefix _ _⟩
    rw [width, hzero]

theorem width_le_four (s : Bytes) : width s ≤ 4 := by
  cases s with
  | nil => exact Nat.zero_le 4
  | cons lead rest => exact Nat.succ_le_succ (tailLength_le_three lead rest)

/-- There is a width at every position of a text. It is the length of the encoding of a code point
that starts there, and one when no encoding does. -/
theorem widthAt_utf8EncodeChar {s : Bytes} {i : Nat} (h : i < s.length) :
    (∀ storage, (⟨storage, s⟩ : Stored).width? i = .ok (widthAt s i)) ∧
    (∀ c : Char, String.utf8EncodeChar c <+: s.drop i →
      widthAt s i = (String.utf8EncodeChar c).length) ∧
    ((∀ c : Char, ¬ String.utf8EncodeChar c <+: s.drop i) → widthAt s i = 1) ∧
    1 ≤ widthAt s i ∧ widthAt s i ≤ 4 ∧ i + widthAt s i ≤ s.length := by
  have hrest : s.drop i ≠ [] := by simpa using h
  exact ⟨fun storage => if_pos h, fun c hc => width_of_encode hc, fun hc => width_of_no_encode hrest hc,
    widthAt_pos h, width_le_four _, add_widthAt_le_length h.le⟩

/-- A sequence that breaks off, and right after it a whole one of four bytes. -/
theorem widthAt_utf8EncodeChar_broken :
    let s : Bytes := [0xe2, 0x82, 0xf0, 0x9f, 0x98, 0x80]
    (0 < s.length ∧ (∀ c : Char, ¬ String.utf8EncodeChar c <+: s.drop 0) ∧ widthAt s 0 = 1) ∧
    2 < s.length ∧ String.utf8EncodeChar (Char.ofNat 0x1f600) <+: s.drop 2 ∧ widthAt s 2 = 4 := by
  intro s
  have hbroken : ∀ c : Char, ¬ String.utf8EncodeChar c <+: s.drop 0 := by
    intro c hc
    have hone : (Character.ofChar c).bytes.length = 1 := by
      rw [bytes_ofChar, ← width_of_encode hc]
      decide
    obtain ⟨rest, hrest⟩ := hc
    rw [← bytes_ofChar] at hrest
    have hlead : (Character.ofChar c).lead = 0xe2 := (List.cons.inj hrest).1
    have hthree : (Character.ofChar c).bytes.length = 3 := by
      rw [Character.bytes, List.length_cons, ← (wellFormed_ofChar c).announced, hlead]
      decide
    omega
  have hwhole : String.utf8EncodeChar (Char.ofNat 0x1f600) <+: s.drop 2 := by decide
  have hfirst : 0 < s.length := by decide
  have hthird : 2 < s.length := by decide
  exact ⟨⟨hfirst, hbroken, (widthAt_utf8EncodeChar hfirst).2.2.1 hbroken⟩,
    hthird, hwhole, (widthAt_utf8EncodeChar hthird).2.1 _ hwhole⟩

end SentinelQuoting
