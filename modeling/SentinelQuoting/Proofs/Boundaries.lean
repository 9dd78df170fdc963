import SentinelQuoting.Proofs.CharacterWidth

/-! # Where characters start

The scan goes from each position to the one after its character. Which positions it comes to can be
told without a scan: a character runs over continuation bytes only, a continuation byte starts no
longer character, and so no two characters overlap, wherever one begins to read. The scan passes
over exactly the positions inside a character (`mem_boundariesFrom_iff`). Any byte that leads a
sequence is where a character starts, whatever stands before it. -/
namespace SentinelQuoting
set_option autoImplicit false

/-! ## Inside a character -/

theorem leadLength_of_isContinuation {b : UInt8} (h : isContinuation b = true) :
    leadLength b = 0 := by
  obtain ⟨n, hn, rfl⟩ := exists_ofNat_eq b
  have hrange := (isContinuation_ofNat_iff hn).mp h
  rw [leadLength_ofNat hn, if_neg (by omega), if_neg (by omega), if_neg (by omega),
    if_neg (by omega)]

theorem leadLength_of_ascii {b : UInt8} (h : b ≤ 0x7f) : leadLength b = 1 := by
  rw [leadLength, if_pos h]

theorem widthAt_of_leadLength_le {s : Bytes} {i : Nat} {b : UInt8} (h : s[i]? = some b)
    (hb : leadLength b ≤ 1) : widthAt s i = 1 := by
  obtain ⟨hi, hget⟩ := List.getElem?_eq_some_iff.mp h
  rw [widthAt, List.drop_eq_getElem_cons hi, hget, width, tailLength_eq_zero hb]

section Inside
variable {s : Bytes} {q p : Nat} (hq : q < p) (hp : p < q + widthAt s q)
include hq hp

theorem isContinuation_inside : ∃ b, s[p]? = some b ∧ isContinuation b = true := by
  obtain ⟨k, rfl⟩ : ∃ k, p = q + 1 + k := ⟨p - (q + 1), by omega⟩
  cases hs : s.drop q with
  | nil =>
    rw [widthAt, hs, width] at hp
    omega
  | cons lead rest =>
    rw [widthAt, hs, width] at hp
    have hk : k < tailLength lead rest := by omega
    have hlength : k < rest.length := hk.trans_le (tailLength_le_length lead rest)
    have hrest : s.drop (q + 1) = rest := by rw [← List.drop_drop, hs, List.drop_one, List.tail_cons]
    have hget : s[q + 1 + k]? = some rest[k] := by
      rw [← List.getElem?_drop, hrest, List.getElem?_eq_getElem hlength]
    have hmem : rest[k] ∈ rest.take (tailLength lead rest) := by
      have htake : k < (rest.take (tailLength lead rest)).length := by
        rw [List.length_take]
        omega
      have hin := List.getElem_mem htake
      rwa [List.getElem_take] at hin
    exact ⟨rest[k], hget, isContinuation_of_mem_tail hmem⟩

theorem widthAt_inside : widthAt s p = 1 := by
  obtain ⟨b, hb, hcontinue⟩ := isContinuation_inside hq hp
  exact widthAt_of_leadLength_le hb (by rw [leadLength_of_isContinuation hcontinue]; omega)

end Inside

/-! ## The scan -/

/-- The positions that the scan comes to from position `i` on. -/
def boundariesFrom (s : Bytes) (i : Nat) : List Nat :=
  if i < s.length then i :: boundariesFrom s (i + widthAt s i) else [i]
termination_by s.length - i
decreasing_by
  rename_i h
  have hw := widthAt_pos h
  omega

/-- The positions that the scan comes to, the start and the end among them. -/
def boundaries (s : Bytes) : List Nat := boundariesFrom s 0

section Scan
variable {s : Bytes}

theorem boundariesFrom_of_lt {i : Nat} (h : i < s.length) :
    boundariesFrom s i = i :: boundariesFrom s (i + widthAt s i) := by
  rw [boundariesFrom, if_pos h]

theorem boundariesFrom_length : boundariesFrom s s.length = [s.length] := by
  rw [boundariesFrom, if_neg (Nat.lt_irrefl _)]

/-- Induction along the scan, from the end of the text. -/
@[elab_as_elim] theorem scan_induction {motive : (i : Nat) → i ≤ s.length → Prop}
    (done : motive s.length le_rfl)
    (next : ∀ i (h : i < s.length),
      motive (i + widthAt s i) (add_widthAt_le_length h.le) → motive i h.le)
    {i : Nat} (h : i ≤ s.length) : motive i h := by
  induction i using boundariesFrom.induct s with
  | case1 i hi ih => exact next i hi (ih _)
  | case2 i hi =>
    obtain rfl : i = s.length := by omega
    exact done

theorem exists_boundariesFrom_eq {i : Nat} (h : i ≤ s.length) :
    ∃ rest, boundariesFrom s i = i :: rest := by
  cases h using scan_induction with
  | done => exact ⟨[], boundariesFrom_length⟩
  | next i hi _ => exact ⟨_, boundariesFrom_of_lt hi⟩

/-- The scan misses a position only inside a character. The characters that begin before the next
position are the one here and single bytes inside it. -/
theorem mem_boundariesFrom_iff {i : Nat} (h : i ≤ s.length) (p : Nat) :
    p ∈ boundariesFrom s i ↔
      i ≤ p ∧ p ≤ s.length ∧ ∀ q < s.length, i ≤ q → ¬ (q < p ∧ p < q + widthAt s q) := by
  induction h using scan_induction with
  | done =>
    rw [boundariesFrom_length, List.mem_singleton]
    constructor
    · rintro rfl
      exact ⟨le_rfl, le_rfl, fun q hq hle => absurd hq (Nat.not_lt.mpr hle)⟩
    · rintro ⟨hge, hle, -⟩
      exact Nat.le_antisymm hle hge
  | next i hi ih =>
    rw [boundariesFrom_of_lt hi, List.mem_cons, ih]
    constructor
    · rintro (rfl | ⟨hge, hle, hover⟩)
      · exact ⟨le_rfl, hi.le, fun q _ hq h => absurd h.1 (Nat.not_lt.mpr hq)⟩
      · refine ⟨by omega, hle, fun q hq hiq => ?_⟩
        rintro ⟨hqp, hpq⟩
        by_cases hnext : i + widthAt s i ≤ q
        · exact hover q hq hnext ⟨hqp, hpq⟩
        · rcases Nat.eq_or_lt_of_le hiq with rfl | hlt
          · omega
          · have hone := widthAt_inside hlt (Nat.lt_of_not_le hnext)
            omega
    · rintro ⟨hge, hle, hover⟩
      rcases Nat.eq_or_lt_of_le hge with rfl | hlt
      · exact .inl rfl
      · have hnext : ¬ p < i + widthAt s i := fun hp => hover i hi le_rfl ⟨hlt, hp⟩
        exact .inr ⟨Nat.le_of_not_lt hnext, hle, fun q hq hiq => hover q hq (by omega)⟩

theorem pairwise_boundariesFrom {i : Nat} (h : i ≤ s.length) :
    (boundariesFrom s i).Pairwise (· < ·) := by
  induction h using scan_induction with
  | done =>
    rw [boundariesFrom_length]
    exact List.pairwise_singleton _ _
  | next i hi ih =>
    rw [boundariesFrom_of_lt hi, List.pairwise_cons]
    refine ⟨fun p hp => ?_, ih⟩
    have hge := ((mem_boundariesFrom_iff (add_widthAt_le_length hi.le) p).mp hp).1
    have hw := widthAt_pos hi
    omega

theorem getLast?_boundariesFrom {i : Nat} (h : i ≤ s.length) :
    (boundariesFrom s i).getLast? = some s.length := by
  induction h using scan_induction with
  | done =>
    rw [boundariesFrom_length]
    rfl
  | next i hi ih => rw [boundariesFrom_of_lt hi, List.getLast?_cons, ih, Option.getD_some]

theorem isChain_boundariesFrom {i : Nat} (h : i ≤ s.length) :
    (boundariesFrom s i).IsChain fun j k => ∀ storage, (⟨storage, s⟩ : Stored).next? j = .ok k := by
  induction h using scan_induction with
  | done =>
    rw [boundariesFrom_length]
    exact .singleton _
  | next i hi ih =>
    obtain ⟨rest, hrest⟩ := exists_boundariesFrom_eq (add_widthAt_le_length hi.le)
    rw [hrest] at ih
    rw [boundariesFrom_of_lt hi, hrest]
    refine .cons_cons (fun storage => ?_) ih
    rw [Stored.next?, Stored.width?, if_pos hi]
    rfl

theorem infix_boundariesFrom {i j : Nat} (h : i ≤ s.length) (hj : j < s.length)
    (hmem : j ∈ boundariesFrom s i) : [j, j + widthAt s j] <:+: boundariesFrom s i := by
  induction h using scan_induction with
  | done =>
    rw [boundariesFrom_length, List.mem_singleton] at hmem
    omega
  | next i hi ih =>
    rw [boundariesFrom_of_lt hi] at hmem ⊢
    rcases List.mem_cons.mp hmem with rfl | hmem
    · obtain ⟨rest, hrest⟩ := exists_boundariesFrom_eq (add_widthAt_le_length hi.le)
      rw [hrest]
      exact ⟨[], rest, rfl⟩
    · exact List.infix_cons (ih hmem)

theorem exists_characters_drop_eq {i : Nat} (h : i < s.length) :
    ∃ c : Character, characters (s.drop i) = c :: characters (s.drop (i + widthAt s i)) ∧
      c.bytes = (s.drop i).take (widthAt s i) := by
  have hwidth : widthAt s i = tailLength s[i] (s.drop (i + 1)) + 1 := by
    rw [widthAt, List.drop_eq_getElem_cons h, width]
  have hrest : (s.drop (i + 1)).drop (tailLength s[i] (s.drop (i + 1))) =
      s.drop (i + widthAt s i) := by
    rw [List.drop_drop, hwidth, Nat.add_assoc, Nat.add_comm 1]
  rw [List.drop_eq_getElem_cons h, characters_cons, hrest, hwidth, List.take_succ_cons]
  exact ⟨_, rfl, rfl⟩

theorem boundariesFrom_eq {i : Nat} (h : i ≤ s.length) :
    boundariesFrom s i = i :: endsFrom i (characters (s.drop i)) := by
  induction h using scan_induction with
  | done =>
    rw [boundariesFrom_length, List.drop_length]
    rfl
  | next i hi ih =>
    obtain ⟨c, hcharacters, hbytes⟩ := exists_characters_drop_eq hi
    have hsize : c.size = widthAt s i := by
      have hlength : c.size = c.bytes.length := rfl
      rw [hlength, hbytes, List.length_take]
      exact Nat.min_eq_left (width_le_length _)
    rw [boundariesFrom_of_lt hi, ih, hcharacters, endsFrom, hsize]

end Scan

/-! ## Self-synchronisation -/

section Boundaries
variable {s : Bytes}

theorem mem_boundaries_iff (p : Nat) :
    p ∈ boundaries s ↔ p ≤ s.length ∧ ∀ q < s.length, ¬ (q < p ∧ p < q + widthAt s q) := by
  rw [boundaries, mem_boundariesFrom_iff (Nat.zero_le _)]
  simp only [Nat.zero_le, true_and, forall_const]

/-- A byte that leads a sequence starts a character, since no character runs over it. -/
theorem infix_boundaries_of_lead {i : Nat} {b : UInt8} (h : s[i]? = some b) (hb : leadLength b ≠ 0) :
    [i, i + widthAt s i] <:+: boundaries s := by
  obtain ⟨hi, -⟩ := List.getElem?_eq_some_iff.mp h
  apply infix_boundariesFrom (Nat.zero_le _) hi
  refine (mem_boundaries_iff i).mpr ⟨hi.le, ?_⟩
  rintro q - ⟨hqi, hiq⟩
  obtain ⟨b', hb', hcontinue⟩ := isContinuation_inside hqi hiq
  rw [h, Option.some_inj] at hb'
  exact hb (hb' ▸ leadLength_of_isContinuation hcontinue)

theorem getElem?_of_encode {c : Char} {i : Nat} (h : String.utf8EncodeChar c <+: s.drop i) :
    s[i]? = some (Character.ofChar c).lead := by
  obtain ⟨rest, hrest⟩ := h
  rw [← bytes_ofChar] at hrest
  rw [← List.head?_drop, ← hrest]
  rfl

theorem infix_boundaries_of_encode {c : Char} {i : Nat} (h : String.utf8EncodeChar c <+: s.drop i) :
    [i, i + (String.utf8EncodeChar c).length] <:+: boundaries s := by
  have hlead : leadLength (Character.ofChar c).lead ≠ 0 := by
    rw [(wellFormed_ofChar c).announced]
    exact Nat.succ_ne_zero _
  rw [← width_of_encode h]
  exact infix_boundaries_of_lead (getElem?_of_encode h) hlead

theorem infix_boundaries_of_ascii {i : Nat} {b : UInt8} (h : s[i]? = some b) (hb : b ≤ 0x7f) :
    [i, i + 1] <:+: boundaries s := by
  have hlead := leadLength_of_ascii hb
  rw [← widthAt_of_leadLength_le h hlead.le]
  exact infix_boundaries_of_lead h (by omega)

/-- Wherever two encodings stand in a text, the second begins after the first has ended. -/
theorem add_length_le_of_encode {c d : Char} {i j : Nat} (hc : String.utf8EncodeChar c <+: s.drop i)
    (hd : String.utf8EncodeChar d <+: s.drop j) (hij : i < j) :
    i + (String.utf8EncodeChar c).length ≤ j := by
  have hi : i < s.length := (List.getElem?_eq_some_iff.mp (getElem?_of_encode hc)).1
  have hmem : j ∈ boundaries s := (infix_boundaries_of_encode hd).subset List.mem_cons_self
  have hover := ((mem_boundaries_iff j).mp hmem).2 i hi
  rw [widthAt, width_of_encode hc] at hover
  omega

end Boundaries

/-- The scan goes from each position to the next one and ends at the end of the text. It comes to
every position that is inside no character, read from whichever byte. So it finds every encoding
whole, no two encodings overlap, and an ASCII byte is a character of its own. -/
theorem boundaries_synchronised (s : Bytes) :
    boundaries s = 0 :: stops s ∧
    ((boundaries s).IsChain fun i j => ∀ storage, (⟨storage, s⟩ : Stored).next? i = .ok j) ∧
    (boundaries s).Pairwise (· < ·) ∧
    (boundaries s).getLast? = some s.length ∧
    (∀ p, p ∈ boundaries s ↔
      p ≤ s.length ∧ ∀ q < s.length, ¬ (q < p ∧ p < q + widthAt s q)) ∧
    (∀ (c : Char) (i : Nat), String.utf8EncodeChar c <+: s.drop i →
      [i, i + (String.utf8EncodeChar c).length] <:+: boundaries s) ∧
    (∀ (c d : Char) (i j : Nat), String.utf8EncodeChar c <+: s.drop i →
      String.utf8EncodeChar d <+: s.drop j → i < j → i + (String.utf8EncodeChar c).length ≤ j) ∧
    ∀ (i : Nat) (b : UInt8), s[i]? = some b → b ≤ 0x7f → [i, i + 1] <:+: boundaries s := by
  have hzero : 0 ≤ s.length := Nat.zero_le _
  refine ⟨?_, isChain_boundariesFrom hzero, pairwise_boundariesFrom hzero,
    getLast?_boundariesFrom hzero, mem_boundaries_iff, fun c i => infix_boundaries_of_encode,
    fun c d i j => add_length_le_of_encode, fun i b => infix_boundaries_of_ascii⟩
  rw [boundaries, boundariesFrom_eq hzero, List.drop_zero]
  rfl

/-- A mark after a lead that breaks off, between an encoding of three bytes and one of two. -/
theorem boundaries_synchronised_broken :
    let s : Bytes := [0xe2, 0x82, 0xe2, 0x82, 0xac, 0xf0, 0x9f, escapeMark, 0x80, 0xc3, 0xa9]
    (String.utf8EncodeChar (Char.ofNat 0x20ac) <+: s.drop 2 ∧ [2, 5] <:+: boundaries s) ∧
    (String.utf8EncodeChar (Char.ofNat 0xe9) <+: s.drop 9 ∧ 2 < 9 ∧ 2 + 3 ≤ 9) ∧
    s[7]? = some escapeMark ∧ escapeMark ≤ 0x7f ∧ [7, 8] <:+: boundaries s := by
  intro s
  have heuro : String.utf8EncodeChar (Char.ofNat 0x20ac) <+: s.drop 2 := by decide
  have hacute : String.utf8EncodeChar (Char.ofNat 0xe9) <+: s.drop 9 := by decide
  have hmark : s[7]? = some escapeMark := rfl
  have hascii : escapeMark ≤ 0x7f := by decide
  obtain ⟨-, -, -, -, -, hwhole, hdisjoint, halone⟩ := boundaries_synchronised s
  exact ⟨⟨heuro, hwhole _ 2 heuro⟩, ⟨hacute, by decide, hdisjoint _ _ 2 9 heuro hacute (by decide)⟩,
    hmark, hascii, halone 7 _ hmark hascii⟩

end SentinelQuoting
