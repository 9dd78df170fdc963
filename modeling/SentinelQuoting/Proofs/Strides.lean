import SentinelQuoting.Proofs.Boundaries
import SentinelQuoting.Proofs.Release
import SentinelQuoting.Proofs.SelectiveRoundTrip

/-! # Copying characters or bytes

A pass goes over a text by position. Before it copies what stands at a position it may write
something, and it may pass over a mark (`Rule`). How much it then copies is a matter of its stride:
a whole character, or a single byte. The bytes after the first of a character are high, and a rule
that does nothing at high bytes does not notice whether they are copied with the first or one by one
(`copyFrom_characters`). So these passes give the same by bytes, and none needs a shortcut for a
text without marks. The full encoder alone acts at every byte that it comes to, so that what it
writes depends on the characters. -/
namespace SentinelQuoting
set_option autoImplicit false

/-! ## Scans by position -/

/-- How far a scan goes on from each position of a text: over a whole character, over one byte. -/
structure Stride (s : Bytes) where
  width : Nat → Nat
  width_pos : ∀ i < s.length, 0 < width i

def Stride.characters (s : Bytes) : Stride s := ⟨widthAt s, fun _ h => widthAt_pos h⟩

def Stride.bytes (s : Bytes) : Stride s := ⟨fun _ => 1, fun _ _ => Nat.one_pos⟩

@[simp] theorem Stride.width_characters (s : Bytes) (i : Nat) :
    (Stride.characters s).width i = widthAt s i := rfl

@[simp] theorem Stride.width_bytes (s : Bytes) (i : Nat) : (Stride.bytes s).width i = 1 := rfl

/-- What a scan does at a byte before it copies: what it writes, and whether it passes over the
byte, so that it copies from the next one on. -/
structure Front where
  written : Bytes
  passes : Bool

/-- What is done at a byte may depend on the byte after it, if there is one. -/
abbrev Rule := UInt8 → Option UInt8 → Front

namespace Rule

/-- Write a mark in front of some bytes. -/
def mark (marks : UInt8 → Bool) : Rule :=
  fun b _ => ⟨if marks b then [escapeMark] else [], false⟩

/-- Pass over a mark in front of an endangered byte. Any other mark is copied, and the scan goes on
at the byte after it. -/
def unescape (ifs : Separators) : Rule :=
  fun b next => ⟨[], b == escapeMark && next.any (Selective.isEndangered ifs)⟩

/-- Pass over every mark. -/
def unmark : Rule := fun b _ => ⟨[], b == escapeMark⟩

/-- Pass over every mark, and write one again where no separator follows. -/
def release (ifs : Separators) : Rule := fun b next =>
  if b = escapeMark then ⟨if next.any ifs.contains then [] else [escapeMark], true⟩ else ⟨[], false⟩

def LeavesHigh (rule : Rule) : Prop := ∀ b next, 0x80 ≤ b → rule b next = ⟨[], false⟩

end Rule

/-- Scan a text from position `i` on. The scan ends early when it passes over the last byte. -/
def copyFrom (rule : Rule) {s : Bytes} (stride : Stride s) (i : Nat) : Bytes :=
  if h : i < s.length then
    let k := i + (rule s[i] s[i + 1]?).passes.toNat
    (rule s[i] s[i + 1]?).written ++
      if k < s.length then
        (s.drop k).take (stride.width k) ++ copyFrom rule stride (k + stride.width k)
      else []
  else []
termination_by s.length - i
decreasing_by
  rename_i hk
  have hw := stride.width_pos (i + (rule s[i] s[i + 1]?).passes.toNat) hk
  omega

section Scan
variable {rule : Rule} {s : Bytes} {stride : Stride s} {i : Nat}

theorem copyFrom_of_ge (h : s.length ≤ i) : copyFrom rule stride i = [] := by
  rw [copyFrom, dif_neg (Nat.not_lt.mpr h)]

theorem copyFrom_of_copies (h : i < s.length) (hpass : (rule s[i] s[i + 1]?).passes = false) :
    copyFrom rule stride i = (rule s[i] s[i + 1]?).written ++
      ((s.drop i).take (stride.width i) ++ copyFrom rule stride (i + stride.width i)) := by
  rw [copyFrom, dif_pos h]
  simp only [hpass, Bool.toNat_false, Nat.add_zero]
  rw [if_pos h]

theorem copyFrom_of_passes (h : i + 1 < s.length) (hpass : (rule s[i] s[i + 1]?).passes = true) :
    copyFrom rule stride i = (rule s[i] s[i + 1]?).written ++
      ((s.drop (i + 1)).take (stride.width (i + 1)) ++
        copyFrom rule stride (i + 1 + stride.width (i + 1))) := by
  rw [copyFrom, dif_pos (Nat.lt_of_succ_lt h)]
  simp only [hpass, Bool.toNat_true]
  rw [if_pos h]

theorem copyFrom_of_passes_last (h : i < s.length) (hlast : s.length ≤ i + 1)
    (hpass : (rule s[i] s[i + 1]?).passes = true) :
    copyFrom rule stride i = (rule s[i] s[i + 1]?).written := by
  rw [copyFrom, dif_pos h]
  simp only [hpass, Bool.toNat_true]
  rw [if_neg (Nat.not_lt.mpr hlast), List.append_nil]

variable (rule stride)

/-- Induction along a scan, by what the rule does at each position that it comes to. -/
@[elab_as_elim] theorem copyFrom_induction {motive : Nat → Prop}
    (done : ∀ i, s.length ≤ i → motive i)
    (copies : ∀ i (h : i < s.length), (rule s[i] s[i + 1]?).passes = false →
      motive (i + stride.width i) → motive i)
    (passes : ∀ i (h : i + 1 < s.length), (rule s[i] s[i + 1]?).passes = true →
      motive (i + 1 + stride.width (i + 1)) → motive i)
    (passes_last : ∀ i (h : i < s.length), s.length ≤ i + 1 →
      (rule s[i] s[i + 1]?).passes = true → motive i) (i : Nat) : motive i := by
  induction i using copyFrom.induct rule stride with
  | case1 i hi k ih =>
    cases hpass : (rule s[i] s[i + 1]?).passes with
    | false =>
      have hk : k = i := by simp [k, hpass]
      rw [hk] at ih
      exact copies i hi hpass (ih hi)
    | true =>
      have hk : k = i + 1 := by simp [k, hpass]
      rw [hk] at ih
      by_cases hnext : i + 1 < s.length
      · exact passes i hnext hpass (ih hnext)
      · exact passes_last i hi (Nat.not_lt.mp hnext) hpass
  | case2 i hi => exact done i (Nat.not_lt.mp hi)

end Scan

/-! ## Characters against bytes -/

section HighBytes
variable {rule : Rule} (hrule : rule.LeavesHigh) {s : Bytes}
include hrule

theorem copyFrom_bytes_of_high {i n : Nat} (h : ∀ j < n, ∃ b, s[i + j]? = some b ∧ 0x80 ≤ b) :
    copyFrom rule (.bytes s) i = (s.drop i).take n ++ copyFrom rule (.bytes s) (i + n) := by
  induction n generalizing i with
  | zero => rw [List.take_zero, List.nil_append, Nat.add_zero]
  | succ n ih =>
    obtain ⟨b, hget, hhigh⟩ := h 0 (Nat.succ_pos n)
    obtain ⟨hi, rfl⟩ : ∃ hi : i < s.length, s[i] = b := List.getElem?_eq_some_iff.mp hget
    have hrest : ∀ j < n, ∃ b, s[i + 1 + j]? = some b ∧ 0x80 ≤ b := by
      intro j hj
      have hj' := h (j + 1) (Nat.succ_lt_succ hj)
      rwa [Nat.add_comm j 1, ← Nat.add_assoc] at hj'
    have hleft : rule s[i] s[i + 1]? = ⟨[], false⟩ := hrule _ _ hhigh
    rw [copyFrom_of_copies hi (by rw [hleft]), hleft, List.nil_append, Stride.width_bytes, ih hrest,
      Nat.add_comm n 1, List.take_add, List.drop_drop, List.append_assoc, Nat.add_assoc]

theorem copyFrom_bytes_character {k : Nat} (hk : k < s.length) :
    (s.drop k).take 1 ++ copyFrom rule (.bytes s) (k + 1) =
      (s.drop k).take (widthAt s k) ++ copyFrom rule (.bytes s) (k + widthAt s k) := by
  -- the rule does nothing at the `w` bytes after the first, so they are copied one by one
  have hpos := widthAt_pos hk
  obtain ⟨w, hwidth⟩ : ∃ w, widthAt s k = 1 + w := ⟨widthAt s k - 1, by omega⟩
  have hhigh : ∀ j < w, ∃ b, s[k + 1 + j]? = some b ∧ 0x80 ≤ b := by
    intro j hj
    obtain ⟨b, hb, hcontinue⟩ := isContinuation_inside (s := s) (q := k) (p := k + 1 + j)
      (by omega) (by omega)
    rw [isContinuation, Bool.and_eq_true, decide_eq_true_eq] at hcontinue
    exact ⟨b, hb, hcontinue.1⟩
  rw [copyFrom_bytes_of_high hrule hhigh, hwidth, List.take_add, List.drop_drop,
    List.append_assoc, Nat.add_assoc]

theorem copyFrom_characters (i : Nat) :
    copyFrom rule (.characters s) i = copyFrom rule (.bytes s) i := by
  induction i using copyFrom_induction rule (.characters s) with
  | done i h => rw [copyFrom_of_ge h, copyFrom_of_ge h]
  | copies i h hpass ih =>
    rw [copyFrom_of_copies h hpass, copyFrom_of_copies h hpass, ih, Stride.width_bytes,
      copyFrom_bytes_character hrule h, Stride.width_characters]
  | passes i h hpass ih =>
    rw [copyFrom_of_passes h hpass, copyFrom_of_passes h hpass, ih, Stride.width_bytes,
      copyFrom_bytes_character hrule h, Stride.width_characters]
  | passes_last i h hlast hpass =>
    rw [copyFrom_of_passes_last h hlast hpass, copyFrom_of_passes_last h hlast hpass]

end HighBytes

/-! ## The scan by bytes -/

/-- A function that does to the first bytes of every text what the rule says. -/
structure Rule.Governs (rule : Rule) (f : Bytes → Bytes) : Prop where
  nil : f [] = []
  copies : ∀ b rest, (rule b rest.head?).passes = false →
    f (b :: rest) = (rule b rest.head?).written ++ b :: f rest
  passes : ∀ b d rest, (rule b (some d)).passes = true →
    f (b :: d :: rest) = (rule b (some d)).written ++ d :: f rest
  passes_last : ∀ b, (rule b none).passes = true → f [b] = (rule b none).written

theorem Rule.Governs.copyFrom_bytes {rule : Rule} {f : Bytes → Bytes} (hf : rule.Governs f)
    (s : Bytes) (i : Nat) : copyFrom rule (.bytes s) i = f (s.drop i) := by
  induction i using copyFrom_induction rule (.bytes s) with
  | done i h => rw [copyFrom_of_ge h, List.drop_of_length_le h, hf.nil]
  | copies i h hpass ih =>
    have hnext : (s.drop (i + 1)).head? = s[i + 1]? := List.head?_drop
    rw [copyFrom_of_copies h hpass, ih, List.drop_eq_getElem_cons h,
      hf.copies _ _ (by rw [hnext, hpass]), hnext]
    rfl
  | passes i h hpass ih =>
    have hnext : s[i + 1]? = some s[i + 1] := List.getElem?_eq_getElem h
    rw [copyFrom_of_passes h hpass, ih, List.drop_eq_getElem_cons (Nat.lt_of_succ_lt h),
      List.drop_eq_getElem_cons h, hf.passes _ _ _ (by rw [← hnext, hpass]), hnext]
    rfl
  | passes_last i h hlast hpass =>
    have hnext : s[i + 1]? = none := List.getElem?_eq_none hlast
    rw [copyFrom_of_passes_last h hlast hpass, List.drop_eq_getElem_cons h,
      List.drop_of_length_le hlast, hf.passes_last _ (by rw [← hnext, hpass]), hnext]

namespace Rule

theorem governs_mark (marks : UInt8 → Bool) :
    (mark marks).Governs fun s => s.flatMap fun b => if marks b then [escapeMark, b] else [b] where
  nil := rfl
  copies b rest _ := by
    rw [List.flatMap_cons, mark]
    split <;> rfl
  passes b d rest h := absurd h (by simp [mark])
  passes_last b h := absurd h (by simp [mark])

theorem governs_unescape (ifs : Separators) : (unescape ifs).Governs (Selective.decode ifs) where
  nil := rfl
  copies b rest h := by
    by_cases hb : b = escapeMark
    · subst hb
      cases rest with
      | nil => rfl
      | cons d rest =>
        -- the byte after a mark that is kept is no mark, so it is copied in the next turn
        have hd : Selective.isEndangered ifs d = false := by simpa [unescape] using h
        have hne : d ≠ escapeMark := by
          rintro rfl
          exact absurd hd (by simp [Selective.isEndangered, isSentinel])
        rw [Selective.decode_guarded, hd, Selective.decode_bare ifs hne]
        rfl
    · exact Selective.decode_bare ifs hb rest
  passes b d rest h := by
    obtain ⟨rfl, hd⟩ : b = escapeMark ∧ Selective.isEndangered ifs d = true := by
      simpa [unescape] using h
    rw [Selective.decode_guarded, hd]
    rfl
  passes_last b h := absurd h (by simp [unescape])

theorem governs_unmark : unmark.Governs fun s => (reading s).flatMap Piece.content where
  nil := rfl
  copies b rest h := by
    rw [reading_bare (by simpa [unmark] using h), List.flatMap_cons]
    rfl
  passes b d rest h := by
    obtain rfl : b = escapeMark := by simpa [unmark] using h
    rw [reading_guarded, List.flatMap_cons]
    rfl
  passes_last b h := by
    obtain rfl : b = escapeMark := by simpa [unmark] using h
    rfl

theorem release_bare (ifs : Separators) {b : UInt8} (h : b ≠ escapeMark) (next : Option UInt8) :
    release ifs b next = ⟨[], false⟩ :=
  if_neg h

theorem passes_release_iff (ifs : Separators) (b : UInt8) (next : Option UInt8) :
    (release ifs b next).passes = true ↔ b = escapeMark := by
  unfold release
  split <;> simp [*]

theorem governs_release (ifs : Separators) : (release ifs).Governs (releaseSeparators ifs) where
  nil := rfl
  copies b rest h := by
    have hb : b ≠ escapeMark := by rwa [← Bool.not_eq_true, passes_release_iff] at h
    rw [release_bare ifs hb]
    exact releaseSeparators_bare ifs hb rest
  passes b d rest h := by
    obtain rfl := (passes_release_iff ifs b _).mp h
    rw [releaseSeparators_guarded, release, if_pos rfl, Option.any_some]
    split <;> rfl
  passes_last b h := by
    obtain rfl := (passes_release_iff ifs b _).mp h
    rfl

/-! ## Rules that leave high bytes alone -/

theorem leavesHigh_mark {marks : UInt8 → Bool} (h : ∀ b, 0x80 ≤ b → marks b = false) :
    (mark marks).LeavesHigh := by
  intro b next hb
  rw [mark, h b hb]
  rfl

theorem leavesHigh_unescape (ifs : Separators) : (unescape ifs).LeavesHigh := by
  intro b next hb
  rw [unescape, beq_false_of_ne (ne_of_high hb (by decide)), Bool.false_and]

theorem leavesHigh_unmark : unmark.LeavesHigh := by
  intro b next hb
  rw [unmark, beq_false_of_ne (ne_of_high hb (by decide))]

theorem leavesHigh_release (ifs : Separators) : (release ifs).LeavesHigh :=
  fun _ next hb => release_bare ifs (ne_of_high hb (by decide)) next

end Rule

/-- The scan with a rule gives this text, whichever of the two strides it has. -/
structure Rule.Gives (rule : Rule) (s result : Bytes) : Prop where
  byCharacters : copyFrom rule (.characters s) 0 = result
  byBytes : copyFrom rule (.bytes s) 0 = result

theorem Rule.Governs.gives {rule : Rule} {f : Bytes → Bytes} (h : rule.Governs f)
    (hrule : rule.LeavesHigh) (s : Bytes) : rule.Gives s (f s) := by
  have hbytes : copyFrom rule (.bytes s) 0 = f s := h.copyFrom_bytes s 0
  exact ⟨by rw [copyFrom_characters hrule, hbytes], hbytes⟩

/-! ## The passes -/

theorem Selective.encode_append (place : Place) (ifs : Separators) (a b : Bytes) :
    encode place ifs (a ++ b) = encode place ifs a ++ encode place ifs b := by
  rw [encode_eq_flatMap, encode_eq_flatMap, encode_eq_flatMap, List.flatMap_append]

theorem Full.decode_eq_ite (s : Bytes) :
    decode s =
      if s = bareEscape then s else if s = quotedNull then [] else contentOf (octets s) := by
  by_cases hbare : s = bareEscape
  · rw [if_pos hbare, hbare]
    rfl
  by_cases hnull : s = quotedNull
  · rw [if_neg hbare, if_pos hnull, hnull, decode_quotedNull]
  · rw [if_neg hbare, if_neg hnull, decode_eq hbare hnull]
    rfl

theorem copyFrom_mark_characters {s : Bytes} {i : Nat} (h : i ≤ s.length) :
    copyFrom (.mark fun _ => true) (.characters s) i = Full.encodeIn (characters (s.drop i)) := by
  induction h using scan_induction with
  | done =>
    rw [copyFrom_of_ge le_rfl, List.drop_length]
    rfl
  | next i hi ih =>
    obtain ⟨c, hcharacters, hbytes⟩ := exists_characters_drop_eq hi
    rw [copyFrom_of_copies hi rfl, Stride.width_characters, ih, hcharacters, ← hbytes]
    rfl

theorem Full.encode_eq_ite (s : Bytes) :
    encode s = if s = [] then quotedNull
      else copyFrom (.mark fun _ => true) (.characters s) 0 := by
  by_cases h : s = []
  · rw [if_pos h, h]
    rfl
  · rw [if_neg h, copyFrom_mark_characters (Nat.zero_le _), encode, if_neg (by simpa using h)]
    rfl

/-- Both selective encoders, the two decoders and the release of the separators are scans that give
the same from character to character and from byte to byte, and none stops short at a text without
marks; the full decoder reads two texts as a whole before it scans. So the selective encoders treat
every byte by itself, and a text can be cut anywhere before it is encoded. The full encoder is the
scan by characters, and the scan by bytes is another one. -/
theorem scans_bytewise :
    (∀ (ifs : Separators) (s : Bytes),
      (∀ place, (Rule.mark (Selective.protects place ifs)).Gives s (Selective.encode place ifs s)) ∧
      (Rule.unescape ifs).Gives s (Selective.decode ifs s) ∧
      (Rule.unmark.Gives s (contentOf (octets s)) ∧
        Full.decode s =
          if s = bareEscape then s else if s = quotedNull then [] else contentOf (octets s)) ∧
      (Rule.release ifs).Gives s (releaseSeparators ifs s)) ∧
    (∀ (place : Place) (ifs : Separators),
      (∀ s : Bytes, Selective.encode place ifs s =
        s.flatMap fun b => if Selective.protects place ifs b then [escapeMark, b] else [b]) ∧
      ∀ a b : Bytes, Selective.encode place ifs (a ++ b) =
        Selective.encode place ifs a ++ Selective.encode place ifs b) ∧
    (∀ s : Bytes, Full.encode s =
      if s = [] then quotedNull else copyFrom (.mark fun _ => true) (.characters s) 0) ∧
    ∃ s : Bytes, Full.encode s ≠ copyFrom (.mark fun _ => true) (.bytes s) 0 := by
  refine ⟨fun ifs s => ⟨fun place => ?_, ?_, ⟨?_, Full.decode_eq_ite s⟩, ?_⟩,
    fun place ifs => ⟨Selective.encode_eq_flatMap place ifs, Selective.encode_append place ifs⟩,
    Full.encode_eq_ite, [0xc3, 0xa9], ?_⟩
  · have hhigh : (Rule.mark (Selective.protects place ifs)).LeavesHigh :=
      Rule.leavesHigh_mark fun b hb => Selective.not_protects_of_high place ifs hb
    rw [Selective.encode_eq_flatMap]
    exact (Rule.governs_mark _).gives hhigh s
  · exact (Rule.governs_unescape ifs).gives (Rule.leavesHigh_unescape ifs) s
  · exact Rule.governs_unmark.gives Rule.leavesHigh_unmark s
  · exact (Rule.governs_release ifs).gives (Rule.leavesHigh_release ifs) s
  · rw [(Rule.governs_mark fun _ => true).copyFrom_bytes]
    decide

end SentinelQuoting
