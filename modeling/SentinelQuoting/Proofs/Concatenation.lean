import Mathlib.Algebra.Group.Nat.Even
import Mathlib.Data.List.DropRight
import SentinelQuoting.Proofs.Compaction
import SentinelQuoting.Proofs.Marking
import SentinelQuoting.Proofs.Release

/-! # Cutting a text in two

What a pass makes of a text is what it makes of the two parts, when the cut is well placed. For the
passes that read protection the cut must not separate a mark from what it protects. Only the marks
at the very end of the first part decide that: they protect each other in pairs, and one is left
open when their number is odd (`closed_iff_even_trailingMarks`). A cut inside a character does them
no harm. For the full encoder it is the other way round: it marks characters, so the cut must not
run through one, and then the characters of the text are those of the two parts
(`characters_append_iff`). -/
namespace SentinelQuoting
set_option autoImplicit false

/-! ## Cuts between pieces -/

/-- How many marks there are at the very end of a text. -/
def trailingMarks (s : Bytes) : Nat := (s.rtakeWhile (· == escapeMark)).length

theorem trailingMarks_concat_mark (s : Bytes) :
    trailingMarks (s ++ [escapeMark]) = trailingMarks s + 1 := by
  rw [trailingMarks, List.rtakeWhile_concat, if_pos (beq_self_eq_true escapeMark),
    List.length_append, List.length_singleton, trailingMarks]

theorem trailingMarks_concat_of_ne (s : Bytes) {b : UInt8} (h : b ≠ escapeMark) :
    trailingMarks (s ++ [b]) = 0 := by
  rw [trailingMarks, List.rtakeWhile_concat, if_neg (by simpa using h), List.length_nil]

/-- An open mark protects whatever is put after it. -/
theorem closed_concat_of_not_closed {s : Bytes} (h : ¬ Closed s) (b : UInt8) :
    Closed (s ++ [b]) := by
  induction s using reading_induction with
  | nil => exact absurd closed_nil h
  | dangling => exact (closed_guarded b []).mpr closed_nil
  | guarded x rest ih =>
    rw [closed_guarded] at h
    exact (closed_guarded x _).mpr (ih h)
  | bare x rest hx ih =>
    rw [closed_bare hx] at h
    exact (closed_bare hx _).mpr (ih h)

theorem closed_singleton_iff (b : UInt8) : Closed [b] ↔ b ≠ escapeMark := by
  by_cases hb : b = escapeMark
  · subst hb
    simp
  · exact iff_of_true ((closed_bare hb []).mpr closed_nil) hb

theorem closed_concat_iff (s : Bytes) (b : UInt8) :
    Closed (s ++ [b]) ↔ ¬ (Closed s ∧ b = escapeMark) := by
  by_cases hs : Closed s
  · have hlast : Closed (s ++ [b]) ↔ Closed [b] := by
      unfold Closed
      rw [reading_append hs, List.mem_append, not_or]
      exact and_iff_right hs
    rw [hlast, closed_singleton_iff]
    exact not_congr (and_iff_right hs).symm
  · exact iff_of_true (closed_concat_of_not_closed hs b) fun h => hs h.1

theorem closed_iff_even_trailingMarks (s : Bytes) : Closed s ↔ Even (trailingMarks s) := by
  induction s using List.reverseRecOn with
  | nil => exact iff_of_true closed_nil Even.zero
  | append_singleton s b ih =>
    rw [closed_concat_iff, ih]
    by_cases hb : b = escapeMark
    · subst hb
      rw [trailingMarks_concat_mark, Nat.even_add_one]
      simp
    · rw [trailingMarks_concat_of_ne s hb]
      simp [hb]

theorem flatMap_reading_append (f : Piece → Bytes) {a : Bytes} (h : Closed a) (b : Bytes) :
    (reading (a ++ b)).flatMap f = (reading a).flatMap f ++ (reading b).flatMap f := by
  rw [reading_append h, List.flatMap_append]

theorem Full.decode_append {a b : Bytes} (h : Closed a) (ha : a ≠ bareEscape ∧ a ≠ quotedNull)
    (hb : b ≠ bareEscape ∧ b ≠ quotedNull) :
    decode (a ++ b) = decode a ++ decode b ∧
      ∀ sink : Sink, decodeReporting (a ++ b) sink = .ok (decode a ++ decode b) sink := by
  have hsingle : ∀ x : UInt8, a ≠ [x] → b ≠ [x] → a ++ b ≠ [x] := by
    intro x hax hbx he
    rcases List.append_eq_singleton_iff.mp he with ⟨-, hb⟩ | ⟨ha, -⟩
    · exact hbx hb
    · exact hax ha
  have hbare : a ++ b ≠ bareEscape := hsingle escapeMark ha.1 hb.1
  have hnull : a ++ b ≠ quotedNull := hsingle nullMark ha.2 hb.2
  have hdecode : decode (a ++ b) = decode a ++ decode b := by
    rw [decode_eq hbare hnull, decode_eq ha.1 ha.2, decode_eq hb.1 hb.2, flatMap_reading_append _ h]
  refine ⟨hdecode, fun sink => ?_⟩
  rw [decodeReporting_eq hbare, hdecode]

/-- The decoders and the clean-up passes can be made on the parts of a text when the first part ends
in an even number of marks, be the cut inside a character or not. For the full decoder neither part
may be one of the two texts that it reads as a whole, and then it reports nothing. -/
theorem passes_append {a : Bytes} (h : Even (trailingMarks a)) (b : Bytes) :
    (∀ ifs : Separators,
      Selective.decode ifs (a ++ b) = Selective.decode ifs a ++ Selective.decode ifs b ∧
      releaseSeparators ifs (a ++ b) = releaseSeparators ifs a ++ releaseSeparators ifs b) ∧
    compact (a ++ b) = compact a ++ compact b ∧
    (a ≠ bareEscape ∧ a ≠ quotedNull → b ≠ bareEscape ∧ b ≠ quotedNull →
      Full.decode (a ++ b) = Full.decode a ++ Full.decode b ∧
      ∀ sink : Sink, Full.decodeReporting (a ++ b) sink =
        .ok (Full.decode a ++ Full.decode b) sink) := by
  have hclosed : Closed a := (closed_iff_even_trailingMarks a).mpr h
  refine ⟨fun ifs => ⟨?_, ?_⟩, ?_, Full.decode_append hclosed⟩
  · rw [Selective.decode_eq, Selective.decode_eq, Selective.decode_eq,
      flatMap_reading_append _ hclosed]
  · rw [releaseSeparators_eq, releaseSeparators_eq, releaseSeparators_eq,
      flatMap_reading_append _ hclosed]
  · rw [compact_eq_dropNulls, compact_eq_dropNulls, compact_eq_dropNulls, dropNulls_append hclosed]

/-- A cut after two marks, and one inside a character of three bytes. -/
theorem passes_append_inside :
    let a : Bytes := [nullMark, escapeMark, escapeMark]
    let b : Bytes := [nullMark, escapeMark]
    let c : Bytes := [escapeMark, 0xe2, 0x82]
    let d : Bytes := [0xac, escapeMark, space]
    (Even (trailingMarks a) ∧
      Selective.decode .standard (a ++ b) = [nullMark, escapeMark] ++ [nullMark, escapeMark] ∧
      compact (a ++ b) = [escapeMark, escapeMark] ++ [escapeMark]) ∧
    Even (trailingMarks c) ∧
    (c ≠ bareEscape ∧ c ≠ quotedNull) ∧ (d ≠ bareEscape ∧ d ≠ quotedNull) ∧
    releaseSeparators .standard (c ++ d) = [escapeMark, 0xe2, 0x82] ++ [0xac, space] ∧
    Full.decode (c ++ d) = [0xe2, 0x82] ++ [0xac, space] := by
  intro a b c d
  have hpair : Even (trailingMarks a) := by decide
  have hone : Even (trailingMarks c) := by decide
  have hc : c ≠ bareEscape ∧ c ≠ quotedNull := by decide
  have hd : d ≠ bareEscape ∧ d ≠ quotedNull := by decide
  obtain ⟨hselective, hcompact, -⟩ := passes_append hpair b
  obtain ⟨hrelease, -, hfull⟩ := passes_append hone d
  refine ⟨⟨hpair, ?_, ?_⟩, hone, hc, hd, ?_, ?_⟩
  · rw [(hselective .standard).1]
    decide
  · rw [hcompact, compact_eq_dropNulls, compact_eq_dropNulls]
    decide
  · rw [(hrelease .standard).2]
    decide
  · rw [(hfull hc hd).1]
    decide

/-! ## Cuts between characters -/

theorem tailLength_append {lead : UInt8} {rest b : Bytes}
    (h : tailLength lead (rest ++ b) ≤ rest.length) :
    tailLength lead (rest ++ b) = tailLength lead rest := by
  unfold tailLength at h ⊢
  by_cases hlong : leadLength lead - 1 ≤ rest.length
  · rw [List.take_append_of_le_length hlong]
  · -- the first text breaks off, so the whole sequence would reach over the cut
    have hshort : ¬ (rest.take (leadLength lead - 1)).length = leadLength lead - 1 := by
      rw [List.length_take]
      omega
    simp only [hshort, false_and, if_false] at h ⊢
    split at h
    · rename_i hc
      omega
    · rename_i hc
      rw [if_neg hc]

theorem widthAt_append {a b : Bytes} {i : Nat} (hi : i < a.length)
    (h : i + widthAt (a ++ b) i ≤ a.length) : widthAt (a ++ b) i = widthAt a i := by
  have hdrop : (a ++ b).drop i = a[i] :: (a.drop (i + 1) ++ b) := by
    rw [List.drop_append_of_le_length hi.le, List.drop_eq_getElem_cons hi, List.cons_append]
  rw [widthAt, hdrop, width] at h ⊢
  rw [widthAt, List.drop_eq_getElem_cons hi, width, tailLength_append]
  rw [List.length_drop]
  omega

theorem Character.bytes_injective {c d : Character} (h : c.bytes = d.bytes) : c = d := by
  obtain ⟨lead, tail⟩ := c
  obtain ⟨rfl, rfl⟩ : lead = d.lead ∧ tail = d.tail := List.cons.inj h
  rfl

/-- Along the scan of the first text, which is that of the whole one as long as no character reaches
over the cut. -/
theorem characters_drop_append {a b : Bytes}
    (h : ∀ q < a.length, q + widthAt (a ++ b) q ≤ a.length) {i : Nat} (hi : i ≤ a.length) :
    characters ((a ++ b).drop i) = characters (a.drop i) ++ characters b := by
  induction hi using scan_induction with
  | done => rw [List.drop_left, List.drop_length, characters_nil, List.nil_append]
  | next i hi ih =>
    have hlt : i < (a ++ b).length := by
      rw [List.length_append]
      omega
    have hwidth := widthAt_append hi (h i hi)
    obtain ⟨c, hwhole, hc⟩ := exists_characters_drop_eq hlt
    obtain ⟨d, hfirst, hd⟩ := exists_characters_drop_eq hi
    have hcd : c = d := by
      apply Character.bytes_injective
      rw [hc, hd, hwidth, List.drop_append_of_le_length hi.le, List.take_append_of_le_length]
      rw [List.length_drop]
      have hreach := h i hi
      omega
    rw [hwhole, hfirst, hcd, hwidth, ih, List.cons_append]

theorem add_length_mem_endsFrom (start : Nat) (cs ds : List Character) :
    start + (cs.flatMap Character.bytes).length ∈ start :: endsFrom start (cs ++ ds) := by
  induction cs generalizing start with
  | nil => exact List.mem_cons_self
  | cons c cs ih =>
    have hsize : c.bytes.length = c.size := rfl
    rw [List.flatMap_cons, List.length_append, hsize, ← Nat.add_assoc]
    exact List.mem_cons_of_mem start (ih (start + c.size))

theorem characters_append_iff (a b : Bytes) :
    characters (a ++ b) = characters a ++ characters b ↔ a.length ∈ boundaries (a ++ b) := by
  constructor
  · intro h
    have hmem := add_length_mem_endsFrom 0 (characters a) (characters b)
    rw [flatMap_bytes_characters, Nat.zero_add, ← h] at hmem
    rwa [boundaries, boundariesFrom_eq (Nat.zero_le _), List.drop_zero]
  · intro h
    have hover := ((mem_boundaries_iff _).mp h).2
    apply characters_drop_append (fun q hq => ?_) (Nat.zero_le _)
    have hlt : q < (a ++ b).length := by
      rw [List.length_append]
      omega
    have hreach := hover q hlt
    omega

/-- The cut runs through a character exactly when an encoding begins before it and ends after it. -/
theorem length_mem_boundaries_iff (a b : Bytes) :
    a.length ∈ boundaries (a ++ b) ↔
      ¬ ∃ (c : Char) (i : Nat), String.utf8EncodeChar c <+: (a ++ b).drop i ∧
        i < a.length ∧ a.length < i + (String.utf8EncodeChar c).length := by
  have hle : a.length ≤ (a ++ b).length := by
    rw [List.length_append]
    exact Nat.le_add_right _ _
  rw [mem_boundaries_iff]
  constructor
  · rintro ⟨-, hover⟩ ⟨c, i, hc, hbegin, hend⟩
    apply hover i (hbegin.trans_le hle)
    rw [widthAt, width_of_encode hc]
    exact ⟨hbegin, hend⟩
  · intro h
    refine ⟨hle, fun q hq => ?_⟩
    rintro ⟨hbegin, hend⟩
    by_cases hc : ∃ c : Char, String.utf8EncodeChar c <+: (a ++ b).drop q
    · obtain ⟨c, hc⟩ := hc
      rw [widthAt, width_of_encode hc] at hend
      exact h ⟨c, q, hc, hbegin, hend⟩
    · have hrest : (a ++ b).drop q ≠ [] := by simpa using hq
      rw [widthAt, width_of_no_encode hrest (not_exists.mp hc)] at hend
      omega

theorem withMarks_inj {cs ds : List Character} :
    withMarks (fun _ => true) cs = withMarks (fun _ => true) ds ↔ cs = ds := by
  have hcons : ∀ (c : Character) (rest : List Character),
      withMarks (fun _ => true) (c :: rest) =
        .single escapeMark :: c :: withMarks (fun _ => true) rest := fun _ _ => rfl
  constructor
  · intro h
    induction cs generalizing ds with
    | nil =>
      cases ds with
      | nil => rfl
      | cons d ds => exact absurd h.symm (List.cons_ne_nil _ _)
    | cons c cs ih =>
      cases ds with
      | nil => exact absurd h (List.cons_ne_nil _ _)
      | cons d ds =>
        rw [hcons, hcons, List.cons_inj_right, List.cons.injEq] at h
        rw [h.1, ih h.2]
  · exact congrArg _

namespace Full

theorem exists_encode_eq_cons {s : Bytes} (h : s ≠ []) : ∃ rest, encode s = escapeMark :: rest := by
  cases s with
  | nil => exact absurd rfl h
  | cons lead rest => exact ⟨_, rfl⟩

theorem length_encode_mem_boundaries (t : Bytes) {b : Bytes} (hb : b ≠ []) :
    t.length ∈ boundaries (t ++ encode b) := by
  -- an encoding starts with a mark, and a mark is a character of its own
  obtain ⟨rest, hrest⟩ := exists_encode_eq_cons hb
  have hget : (t ++ encode b)[t.length]? = some escapeMark := by
    rw [List.getElem?_append_right le_rfl, Nat.sub_self, hrest]
    rfl
  exact (infix_boundaries_of_ascii hget (by decide)).subset List.mem_cons_self

/-- The characters can be read off an encoding, so two encodings that can be put together are those
of texts whose characters can. -/
theorem encode_append_iff_characters {a b : Bytes} (ha : a ≠ []) (hb : b ≠ []) :
    encode (a ++ b) = encode a ++ encode b ↔
      characters (a ++ b) = characters a ++ characters b := by
  have hab : a ++ b ≠ [] := List.append_ne_nil_of_left_ne_nil ha b
  constructor
  · intro h
    have hcut := (characters_append_iff (encode a) (encode b)).mpr
      (length_encode_mem_boundaries (encode a) hb)
    rw [← h, characters_encode hab, characters_encode ha, characters_encode hb] at hcut
    rw [← withMarks_inj, hcut]
    exact List.flatMap_append.symm
  · intro h
    rw [encode, encode, encode, if_neg (by simpa using hab), if_neg (by simpa using ha),
      if_neg (by simpa using hb), h]
    exact List.flatMap_append

/-- Two texts can be encoded by themselves exactly when the scan of both together stops at the cut,
which is when no character of more than one byte begins in the first text and ends in the second. -/
theorem encode_append_iff {a b : Bytes} (ha : a ≠ []) (hb : b ≠ []) :
    (encode (a ++ b) = encode a ++ encode b ↔ a.length ∈ boundaries (a ++ b)) ∧
    (a.length ∈ boundaries (a ++ b) ↔
      ¬ ∃ (c : Char) (i : Nat), String.utf8EncodeChar c <+: (a ++ b).drop i ∧
        i < a.length ∧ a.length < i + (String.utf8EncodeChar c).length) := by
  refine ⟨?_, length_mem_boundaries_iff a b⟩
  rw [encode_append_iff_characters ha hb, characters_append_iff]

/-- A cut between the second and the third byte of a character. -/
theorem encode_append_iff_euro :
    let a : Bytes := [0x41, 0xe2, 0x82]
    let b : Bytes := [0xac, 0xa9]
    a ≠ [] ∧ b ≠ [] ∧ a.length ∉ boundaries (a ++ b) ∧ encode (a ++ b) ≠ encode a ++ encode b := by
  intro a b
  have ha : a ≠ [] := by decide
  have hb : b ≠ [] := by decide
  obtain ⟨hencode, hboundaries⟩ := encode_append_iff ha hb
  have hcut : a.length ∉ boundaries (a ++ b) := by
    rw [hboundaries, not_not]
    exact ⟨Char.ofNat 0x20ac, 1, by decide, by decide, by decide⟩
  exact ⟨ha, hb, hcut, fun he => hcut (hencode.mp he)⟩

end Full
end SentinelQuoting
