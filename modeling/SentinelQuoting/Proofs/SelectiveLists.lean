import SentinelQuoting.Proofs.NullFlag
import SentinelQuoting.Proofs.SelectiveRoundTrip

/-! # Selective encoding of a list and back

When the escape mark is no separator, every text survives selective encoding and decoding. What need
not survive is the flag `hasQuotedNull`, because it is checked against every text in between: it
stays only where all of them are the quoted empty string. That is so for the quoted empty string
itself where the null mark is a separator, for then it is left bare, and for no other text. -/
namespace SentinelQuoting
set_option autoImplicit false

/-! ## Texts -/

namespace Selective

theorem protects_nullMark (ifs : Separators) :
    protects .expansion ifs nullMark = !ifs.contains nullMark := by
  simp [protects, isEndangered, isSentinel]

/-- Encoding never shortens, so the quoted empty string is written for itself only. -/
theorem encode_eq_quotedNull_iff (ifs : Separators) (s : Bytes) :
    encode .expansion ifs s = quotedNull ↔ s = quotedNull ∧ ifs.contains nullMark = true := by
  cases s with
  | nil => simp [encode, encodeIn, quotedNull]
  | cons b rest =>
    have hlen := length_le_length_flatMap_mark (protects .expansion ifs) rest
    rw [← encode_eq_flatMap] at hlen
    rw [encode_cons]
    constructor
    · intro h
      cases hp : protects .expansion ifs b with
      | true => simp [hp, quotedNull] at h
      | false =>
        simp only [hp, quotedNull] at h
        obtain ⟨rfl, hrest⟩ : b = nullMark ∧ encode .expansion ifs rest = [] := by simpa using h
        rw [hrest, List.length_nil, Nat.le_zero, List.length_eq_zero_iff] at hlen
        rw [protects_nullMark] at hp
        exact ⟨by rw [hlen, quotedNull], by simpa using hp⟩
    · rintro ⟨h, hnull⟩
      obtain ⟨rfl, rfl⟩ : b = nullMark ∧ rest = [] := by simpa [quotedNull] using h
      rw [protects_nullMark, hnull]
      rfl

end Selective

/-! ## Words -/

namespace Word

section Restored
variable (ifs : Separators) (w : Word)

/-- The word with its own text. It goes on being called the quoted empty string only where this is
its text, and encoding leaves it bare. -/
def restored : Word :=
  if w.text = quotedNull ∧ ifs.contains nullMark = true then w else w.clearFlag .hasQuotedNull

theorem text_restored : (w.restored ifs).text = w.text := by
  unfold restored
  split <;> rfl

theorem dropStaleNull_eq :
    w.dropStaleNull = if w.text = quotedNull then w else w.clearFlag .hasQuotedNull := by
  simp [dropStaleNull]

theorem clearFlag_clearFlag (mask : Flags) :
    (w.clearFlag mask).clearFlag mask = w.clearFlag mask := by
  have hflags : (w.flags.clear mask).clear mask = w.flags.clear mask :=
    Flags.ext_test fun i => by simp
  simp only [clearFlag, hflags]

theorem restored_restored : (w.restored ifs).restored ifs = w.restored ifs := by
  rw [restored, text_restored]
  split
  · rfl
  · rename_i hnull
    rw [restored, if_neg hnull, clearFlag_clearFlag]

theorem dropStaleNull_restored : (w.restored ifs).dropStaleNull = w.restored ifs := by
  rw [dropStaleNull_eq, text_restored, restored]
  split
  · rfl
  · rename_i hnull
    rw [if_neg fun h => hnull h.1, clearFlag_clearFlag]

theorem restored_withText_encode :
    (w.withText (Selective.encode .expansion ifs w.text)).restored ifs =
      (w.restored ifs).withText (Selective.encode .expansion ifs w.text) := by
  have htext : (w.withText (Selective.encode .expansion ifs w.text)).text = quotedNull ∧
      ifs.contains nullMark = true ↔ w.text = quotedNull ∧ ifs.contains nullMark = true := by
    rw [withText, Selective.encode_eq_quotedNull_iff, and_assoc, and_self]
  unfold restored
  simp only [htext]
  split <;> rfl

theorem escape_eq :
    w.escape ifs = (w.restored ifs).withText (Selective.encode .expansion ifs w.text) := by
  have htext : (w.withText (Selective.encode .expansion ifs w.text)).text = quotedNull ↔
      w.text = quotedNull ∧ ifs.contains nullMark = true :=
    Selective.encode_eq_quotedNull_iff ifs w.text
  rw [escape, dropStaleNull_eq, restored]
  simp only [htext]
  split <;> rfl

theorem restored_escape : (w.escape ifs).restored ifs = (w.restored ifs).escape ifs := by
  have h := restored_withText_encode ifs (w.restored ifs)
  rw [text_restored] at h
  rw [escape_eq, h, escape_eq, text_restored]

end Restored

section RoundTrip
variable {ifs : Separators} (h : ifs.contains escapeMark = false)
include h

theorem unescape_escape (w : Word) : (w.escape ifs).unescape ifs = w.restored ifs := by
  have htext : (w.escape ifs).text = Selective.encode .expansion ifs w.text := by
    rw [escape_eq]
    rfl
  have hback : (w.escape ifs).withText w.text = w.restored ifs := by
    rw [escape_eq, ← text_restored ifs w]
    rfl
  rw [unescape, htext, Selective.decode_encode (Selective.protects_expansion rfl h),
    hback, dropStaleNull_restored]

/-- The encoding made last is the first that is decoded, and what that leaves behind could as well
have been done to the word at the start. -/
theorem iterate_unescape_escape (k : Nat) (w : Word) :
    (unescape ifs)^[k + 1] ((escape ifs)^[k + 1] w) = w.restored ifs := by
  induction k generalizing w with
  | zero => exact unescape_escape h w
  | succ k ih =>
    have hcomm : Function.Commute (restored ifs) (escape ifs) := restored_escape ifs
    calc (unescape ifs)^[k + 2] ((escape ifs)^[k + 2] w)
        = (unescape ifs)^[k + 1] ((((escape ifs)^[k + 1] w).escape ifs).unescape ifs) := by
          rw [Function.iterate_succ_apply' (escape ifs), Function.iterate_succ_apply]
      _ = (unescape ifs)^[k + 1] ((escape ifs)^[k + 1] (w.restored ifs)) := by
          rw [unescape_escape h, hcomm.iterate_right (k + 1) w]
      _ = w.restored ifs := by rw [ih, restored_restored]

end RoundTrip

theorem test_restored (ifs : Separators) (w : Word) {i : Nat} (hi : i ≠ 1) :
    (w.restored ifs).flags.test i = w.flags.test i := by
  unfold restored
  split
  · rfl
  · simp [clearFlag, Flags.test_hasQuotedNull, hi]

theorem hasQuotedNull_restored_iff (ifs : Separators) (w : Word) :
    (w.restored ifs).hasFlag .hasQuotedNull = true ↔
      w.hasFlag .hasQuotedNull = true ∧ w.text = quotedNull ∧ ifs.contains nullMark = true := by
  unfold restored
  split
  · rename_i hnull
    exact ⟨fun hflag => ⟨hflag, hnull⟩, fun hflag => hflag.1⟩
  · rename_i hnull
    rw [hasQuotedNull_clearFlag]
    exact ⟨fun hflag => absurd hflag (by decide), fun hflag => absurd hflag.2 hnull⟩

end Word

/-! ## Pools -/

namespace Pool

theorem getElem?_unescape_escape {ifs : Separators} (h : ifs.contains escapeMark = false)
    (pool : Pool) (places : List Nat) (i : Nat) :
    ((pool.visit (Word.escape ifs) places).visit (Word.unescape ifs) places)[i]? =
      pool[i]?.map fun w => if i ∈ places then w.restored ifs else w := by
  rw [getElem?_visit, getElem?_visit, Option.map_map]
  congr 1
  funext w
  by_cases hi : i ∈ places
  · obtain ⟨k, hk⟩ := Nat.exists_eq_succ_of_ne_zero (List.count_pos_iff.mpr hi).ne'
    rw [if_pos hi, hk]
    exact Word.iterate_unescape_escape h k w
  · rw [if_neg hi, List.count_eq_zero_of_not_mem hi]
    rfl

/-- Selective encoding of a list and decoding of the same list, where the escape mark is no
separator: every word has its text again, and no flag has changed but one. A listed word still
carries the flag `hasQuotedNull` when it carried it before, its text is the quoted empty string and
the null mark is a separator. -/
theorem perform_unescape_escape {ifs : Separators} (h : ifs.contains escapeMark = false)
    (pool : Pool) (places : List Nat) (sink : Sink) :
    let escaped := pool.perform (.escape ifs places) sink
    let last := escaped.pool.perform (.unescape ifs places) escaped.sink
    escaped.fault = none ∧ last.fault = none ∧ last.sink = sink ∧
      last.pool.length = pool.length ∧
      ∀ (i : Nat) (w : Word), pool[i]? = some w → ∃ after, last.pool[i]? = some after ∧
        after.text = w.text ∧
        (i ∈ places → (after.hasFlag .hasQuotedNull = true ↔
          w.hasFlag .hasQuotedNull = true ∧ w.text = quotedNull ∧
            ifs.contains nullMark = true)) ∧
        (∀ j, Flags.hasQuotedNull.test j = false → after.flags.test j = w.flags.test j) ∧
        (i ∉ places → after = w) := by
  intro escaped last
  refine ⟨rfl, rfl, rfl, ?_, fun i w hw => ?_⟩
  · rw [length_perform, length_perform]
  refine ⟨if i ∈ places then w.restored ifs else w, ?_, ?_, fun hi => ?_, fun j hj => ?_,
    fun hi => if_neg hi⟩
  · have hlast := getElem?_unescape_escape h pool places i
    rw [hw] at hlast
    exact hlast
  · split
    · exact w.text_restored ifs
    · rfl
  · rw [if_pos hi]
    exact w.hasQuotedNull_restored_iff ifs
  · rw [Flags.test_hasQuotedNull, decide_eq_false_iff_not] at hj
    split
    · exact w.test_restored ifs hj
    · rfl

/-- Three words that carry the flag, two of them listed several times. The null mark is a separator,
so only the word whose text is the quoted empty string keeps it. -/
theorem perform_unescape_escape_null :
    let ifs : Separators := ⟨[nullMark]⟩
    let pool : Pool := [⟨quotedNull, ⟨6⟩⟩, ⟨[escapeMark, nullMark], ⟨3⟩⟩, ⟨[space], ⟨2⟩⟩]
    let places := [1, 0, 1, 0, 0]
    let last := (pool.perform (.escape ifs places) .silent).pool.perform (.unescape ifs places)
      .silent
    ifs.contains escapeMark = false ∧
    (∃ after, last.pool[0]? = some after ∧ after.hasFlag .hasQuotedNull = true ∧
      after.flags.test 2 = true) ∧
    (∃ after, last.pool[1]? = some after ∧ after.text = [escapeMark, nullMark] ∧
      after.hasFlag .hasQuotedNull = false) ∧
    last.pool[2]? = some ⟨[space], ⟨2⟩⟩ := by
  intro ifs pool places last
  have hmark : ifs.contains escapeMark = false := by decide
  obtain ⟨-, -, -, -, hwords⟩ := perform_unescape_escape hmark pool places .silent
  obtain ⟨zero, hzero, -, hzeroflag, hzeroothers, -⟩ := hwords 0 ⟨quotedNull, ⟨6⟩⟩ rfl
  obtain ⟨one, hone, honetext, honeflag, -, -⟩ := hwords 1 ⟨[escapeMark, nullMark], ⟨3⟩⟩ rfl
  obtain ⟨two, htwo, -, -, -, hunlisted⟩ := hwords 2 ⟨[space], ⟨2⟩⟩ rfl
  refine ⟨hmark, ⟨zero, hzero, ?_, ?_⟩, ⟨one, hone, honetext, ?_⟩, ?_⟩
  · exact (hzeroflag (by decide)).mpr ⟨by decide, rfl, by decide⟩
  · rw [hzeroothers 2 (by decide)]
    decide
  · rw [← Bool.not_eq_true, honeflag (by decide)]
    decide
  · obtain rfl := hunlisted (by decide)
    exact htwo

end Pool
end SentinelQuoting
