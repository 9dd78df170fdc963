import Mathlib.Data.Nat.Bitwise
import SentinelQuoting.Proofs.Spelling
import SentinelQuoting.Proofs.Visits

/-! # The flag of the quoted empty string

A word that carries the flag `hasQuotedNull` says that its text is exactly the quoted empty string.
Decoding keeps what is said true: it takes the flag off the only text that it empties, and it can
make the quoted empty string of other texts, which must not carry the flag. Every other change
makes it true, whatever was said before. So it is true after every run that starts with it true,
also when a sink fails half way. -/
namespace SentinelQuoting
set_option autoImplicit false

/-! ## Single flags -/

namespace Flags

theorem test_quoted (i : Nat) : Flags.quoted.test i = decide (i = 0) := by
  have h : Flags.quoted.bits = 2 ^ 0 := rfl
  rw [test, h, Nat.testBit_two_pow]
  exact decide_eq_decide.mpr eq_comm

theorem test_hasQuotedNull (i : Nat) : Flags.hasQuotedNull.test i = decide (i = 1) := by
  have h : Flags.hasQuotedNull.bits = 2 ^ 1 := rfl
  rw [test, h, Nat.testBit_two_pow]
  exact decide_eq_decide.mpr eq_comm

theorem meets_two_pow (f : Flags) (i : Nat) : f.meets ⟨2 ^ i⟩ = f.test i := by
  rw [meets, test, Nat.and_two_pow]
  cases f.bits.testBit i with
  | false => simp
  | true => simp

theorem meets_quoted (f : Flags) : f.meets .quoted = f.test 0 := meets_two_pow f 0

theorem meets_hasQuotedNull (f : Flags) : f.meets .hasQuotedNull = f.test 1 := meets_two_pow f 1

end Flags

/-! ## What each change does to the flag -/

theorem Full.encode_eq_quotedNull_iff (s : Bytes) : Full.encode s = quotedNull ↔ s = [] := by
  constructor
  · intro h
    by_contra hs
    rw [Full.encode_eq_spell hs] at h
    exact spell_ne_quotedNull (Full.legible_of_mem_written s) (Full.nullPiece_not_mem_written s) h
  · rintro rfl
    rfl

namespace Word

theorem hasFlag_hasQuotedNull (w : Word) : w.hasFlag .hasQuotedNull = w.flags.test 1 :=
  Flags.meets_hasQuotedNull w.flags

/-- What the flag `hasQuotedNull` says of the text is true. -/
def Consistent (w : Word) : Prop := w.hasFlag .hasQuotedNull = true → w.text = quotedNull

instance : DecidablePred Consistent := fun w =>
  inferInstanceAs (Decidable (w.hasFlag .hasQuotedNull = true → w.text = quotedNull))

theorem text_encode (w : Word) : w.encode.text = Full.encode w.text := by
  unfold encode
  cases w.text.isEmpty <;> rfl

theorem text_decode (w : Word) : w.decode.text = Full.decode w.text := by
  unfold decode withDecoded
  cases isQuotedNull w.text <;> rfl

theorem hasQuotedNull_encode (w : Word) : w.encode.hasFlag .hasQuotedNull = w.text.isEmpty := by
  rw [hasFlag_hasQuotedNull, encode]
  cases w.text.isEmpty with
  | false => simp [setFlag, clearFlag, withText, Flags.test_quoted, Flags.test_hasQuotedNull]
  | true => simp [setFlag, withText, Flags.test_quoted, Flags.test_hasQuotedNull]

theorem hasQuotedNull_clearFlag (w : Word) :
    (w.clearFlag .hasQuotedNull).hasFlag .hasQuotedNull = false := by
  rw [hasFlag_hasQuotedNull]
  simp [clearFlag, Flags.test_hasQuotedNull]

theorem consistent_of_not_hasFlag {w : Word} (h : w.hasFlag .hasQuotedNull = false) :
    w.Consistent := by
  intro hflag
  rw [h] at hflag
  exact absurd hflag (by decide)

theorem hasQuotedNull_encode_iff (w : Word) :
    w.encode.hasFlag .hasQuotedNull = true ↔ w.encode.text = quotedNull := by
  rw [hasQuotedNull_encode, text_encode, Full.encode_eq_quotedNull_iff, List.isEmpty_iff]

theorem consistent_encode (w : Word) : w.encode.Consistent := (hasQuotedNull_encode_iff w).mp

theorem consistent_dropStaleNull (w : Word) : w.dropStaleNull.Consistent := by
  unfold dropStaleNull
  by_cases h : isQuotedNull w.text = true
  · rw [if_pos h]
    exact fun _ => (isQuotedNull_iff w.text).mp h
  · rw [if_neg h]
    exact consistent_of_not_hasFlag (hasQuotedNull_clearFlag w)

theorem consistent_dropNulls (w : Word) : w.dropNulls.Consistent :=
  consistent_of_not_hasFlag (hasQuotedNull_clearFlag _)

/-- A text that is decoded and keeps its flags was not the quoted empty string, so the flag was not
set, whatever the text has become. -/
theorem Consistent.hasQuotedNull_decode {w : Word} (h : w.Consistent) :
    w.decode.hasFlag .hasQuotedNull = false := by
  unfold Word.decode withDecoded
  by_cases hnull : isQuotedNull w.text = true
  · rw [if_pos hnull, hasQuotedNull_clearFlag]
  · rw [if_neg hnull, ← Bool.not_eq_true]
    exact fun hflag => hnull ((isQuotedNull_iff w.text).mpr (h hflag))

theorem Consistent.decode {w : Word} (h : w.Consistent) : w.decode.Consistent :=
  consistent_of_not_hasFlag h.hasQuotedNull_decode

theorem Consistent.change {w : Word} (h : w.Consistent) (operation : Operation) :
    (operation.change w).Consistent := by
  cases operation with
  | encode places => exact consistent_encode w
  | decode places => exact h.decode
  | decodeOne place => exact h.decode
  | escape ifs places => exact consistent_dropStaleNull _
  | unescape ifs places => exact consistent_dropStaleNull _
  | dropNulls places => exact consistent_dropNulls w

/-! ## What each change does to the other flags -/

theorem test_encode (w : Word) {i : Nat} (hi : i ≠ 1) :
    w.encode.flags.test i = (w.flags.test i || decide (i = 0)) := by
  unfold encode
  cases w.text.isEmpty <;>
    simp [setFlag, clearFlag, withText, Flags.test_quoted, Flags.test_hasQuotedNull, hi]

theorem test_dropNulls (w : Word) {i : Nat} (hi : i ≠ 1) :
    w.dropNulls.flags.test i = w.flags.test i := by
  simp [dropNulls, clearFlag, withText, Flags.test_hasQuotedNull, hi]

theorem test_decode (w : Word) {i : Nat} (hi : i ≠ 1) :
    w.decode.flags.test i = w.flags.test i := by
  unfold decode withDecoded
  cases isQuotedNull w.text <;> simp [clearFlag, withText, Flags.test_hasQuotedNull, hi]

end Word

/-! ## Runs -/

namespace Pool

/-- Words whose flag is true to its name stay so after every call of a run. All passes but decoding
make it true for the words that they list, and after full encoding it holds in both directions. -/
theorem consistent_performAll :
    (∀ pool : Pool, (∀ w ∈ pool, w.Consistent) → ∀ (calls : List (Operation × Sink)) (n : Nat),
      ∀ w ∈ pool.performAll (calls.take n), w.Consistent) ∧
    (∀ (pool : Pool) (places : List Nat) (ifs : Separators) (sink : Sink),
      ∀ operation ∈ [Operation.encode places, .escape ifs places, .unescape ifs places,
        .dropNulls places],
      ∀ place ∈ places, ∀ w, (pool.perform operation sink).pool[place]? = some w →
        w.Consistent) ∧
    ∀ (pool : Pool) (places : List Nat) (sink : Sink), ∀ place ∈ places, ∀ w,
      (pool.perform (.encode places) sink).pool[place]? = some w →
        (w.hasFlag .hasQuotedNull = true ↔ w.text = quotedNull) := by
  refine ⟨fun pool h calls n => ?_, fun pool places ifs sink operation hop place hplace w hw => ?_,
    fun pool places sink place hplace w hw => ?_⟩
  · exact forall_mem_performAll (fun operation _ hw => hw.change operation) (calls.take n) h
  · simp only [List.mem_cons, List.not_mem_nil, or_false] at hop
    rcases hop with rfl | rfl | rfl | rfl
    · exact of_getElem?_visit Word.Consistent Word.consistent_encode hplace hw
    · exact of_getElem?_visit Word.Consistent (fun _ => Word.consistent_dropStaleNull _) hplace hw
    · exact of_getElem?_visit Word.Consistent (fun _ => Word.consistent_dropStaleNull _) hplace hw
    · exact of_getElem?_visit Word.Consistent Word.consistent_dropNulls hplace hw
  · exact of_getElem?_visit (fun v => v.hasFlag .hasQuotedNull = true ↔ v.text = quotedNull)
      Word.hasQuotedNull_encode_iff hplace hw

/-- A run whose sink fails in the middle of a list that names one word twice, and a word whose flag
is wrong at first. -/
theorem consistent_performAll_failing :
    let pool : Pool := [⟨quotedNull, ⟨2⟩⟩, ⟨[escapeMark, escapeMark], ⟨4⟩⟩, ⟨[], ⟨1⟩⟩]
    let sink : Sink := .writer (.fresh false (fun _ => false) fun _ => true)
    let calls := [(Operation.encode [2, 0, 2], sink), (.decode [0, 1, 1, 2], sink),
      (.unescape ⟨[]⟩ [2, 0], sink)]
    let stale : Pool := [⟨[escapeMark, nullMark], ⟨2⟩⟩]
    (∀ w ∈ pool, w.Consistent) ∧
    ((pool.performAll (calls.take 1)).perform (.decode [0, 1, 1, 2]) sink).fault = some .flush ∧
    (∀ w ∈ pool.performAll (calls.take 2), w.Consistent) ∧
    ¬ (∀ w ∈ stale, w.Consistent) ∧
    (∀ w, (stale.perform (.unescape ⟨[]⟩ [0]) sink).pool[0]? = some w → w.Consistent) ∧
    ∀ w, (stale.perform (.encode [0]) sink).pool[0]? = some w →
      (w.hasFlag .hasQuotedNull = true ↔ w.text = quotedNull) := by
  have hpool : ∀ w ∈ ([⟨quotedNull, ⟨2⟩⟩, ⟨[escapeMark, escapeMark], ⟨4⟩⟩, ⟨[], ⟨1⟩⟩] : Pool),
      w.Consistent := by decide
  refine ⟨hpool, by decide, ?_, by decide, ?_, ?_⟩
  · exact consistent_performAll.1 _ hpool _ 2
  · exact consistent_performAll.2.1 _ [0] ⟨[]⟩ _ (.unescape ⟨[]⟩ [0]) (by decide) 0 (by decide)
  · exact consistent_performAll.2.2 _ [0] _ 0 (by decide)

end Pool
end SentinelQuoting
