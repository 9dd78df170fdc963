import Mathlib.Data.Finset.Range
import SentinelQuoting.Proofs.Spelling

/-! # Full decoding gives the text back

The full encoder puts a mark in front of every character, but the decoder does not rely on that. It
gives back every text into which marks were put at some positions, inside a longer character or not,
as long as no mark of the text itself was left out. The one exception is the null mark alone, which
without a mark of its own is the empty text. -/
namespace SentinelQuoting.Full
set_option autoImplicit false

/-- The text with a mark in front of each of these positions. -/
def insertMarks (positions : Finset Nat) (s : Bytes) : Bytes :=
  s.zipIdx.flatMap fun (b, i) => if i ∈ positions then [escapeMark, b] else [b]

def marked (positions : Finset Nat) (s : Bytes) : List Piece :=
  ofBytes (fun x => decide (x.2 ∈ positions)) Prod.fst s.zipIdx

theorem insertMarks_eq_spell (positions : Finset Nat) (s : Bytes) :
    insertMarks positions s = spell (marked positions s) := by
  rw [insertMarks, marked, spell_ofBytes]
  simp only [decide_eq_true_eq]

theorem flatMap_content_marked (positions : Finset Nat) (s : Bytes) :
    (marked positions s).flatMap Piece.content = s := by
  rw [marked, flatMap_content_ofBytes, List.zipIdx_map_fst]

section Marked
variable {positions : Finset Nat} {s : Bytes}
  (hmarks : ∀ i, s[i]? = some escapeMark → i ∈ positions)
include hmarks

theorem legible_of_mem_marked : ∀ p ∈ marked positions s, p.Legible := by
  apply legible_of_mem_ofBytes
  intro x hx hb
  have hget : s[x.2]? = some x.1 := List.mem_zipIdx_iff_getElem?.mp hx
  rw [hb] at hget
  exact decide_eq_true (hmarks x.2 hget)

theorem insertMarks_eq_quotedNull_iff (hpos : positions ⊆ Finset.range s.length) :
    insertMarks positions s = quotedNull ↔ s = [nullMark] ∧ positions = ∅ := by
  constructor
  · intro h
    have hpieces : marked positions s = [nullPiece] := by
      rw [← reading_spell (legible_of_mem_marked hmarks), ← insertMarks_eq_spell, h]
      rfl
    have hs : s = [nullMark] := by
      rw [← flatMap_content_marked positions s, hpieces]
      rfl
    subst hs
    refine ⟨rfl, Finset.eq_empty_of_forall_notMem fun i hi => ?_⟩
    have hzero : i = 0 := by simpa using hpos hi
    rw [hzero] at hi
    have hbyte : Piece.ofByte (decide (0 ∈ positions)) nullMark = nullPiece := by
      simpa [marked, ofBytes] using hpieces
    rw [Piece.ofByte_eq_nullPiece_iff, decide_eq_false_iff_not] at hbyte
    exact hbyte.1 hi
  · intro ⟨hs, hempty⟩
    rw [hs, hempty]
    rfl

theorem decodeReporting_insertMarks (sink : Sink) :
    decodeReporting (insertMarks positions s) sink =
      .ok (if insertMarks positions s = quotedNull then [] else s) sink := by
  by_cases h : insertMarks positions s = quotedNull
  · rw [if_pos h, h, decodeReporting_eq (by decide), decode_quotedNull]
  · rw [if_neg h]
    rw [insertMarks_eq_spell] at h ⊢
    rw [decodeReporting_spell (legible_of_mem_marked hmarks) h, flatMap_content_marked]

end Marked

theorem decodeReporting_encode (s : Bytes) (sink : Sink) :
    decodeReporting (encode s) sink = .ok s sink := by
  by_cases h : s = []
  · subst h
    exact decodeReporting_eq (s := quotedNull) (by decide) sink
  · have hnull : spell (written s) ≠ quotedNull :=
      spell_ne_quotedNull (legible_of_mem_written s) (nullPiece_not_mem_written s)
    rw [encode_eq_spell h, decodeReporting_spell (legible_of_mem_written s) hnull,
      flatMap_content_written]

/-- Full decoding undoes full encoding and every other choice of marked positions that has the marks
of the text in it. Nothing is reported, so the sink is as it was. -/
theorem decode_encode_and_insertMarks :
    (∀ (s : Bytes) (sink : Sink), decodeReporting (encode s) sink = .ok s sink) ∧
    ∀ (s : Bytes) (positions : Finset Nat), positions ⊆ Finset.range s.length →
      (∀ i, s[i]? = some escapeMark → i ∈ positions) →
      (insertMarks positions s = quotedNull ↔ s = [nullMark] ∧ positions = ∅) ∧
      ∀ sink : Sink, decodeReporting (insertMarks positions s) sink =
        .ok (if insertMarks positions s = quotedNull then [] else s) sink := by
  constructor
  · exact decodeReporting_encode
  · intro s positions hpos hmarks
    exact ⟨insertMarks_eq_quotedNull_iff hmarks hpos, decodeReporting_insertMarks hmarks⟩

/-- Marks inside a character of three bytes and in front of a mark, with a sink that always fails. -/
theorem decode_insertMarks_inside :
    ({1, 3} : Finset Nat) ⊆ Finset.range [0xe2, 0x82, 0xac, escapeMark].length ∧
    (∀ i, [0xe2, 0x82, 0xac, escapeMark][i]? = some escapeMark → i ∈ ({1, 3} : Finset Nat)) ∧
    decodeReporting [0xe2, 0x01, 0x82, 0xac, 0x01, 0x01]
        (.writer (.fresh true (fun _ => true) fun _ => true)) =
      .ok [0xe2, 0x82, 0xac, escapeMark] (.writer (.fresh true (fun _ => true) fun _ => true)) := by
  have hpos : ({1, 3} : Finset Nat) ⊆ Finset.range [0xe2, 0x82, 0xac, escapeMark].length := by decide
  have hmarks : ∀ i, [0xe2, 0x82, 0xac, escapeMark][i]? = some escapeMark →
      i ∈ ({1, 3} : Finset Nat) := by
    intro i hi
    obtain ⟨hlt, hget⟩ := List.getElem?_eq_some_iff.mp hi
    have hcases : ∀ j : Fin 4, [0xe2, 0x82, 0xac, escapeMark][j] = escapeMark →
        j.val ∈ ({1, 3} : Finset Nat) := by decide
    exact hcases ⟨i, hlt⟩ hget
  exact ⟨hpos, hmarks, (decode_encode_and_insertMarks.2 _ _ hpos hmarks).2 _⟩

end SentinelQuoting.Full
