import SentinelQuoting.Encoding.Full
import SentinelQuoting.Encoding.Selective
import SentinelQuoting.Proofs.Reading

/-! # What the decoders do to each byte

Both decoders are rules for the pieces of a text, and neither its characters nor the shortcut for a
text without marks shows in the result. The full decoder reads two whole texts by themselves; one
of them is also the only text that it reports. -/
namespace SentinelQuoting
set_option autoImplicit false

/-! ## Rules that copy tails -/

theorem copiesTail_content : CopiesTail Piece.content where
  bare _ _ := rfl
  guarded _ := rfl
  high _ _ := rfl

theorem copiesTail_release (released : UInt8 → Bool) : CopiesTail (Piece.release released) where
  bare _ _ := rfl
  guarded c := by
    unfold Piece.release
    by_cases h : released c.lead
    · simp [h, Character.single, Character.bytes]
    · simp [h, Character.single, Character.bytes]
  high _ _ := rfl

theorem copiesTail_withoutNull : CopiesTail Piece.withoutNull where
  bare c hs := by
    by_cases h : c.isNull = true
    · have hlead : c.lead = nullMark := by simpa [Character.isNull] using h
      have htail : c.tail = [] := hs.tail_eq_nil (by rw [hlead]; decide)
      rw [htail, List.append_nil, Character.single, hlead, Piece.withoutNull, if_pos h]
      rfl
    · have hsingle : (Character.single c.lead).isNull = c.isNull := rfl
      rw [Piece.withoutNull, Piece.withoutNull, hsingle, if_neg h, if_neg h]
      rfl
  guarded _ := rfl
  high b hb := by
    have hnull : (Character.single b).isNull = false := by
      simpa [Character.isNull, Character.single] using ne_of_high hb (c := nullMark) (by decide)
    rw [Piece.withoutNull, hnull]
    rfl

/-! ## The decoders -/

theorem flatMap_reading_of_no_mark {f : Piece → Bytes} {s : Bytes} (h : escapeMark ∉ s)
    (hf : ∀ b ∈ s, f (.bare (.single b)) = [b]) : (reading s).flatMap f = s := by
  rw [reading_of_no_mark h, List.flatMap_map]
  calc s.flatMap (fun b => f (.bare (.single b))) = s.flatMap (fun b => [b]) :=
        List.flatMap_congr hf
    _ = s := by simp

theorem Selective.decode_eq (ifs : Separators) (s : Bytes) :
    decode ifs s = (reading s).flatMap (Piece.release (isEndangered ifs)) := by
  unfold decode releaseIn
  by_cases h : s.contains escapeMark = true
  · rw [if_pos h, flatMap_pieces_characters (copiesTail_release _)]
  · have hmark : escapeMark ∉ s := by simpa using h
    rw [if_neg h, flatMap_reading_of_no_mark hmark fun _ _ => rfl]

namespace Full

theorem decode_eq {s : Bytes} (hbare : s ≠ bareEscape) (hnull : s ≠ quotedNull) :
    decode s = (reading s).flatMap Piece.content := by
  unfold decode contentOf
  rw [if_neg hbare, if_neg (by simpa using hnull)]
  by_cases h : s.contains escapeMark = true
  · rw [if_pos h, flatMap_pieces_characters copiesTail_content]
  · have hmark : escapeMark ∉ s := by simpa using h
    rw [if_neg h, flatMap_reading_of_no_mark hmark fun _ _ => rfl]

@[simp] theorem decode_quotedNull : decode quotedNull = [] := rfl

theorem report_of_ne {s : Bytes} (h : s ≠ bareEscape) (sink : Sink) :
    report s sink = .ok () sink := by
  rw [report, if_neg h]
  rfl

theorem decodeReporting_eq {s : Bytes} (hbare : s ≠ bareEscape) (sink : Sink) :
    decodeReporting s sink = .ok (decode s) sink := by
  unfold decodeReporting report
  rw [if_neg hbare]
  rfl

end Full
end SentinelQuoting
