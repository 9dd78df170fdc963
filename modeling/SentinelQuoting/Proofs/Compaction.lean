import SentinelQuoting.NullMark.Compaction
import SentinelQuoting.NullMark.Removal
import SentinelQuoting.Proofs.Decoding

/-! # Compaction removes the null marks

A buffer that is being compacted still holds, from `read` on, what it held at first, and before
`write` it holds what the plain removal leaves of the bytes already read (`Tracks`). What a step
keeps together is a stretch without null marks or a mark with the character after it, so it ends
where no mark is open, and the removal can be done stretch by stretch. At the end everything has
been read: compaction is the plain removal (`compact_eq_dropNulls`). -/
namespace SentinelQuoting
set_option autoImplicit false

/-! ## The plain removal -/

theorem dropNulls_eq (s : Bytes) : dropNulls s = (reading s).flatMap Piece.withoutNull :=
  flatMap_pieces_characters copiesTail_withoutNull s

theorem dropNulls_append {a : Bytes} (h : Closed a) (b : Bytes) :
    dropNulls (a ++ b) = dropNulls a ++ dropNulls b := by
  rw [dropNulls_eq, dropNulls_eq, dropNulls_eq, reading_append h, List.flatMap_append]

theorem dropNulls_guarded (b : UInt8) (rest : Bytes) :
    dropNulls (escapeMark :: b :: rest) = escapeMark :: b :: dropNulls rest := by
  rw [dropNulls_eq, dropNulls_eq, reading_guarded, List.flatMap_cons]
  rfl

theorem dropNulls_bare {b : UInt8} (h : b ≠ escapeMark) (rest : Bytes) :
    dropNulls (b :: rest) = (if b = nullMark then [] else [b]) ++ dropNulls rest := by
  have hbyte : (Piece.bare (.single b)).withoutNull = if b = nullMark then [] else [b] := by
    simp [Piece.withoutNull, Character.isNull, Character.single, Character.bytes]
  rw [dropNulls_eq, reading_bare h, List.flatMap_cons, hbyte, ← dropNulls_eq]

theorem dropNulls_of_no_null {s : Bytes} (h : nullMark ∉ s) : dropNulls s = s := by
  induction s using reading_induction with
  | nil => rfl
  | dangling => rfl
  | guarded b rest ih =>
    rw [dropNulls_guarded, ih fun hm => h (by simp [hm])]
  | bare b rest hb ih =>
    have hne : b ≠ nullMark := fun he => h (by simp [he])
    rw [dropNulls_bare hb, if_neg hne, ih fun hm => h (List.mem_cons_of_mem b hm)]
    rfl

namespace Compaction

/-! ## What is kept together -/

theorem take_stretch (s : Bytes) : s.take (stretch s) = s.takeWhile fun b => !isSentinel b :=
  (List.prefix_iff_eq_take.mp (List.takeWhile_prefix _)).symm

theorem not_sentinel_of_mem_stretch {s : Bytes} {b : UInt8} (h : b ∈ s.take (stretch s)) :
    b ≠ escapeMark ∧ b ≠ nullMark := by
  rw [take_stretch] at h
  have hall : ((s.takeWhile fun b => !isSentinel b).all fun b => !isSentinel b) = true :=
    List.all_takeWhile
  have hb := List.all_eq_true.mp hall b h
  simpa [isSentinel] using hb

/-- A mark with the character after it loses nothing, whatever the character is. -/
theorem kept_mark (rest : Bytes) :
    dropNulls (escapeMark :: rest.take (width rest)) = escapeMark :: rest.take (width rest) ∧
      (rest ≠ [] → Closed (escapeMark :: rest.take (width rest))) := by
  cases rest with
  | nil => exact ⟨rfl, fun h => absurd rfl h⟩
  | cons lead tail =>
    have hhigh : ∀ b ∈ tail.take (tailLength lead tail), 0x80 ≤ b := fun b hb => high_of_mem_tail hb
    rw [width, List.take_succ_cons, dropNulls_guarded,
      dropNulls_of_no_null fun hm => ne_of_high (hhigh _ hm) (by decide) rfl]
    refine ⟨rfl, fun _ => ?_⟩
    have hclosed : Closed (tail.take (tailLength lead tail)) :=
      closed_of_no_mark fun hm => ne_of_high (hhigh _ hm) (by decide) rfl
    exact (closed_guarded lead _).mpr hclosed

theorem kept_stretch (s : Bytes) :
    dropNulls (s.take (stretch s)) = s.take (stretch s) ∧ Closed (s.take (stretch s)) :=
  ⟨dropNulls_of_no_null fun hm => (not_sentinel_of_mem_stretch hm).2 rfl,
    closed_of_no_mark fun hm => (not_sentinel_of_mem_stretch hm).1 rfl⟩

theorem kept_span {m : Compaction} (h : m.read < m.buffer.length) :
    dropNulls ((m.buffer.drop m.read).take m.span) = (m.buffer.drop m.read).take m.span ∧
      (m.read + m.span < m.buffer.length → Closed ((m.buffer.drop m.read).take m.span)) := by
  unfold span
  split
  · rename_i he
    rw [List.getElem?_eq_getElem h, Option.some_inj] at he
    rw [List.drop_eq_getElem_cons h, he, List.take_succ_cons]
    obtain ⟨hkept, hclosed⟩ := kept_mark (m.buffer.drop (m.read + 1))
    refine ⟨hkept, fun hlt => hclosed fun hnil => ?_⟩
    have hlen := List.drop_eq_nil_iff.mp hnil
    omega
  · obtain ⟨hkept, hclosed⟩ := kept_stretch (m.buffer.drop m.read)
    exact ⟨hkept, fun _ => hclosed⟩

/-! ## Moving down -/

theorem take_moveDown {m : Compaction} {count : Nat} (hw : m.write ≤ m.read)
    (hc : m.read + count ≤ m.buffer.length) :
    (m.moveDown count).take (m.write + count) =
      m.buffer.take m.write ++ (m.buffer.drop m.read).take count := by
  unfold moveDown
  split
  · unfold overwrite
    rw [List.take_left']
    simp only [List.length_append, List.length_take, List.length_drop]
    omega
  · have he : m.write = m.read := by omega
    rw [he, List.take_add]

theorem drop_moveDown {m : Compaction} {count : Nat}
    (hc : m.read + count ≤ m.buffer.length) :
    (m.moveDown count).drop (m.read + count) = m.buffer.drop (m.read + count) := by
  unfold moveDown
  split
  · have hslice : ((m.buffer.drop m.read).take count).length = count := by
      simp only [List.length_take, List.length_drop]
      omega
    have hfront : (m.buffer.take m.write ++ (m.buffer.drop m.read).take count).length =
        m.write + count := by
      rw [List.length_append, hslice, List.length_take]
      omega
    unfold overwrite
    rw [List.drop_append, hfront, hslice, List.drop_of_length_le (by omega), List.nil_append,
      List.drop_drop]
    congr 1
    omega
  · rfl

/-! ## The invariant -/

/-- How far a buffer that held `s` has been compacted. -/
structure Tracks (s : Bytes) (m : Compaction) : Prop where
  write_le : m.write ≤ m.read
  read_le : m.read ≤ s.length
  length_eq : m.buffer.length = s.length
  unread : m.buffer.drop m.read = s.drop m.read
  kept : m.buffer.take m.write = dropNulls (s.take m.read)
  closed : m.read < s.length → Closed (s.take m.read)

theorem tracks_start (s : Bytes) : Tracks s (start s) where
  write_le := Nat.le_refl 0
  read_le := Nat.zero_le _
  length_eq := rfl
  unread := rfl
  kept := rfl
  closed _ := by simp [start, Closed]

section Step
variable {s : Bytes} {m : Compaction} (h : Tracks s m) (hr : m.read < s.length)
include h

theorem Tracks.unread_add (n : Nat) : m.buffer.drop (m.read + n) = s.drop (m.read + n) := by
  rw [← List.drop_drop, h.unread, List.drop_drop]

include hr

theorem Tracks.dropNulls_take_add (n : Nat) :
    dropNulls (s.take (m.read + n)) =
      m.buffer.take m.write ++ dropNulls ((m.buffer.drop m.read).take n) := by
  rw [List.take_add, dropNulls_append (h.closed hr), h.kept, h.unread]

theorem Tracks.closed_take_add {n : Nat} (hn : Closed ((m.buffer.drop m.read).take n)) :
    Closed (s.take (m.read + n)) := by
  rw [List.take_add, ← h.unread]
  exact (h.closed hr).append hn

theorem Tracks.skip (hnull : m.buffer[m.read]? = some nullMark) :
    Tracks s { m with read := m.read + 1 } := by
  have hone : (m.buffer.drop m.read).take 1 = [nullMark] := by
    have hlt : m.read < m.buffer.length := by rw [h.length_eq]; exact hr
    rw [List.getElem?_eq_getElem hlt, Option.some_inj] at hnull
    rw [List.drop_eq_getElem_cons hlt, hnull]
    rfl
  refine ⟨Nat.le_succ_of_le h.write_le, hr, h.length_eq, h.unread_add 1, ?_, fun _ => ?_⟩
  · change m.buffer.take m.write = dropNulls (s.take (m.read + 1))
    rw [h.dropNulls_take_add hr, hone]
    exact (List.append_nil _).symm
  · apply h.closed_take_add hr
    rw [hone]
    exact closed_of_no_mark (by decide)

theorem Tracks.keep : Tracks s ⟨m.moveDown m.span, m.read + m.span, m.write + m.span⟩ := by
  have hlt : m.read < m.buffer.length := by rw [h.length_eq]; exact hr
  have hfit := read_add_span_le hlt
  obtain ⟨hkept, hclosed⟩ := kept_span hlt
  refine ⟨Nat.add_le_add_right h.write_le _, h.length_eq ▸ hfit, ?_, ?_, ?_, fun hend => ?_⟩
  · rw [length_moveDown hfit, h.length_eq]
  · rw [drop_moveDown hfit, h.unread_add]
  · rw [take_moveDown h.write_le hfit, h.dropNulls_take_add hr, hkept]
  · exact h.closed_take_add hr (hclosed (by rw [h.length_eq]; exact hend))

theorem Tracks.step : Tracks s m.step := by
  unfold Compaction.step
  split
  · rename_i hnull
    exact h.skip hr hnull
  · exact h.keep hr

end Step

theorem Tracks.run {s : Bytes} {m : Compaction} (h : Tracks s m) :
    Tracks s m.run ∧ m.run.read = s.length := by
  induction m using Compaction.run.induct with
  | case1 m hlt ih =>
    rw [Compaction.run, if_pos hlt]
    exact ih (h.step (by rw [← h.length_eq]; exact hlt))
  | case2 m hge =>
    rw [Compaction.run, if_neg hge]
    have hle := h.read_le
    have hlen := h.length_eq
    exact ⟨h, by omega⟩

end Compaction

/-- The two ways to remove null marks agree. -/
theorem compact_eq_dropNulls (s : Bytes) : compact s = dropNulls s := by
  unfold compact
  by_cases h : s.contains nullMark = true
  · obtain ⟨htracks, hread⟩ := (Compaction.tracks_start s).run
    have hkept := htracks.kept
    rw [hread, List.take_length] at hkept
    rw [if_pos h]
    exact hkept
  · have hnull : nullMark ∉ s := by simpa using h
    rw [if_neg h, dropNulls_of_no_null hnull]

end SentinelQuoting
