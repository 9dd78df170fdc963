import SentinelQuoting.Proofs.Agreement
import SentinelQuoting.Proofs.Boundaries

/-! # The loop of the compaction

Every state that the compaction comes to before a step, and the one it ends in, is reached from the
start by steps (`AtHead`), so the invariant `Tracks` holds of it. What is not yet read is as it was
at first, so a character that is measured in the buffer has the width it had at first. And `read`
is never inside a character: null marks and escape marks are characters of their own, and a stretch
ends before a sentinel or at the end of the buffer. -/
namespace SentinelQuoting
set_option autoImplicit false

/-! ## Protected positions -/

theorem isGuarded_take (s : Bytes) {n i : Nat} (h : i ≤ n) :
    isGuarded (s.take n) i = isGuarded s i := by
  induction i with
  | zero => rfl
  | succ i ih => rw [isGuarded, isGuarded, ih (by omega), List.getElem?_take_of_lt (by omega)]

/-- Whether a position belongs to a character that a mark protects. -/
def IsProtected (s : Bytes) (i : Nat) : Prop :=
  ∃ p ≤ i, isGuarded s p = true ∧ i < p + widthAt s p

theorem not_isProtected {s : Bytes} {i : Nat} (hboundary : i ∈ boundaries s)
    (hguarded : i < s.length → isGuarded s i = false) : ¬ IsProtected s i := by
  rintro ⟨p, hp, hg, hlt⟩
  obtain ⟨hi, hover⟩ := (mem_boundaries_iff i).mp hboundary
  have hps : p < s.length := by
    by_contra hge
    have hend := add_widthAt_le_length (s := s) (i := p) (by omega)
    omega
  rcases Nat.eq_or_lt_of_le hp with rfl | hp
  · rw [hguarded hps] at hg
    exact absurd hg (by decide)
  · exact hover p hps ⟨hp, hlt⟩

theorem add_widthAt_mem_boundaries {s : Bytes} {i : Nat} (h : i ∈ boundaries s) :
    i + widthAt s i ∈ boundaries s := by
  by_cases hi : i < s.length
  · exact (infix_boundariesFrom (Nat.zero_le _) hi h).subset (by simp)
  · have hend : widthAt s i = 0 := by
      rw [widthAt, List.drop_of_length_le (by omega)]
      rfl
    rwa [hend]

theorem mem_boundaries_of_isSentinel {s : Bytes} {i : Nat} {b : UInt8} (h : s[i]? = some b)
    (hb : isSentinel b = true) : i ∈ boundaries s ∧ i + 1 ∈ boundaries s := by
  have hascii : b ≤ 0x7f := by
    simp only [isSentinel, Bool.or_eq_true, beq_iff_eq] at hb
    rcases hb with rfl | rfl
    · decide
    · decide
  have hin := infix_boundaries_of_ascii h hascii
  exact ⟨hin.subset (by simp), hin.subset (by simp)⟩

theorem length_mem_boundaries (s : Bytes) : s.length ∈ boundaries s :=
  List.mem_of_getLast? (getLast?_boundariesFrom (Nat.zero_le _))

namespace Compaction

/-! ## The states of the loop -/

/-- The states that compaction of `s` comes to, before each step and at the end. -/
inductive AtHead (s : Bytes) : Compaction → Prop
  | start : AtHead s (start s)
  | step {m : Compaction} : AtHead s m → m.read < m.buffer.length → AtHead s m.step

theorem AtHead.tracks {s : Bytes} {m : Compaction} (h : AtHead s m) : Tracks s m := by
  induction h with
  | start => exact tracks_start s
  | step _ hlt ih => exact ih.step (ih.length_eq ▸ hlt)

theorem AtHead.run {s : Bytes} {m : Compaction} (h : AtHead s m) : AtHead s m.run := by
  induction m using Compaction.run.induct with
  | case1 m hlt ih =>
    rw [Compaction.run, if_pos hlt]
    exact ih (h.step hlt)
  | case2 m hge =>
    rw [Compaction.run, if_neg hge]
    exact h

/-! ## What is read -/

theorem exists_sentinel_of_stretch_lt {s : Bytes} (h : stretch s < s.length) :
    ∃ b, s[stretch s]? = some b ∧ isSentinel b = true := by
  induction s with
  | nil => exact absurd h (Nat.not_lt_zero _)
  | cons b rest ih =>
    cases hb : isSentinel b with
    | true => exact ⟨b, by simp [stretch, hb], hb⟩
    | false =>
      have hstretch : stretch (b :: rest) = stretch rest + 1 := by simp [stretch, hb]
      rw [hstretch, List.length_cons] at h
      rw [hstretch, List.getElem?_cons_succ]
      exact ih (by omega)

section Read
variable {s : Bytes} {m : Compaction} (h : Tracks s m)
include h

theorem Tracks.getElem?_eq {i : Nat} (hi : m.read ≤ i) : m.buffer[i]? = s[i]? := by
  obtain ⟨n, rfl⟩ := Nat.exists_eq_add_of_le hi
  rw [← List.getElem?_drop, h.unread, List.getElem?_drop]

theorem Tracks.widthAt_eq {i : Nat} (hi : m.read ≤ i) : widthAt m.buffer i = widthAt s i := by
  obtain ⟨n, rfl⟩ := Nat.exists_eq_add_of_le hi
  rw [widthAt, h.unread_add, widthAt]

theorem Tracks.read_add_span_mem_boundaries : m.read + m.span ∈ boundaries s := by
  unfold span
  split
  · rename_i hmark
    rw [h.getElem?_eq (Nat.le_refl _)] at hmark
    have hnext := (mem_boundaries_of_isSentinel hmark rfl).2
    rw [h.widthAt_eq (Nat.le_succ _), Nat.add_comm (widthAt s _), ← Nat.add_assoc]
    exact add_widthAt_mem_boundaries hnext
  · rcases Nat.lt_or_ge (stretch (m.buffer.drop m.read)) (m.buffer.drop m.read).length with hlt | hge
    · obtain ⟨b, hget, hb⟩ := exists_sentinel_of_stretch_lt hlt
      rw [List.getElem?_drop, h.getElem?_eq (Nat.le_add_right _ _)] at hget
      exact (mem_boundaries_of_isSentinel hget hb).1
    · have hend : m.read + stretch (m.buffer.drop m.read) = s.length := by
        have hle := stretch_le_length (m.buffer.drop m.read)
        have hread := h.read_le
        have hlength := h.length_eq
        rw [List.length_drop] at hge hle
        omega
      rw [hend]
      exact length_mem_boundaries s

theorem Tracks.read_step_mem_boundaries : m.step.read ∈ boundaries s := by
  unfold Compaction.step
  split
  · rename_i hnull
    rw [h.getElem?_eq (Nat.le_refl _)] at hnull
    exact (mem_boundaries_of_isSentinel hnull rfl).2
  · exact h.read_add_span_mem_boundaries

theorem Tracks.isGuarded_read (hr : m.read < s.length) : isGuarded s m.read = false := by
  have hclosed := (closed_iff_isGuarded_length _).mp (h.closed hr)
  rwa [List.length_take, Nat.min_eq_left h.read_le, isGuarded_take s (Nat.le_refl _)] at hclosed

end Read

theorem AtHead.read_mem_boundaries {s : Bytes} {m : Compaction} (h : AtHead s m) :
    m.read ∈ boundaries s := by
  -- no induction: where a step ends is told by what it has read, not by where it began
  cases h with
  | start =>
    obtain ⟨rest, hrest⟩ := exists_boundariesFrom_eq (Nat.zero_le s.length)
    rw [boundaries, hrest]
    exact List.mem_cons_self
  | step h _ => exact h.tracks.read_step_mem_boundaries

/-! ## What is written -/

theorem buffer_step_of_null {m : Compaction} (h : m.buffer[m.read]? = some nullMark) :
    m.step.buffer = m.buffer := by
  rw [step, if_pos h]

theorem buffer_step_of_eq {m : Compaction} (h : m.write = m.read) : m.step.buffer = m.buffer := by
  unfold step moveDown
  split
  · rfl
  · rw [if_neg (by omega)]

/-- The bytes that a step moves down. -/
def slice (m : Compaction) : Bytes := (m.buffer.drop m.read).take m.span

theorem length_slice {m : Compaction} (h : m.read < m.buffer.length) : m.slice.length = m.span := by
  have hfit := read_add_span_le h
  rw [slice, List.length_take, List.length_drop]
  omega

theorem buffer_step_of_lt {m : Compaction} (h : m.read < m.buffer.length)
    (hnull : m.buffer[m.read]? ≠ some nullMark) (hlt : m.write < m.read) :
    m.step.buffer = m.buffer.take m.write ++ m.slice ++ m.buffer.drop (m.write + m.span) := by
  rw [step, if_neg hnull, moveDown, if_pos hlt, overwrite, ← slice, length_slice h]

/-- What holds whenever the compaction of `s` is about to make a step, and at its end: the positions
are in order, the bytes from `read` on are the first ones, the bytes before `write` are the
compaction of those already read, and `read` is not in a protected character. A step reads on, and
the character it finds after a mark is as wide as at first. What it moves replaces as many bytes
inside the buffer, and nothing else changes. The compaction of a text that holds a null mark is such
a run to the end of the text. -/
theorem atHead_invariant :
    (∀ (s : Bytes) (m : Compaction), AtHead s m →
      m.write ≤ m.read ∧ m.read ≤ s.length ∧ m.buffer.length = s.length ∧
      m.buffer.drop m.read = s.drop m.read ∧
      m.buffer.take m.write = compact (s.take m.read) ∧
      m.buffer.take m.write = withoutExposedNulls (s.take m.read) ∧
      ¬ IsProtected s m.read ∧
      (m.read < s.length →
        m.read < m.step.read ∧
        (m.buffer[m.read]? = some escapeMark →
          widthAt m.buffer (m.read + 1) = widthAt s (m.read + 1)) ∧
        (m.buffer[m.read]? = some nullMark ∨ m.write = m.read → m.step.buffer = m.buffer) ∧
        (m.buffer[m.read]? ≠ some nullMark → m.write < m.read →
          m.slice.length = m.span ∧ m.write + m.span ≤ s.length ∧ m.read + m.span ≤ s.length ∧
          m.step.buffer =
            m.buffer.take m.write ++ m.slice ++ m.buffer.drop (m.write + m.span)))) ∧
    ∀ s : Bytes, nullMark ∈ s →
      AtHead s (start s).run ∧ (start s).run.read = s.length ∧
        compact s = (start s).run.buffer.take (start s).run.write := by
  refine ⟨fun s m hhead => ?_, fun s hnull => ?_⟩
  · have h := hhead.tracks
    refine ⟨h.write_le, h.read_le, h.length_eq, h.unread, ?_, ?_, ?_, fun hr => ?_⟩
    · rw [h.kept, compact_eq_dropNulls]
    · rw [h.kept, dropNulls_eq_withoutExposedNulls]
    · exact not_isProtected hhead.read_mem_boundaries h.isGuarded_read
    · have hlt : m.read < m.buffer.length := by rwa [h.length_eq]
      have hfit := read_add_span_le hlt
      rw [h.length_eq] at hfit
      refine ⟨read_lt_read_step hlt, fun _ => h.widthAt_eq (Nat.le_succ _), ?_, fun hnull hwrite => ?_⟩
      · rintro (hnull | hwrite)
        · exact buffer_step_of_null hnull
        · exact buffer_step_of_eq hwrite
      · exact ⟨length_slice hlt, by omega, hfit, buffer_step_of_lt hlt hnull hwrite⟩
  · have hcontains : s.contains nullMark = true := by simpa using hnull
    refine ⟨AtHead.start.run, (tracks_start s).run.2, ?_⟩
    rw [compact, if_pos hcontains]
    rfl

/-- The first step into a text, which moves nothing, and the third, which moves a protected null mark
down over the null mark that was skipped. -/
theorem atHead_invariant_moved :
    let s : Bytes := [escapeMark, 0xc3, 0xa9, nullMark, escapeMark, nullMark, 0x62]
    let m := (start s).step.step
    (start s).write = (start s).read ∧ (start s).step.buffer = s ∧
    AtHead s m ∧ m.read = 4 ∧ m.write = 3 ∧
    m.buffer.take m.write = compact (s.take m.read) ∧
    ¬ IsProtected s m.read ∧
    m.read < s.length ∧ m.buffer[m.read]? = some escapeMark ∧
    widthAt m.buffer (m.read + 1) = widthAt s (m.read + 1) ∧
    m.buffer[m.read]? ≠ some nullMark ∧ m.write < m.read ∧
    m.slice = [escapeMark, nullMark] ∧ m.slice.length = m.span ∧
    nullMark ∈ s ∧ (start s).run.read = s.length := by
  intro s m
  have hhead : AtHead s m := .step (.step .start (by decide)) (by decide)
  have hr : m.read < s.length := by decide
  have hmark : m.buffer[m.read]? = some escapeMark := by decide
  have hnot : m.buffer[m.read]? ≠ some nullMark := by decide
  have hwrite : m.write < m.read := by decide
  have hnull : nullMark ∈ s := by decide
  obtain ⟨-, -, -, -, hkept, -, hprotected, hstep⟩ := atHead_invariant.1 s m hhead
  obtain ⟨-, hwidth, -, hmoved⟩ := hstep hr
  obtain ⟨-, -, -, -, -, -, -, hfirst⟩ := atHead_invariant.1 s (start s) .start
  obtain ⟨-, -, hsame, -⟩ := hfirst (by decide)
  exact ⟨rfl, hsame (.inr rfl), hhead, by decide, by decide, hkept, hprotected, hr, hmark, hwidth hmark, hnot, hwrite,
    by decide, (hmoved hnot hwrite).1, hnull, (atHead_invariant.2 s hnull).2.1⟩

end Compaction
end SentinelQuoting
