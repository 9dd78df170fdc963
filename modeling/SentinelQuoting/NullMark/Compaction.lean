import SentinelQuoting.Character.Scan
import SentinelQuoting.Sentinel

/-! # Removing the null marks inside a buffer

A buffer is compacted where it stands, with two positions: `read` goes over the bytes once, and
`write` is where the next byte that is kept belongs. A step skips an unprotected null mark, or
keeps an escape mark with the whole character after it, or keeps the stretch up to the next
sentinel, which ends at the end of a character because no longer character holds a sentinel. What
is kept moves down once something has been skipped. When everything has been read, the buffer is
cut at `write`.

Main facts: `length_step`, a step never changes the length of the buffer, and `read_lt_read_step`,
it always reads on. Together they end the run. -/

namespace SentinelQuoting
set_option autoImplicit false

/-- A buffer that is being compacted. -/
structure Compaction where
  buffer : Bytes
  read : Nat
  write : Nat
  deriving DecidableEq

namespace Compaction

/-! ## Steps -/

/-- Before the first step. -/
def start (s : Bytes) : Compaction := ⟨s, 0, 0⟩

/-- The length of the stretch without sentinels at the start of a byte string. -/
def stretch (s : Bytes) : Nat := (s.takeWhile fun b => !isSentinel b).length

/-- How many bytes from `read` on are kept together: a mark and the character after it, if there is
one, or a stretch without sentinels. -/
def span (m : Compaction) : Nat :=
  if m.buffer[m.read]? = some escapeMark then widthAt m.buffer (m.read + 1) + 1
  else stretch (m.buffer.drop m.read)

/-- A byte string with the bytes from position `i` on replaced by `slice`. -/
def overwrite (s : Bytes) (i : Nat) (slice : Bytes) : Bytes :=
  s.take i ++ slice ++ s.drop (i + slice.length)

/-- The buffer once `count` bytes have moved from `read` down to `write`. While nothing has been
skipped they are where they belong. -/
def moveDown (m : Compaction) (count : Nat) : Bytes :=
  if m.write < m.read then overwrite m.buffer m.write ((m.buffer.drop m.read).take count)
  else m.buffer

/-- Skip one null mark, or keep what belongs together. -/
def step (m : Compaction) : Compaction :=
  if m.buffer[m.read]? = some nullMark then { m with read := m.read + 1 }
  else ⟨m.moveDown m.span, m.read + m.span, m.write + m.span⟩

/-! ## Bounds -/

theorem stretch_le_length (s : Bytes) : stretch s ≤ s.length :=
  (List.takeWhile_sublist _).length_le

theorem span_pos {m : Compaction} (h : m.read < m.buffer.length)
    (hn : m.buffer[m.read]? ≠ some nullMark) : 0 < m.span := by
  simp only [span]
  split
  · exact Nat.succ_pos _
  · rename_i he
    rw [List.getElem?_eq_getElem h] at hn he
    have hs : isSentinel m.buffer[m.read] = false := by
      simp only [isSentinel, Bool.or_eq_false_iff, beq_eq_false_iff_ne]
      exact ⟨fun e => he (congrArg some e), fun e => hn (congrArg some e)⟩
    rw [stretch, List.drop_eq_getElem_cons h, List.takeWhile_cons_of_pos (by simp [hs])]
    exact Nat.succ_pos _

theorem read_add_span_le {m : Compaction} (h : m.read < m.buffer.length) :
    m.read + m.span ≤ m.buffer.length := by
  simp only [span]
  split
  · have hw := add_widthAt_le_length (s := m.buffer) (i := m.read + 1) h
    omega
  · have hs := stretch_le_length (m.buffer.drop m.read)
    simp only [List.length_drop] at hs
    omega

/-- A slice that fits replaces as many bytes as it has. -/
theorem length_overwrite {s : Bytes} {i : Nat} {slice : Bytes}
    (h : i + slice.length ≤ s.length) : (overwrite s i slice).length = s.length := by
  simp only [overwrite, List.length_append, List.length_take, List.length_drop]
  omega

theorem length_moveDown {m : Compaction} {count : Nat}
    (h : m.read + count ≤ m.buffer.length) : (m.moveDown count).length = m.buffer.length := by
  simp only [moveDown]
  split
  · apply length_overwrite
    simp only [List.length_take, List.length_drop]
    omega
  · rfl

/-- A step never changes the length of the buffer. -/
theorem length_step {m : Compaction} (h : m.read < m.buffer.length) :
    m.step.buffer.length = m.buffer.length := by
  simp only [step]
  split
  · rfl
  · exact length_moveDown (read_add_span_le h)

/-- A step always reads on. -/
theorem read_lt_read_step {m : Compaction} (h : m.read < m.buffer.length) :
    m.read < m.step.read := by
  simp only [step]
  split
  · exact Nat.lt_succ_self _
  · rename_i hn
    have hp := span_pos h hn
    simp only
    omega

/-! ## The whole run -/

/-- Step until everything has been read. -/
def run (m : Compaction) : Compaction :=
  if m.read < m.buffer.length then run m.step else m
termination_by m.buffer.length - m.read
decreasing_by
  rename_i h
  have hl := length_step h
  have hr := read_lt_read_step h
  omega

/-- What the buffer holds when it has been cut at `write`. -/
def kept (m : Compaction) : Bytes := m.buffer.take m.write

end Compaction

/-- What a buffer holds once it has been compacted. A buffer without null marks is left alone. -/
def compact (s : Bytes) : Bytes :=
  if s.contains nullMark then (Compaction.start s).run.kept else s

end SentinelQuoting
