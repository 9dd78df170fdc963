import Mathlib.Data.Nat.Count
import SentinelQuoting.Proofs.Visits

/-! # What decoding a list reports

A word is reported when its text is a mark alone at the moment of its visit. A word that is listed
again may become one by an earlier visit, so which visits report cannot be told from the words at
the start. A report is one line, that is one write and one flush, and either may fail. Up to the
first failure the pass does what it does without a sink (`decode_take_writer`), and the failure ends
it: its own word and all later visits are left undone. -/
namespace SentinelQuoting
set_option autoImplicit false

/-! ## One line -/

def reportLine : String := Full.bareEscapeWarning ++ "\n"

namespace Writer

/-- The writer once `n` more lines have gone through. -/
def afterLines (w : Writer) (n : Nat) : Writer :=
  { w with
    writes := w.writes + n
    flushes := w.flushes + n
    events := w.events ++ (List.replicate n [.write reportLine, .flush]).flatten }

/-- How the next line fails, if it does, when `n` lines have gone through before it. -/
def faultAfter (w : Writer) (n : Nat) : Option WriterFault :=
  if w.failsWrite (w.writes + n + 1) then some .write
  else if w.failsFlush (w.flushes + n + 1) then some .flush
  else none

/-- What is left in the events of a line that fails: it may have been written, but not flushed. -/
def remains : WriterFault → List Event
  | .write => []
  | .flush => [.write reportLine]

def afterFault (w : Writer) (fault : WriterFault) : Writer :=
  { w with
    writes := w.writes + 1
    flushes := if fault = .flush then w.flushes + 1 else w.flushes
    events := w.events ++ remains fault }

theorem afterLines_zero (w : Writer) : w.afterLines 0 = w := by
  simp [afterLines]

theorem afterLines_succ (w : Writer) (n : Nat) :
    w.afterLines (n + 1) = (w.afterLines n).afterLines 1 := by
  simp [afterLines, List.replicate_succ', Nat.add_assoc]

end Writer

namespace Full

theorem report_silent (s : Bytes) : report s .silent = .ok () .silent := by
  by_cases h : s = bareEscape
  · rw [report, if_pos h]
    rfl
  · exact report_of_ne h .silent

theorem report_bareEscape (w : Writer) :
    report bareEscape (.writer w) =
      match w.faultAfter 0 with
      | none => .ok () (.writer (w.afterLines 1))
      | some fault => .error fault (.writer (w.afterFault fault)) := by
  have hline : report bareEscape (.writer w) =
      EStateM.bind (write reportLine) (fun _ => flush) (.writer w) := rfl
  rw [hline, EStateM.bind]
  cases hw : w.failsWrite (w.writes + 1) with
  | true => simp [write, hw, Writer.faultAfter, Writer.afterFault, Writer.remains]
  | false =>
    cases hf : w.failsFlush (w.flushes + 1) with
    | true => simp [write, flush, hw, hf, Writer.faultAfter, Writer.afterFault, Writer.remains]
    | false => simp [write, flush, hw, hf, Writer.faultAfter, Writer.afterLines]

theorem report_of_fault {w : Writer} {n : Nat} {fault : WriterFault}
    (h : w.faultAfter n = some fault) :
    report bareEscape (.writer (w.afterLines n)) =
      .error fault (.writer ((w.afterLines n).afterFault fault)) := by
  have hnext : (w.afterLines n).faultAfter 0 = some fault := h
  rw [report_bareEscape, hnext]

theorem report_of_no_fault {w : Writer} {n : Nat} (h : w.faultAfter n = none) :
    report bareEscape (.writer (w.afterLines n)) = .ok () (.writer (w.afterLines (n + 1))) := by
  have hnext : (w.afterLines n).faultAfter 0 = none := h
  rw [report_bareEscape, hnext, Writer.afterLines_succ w n]

end Full

/-! ## Lists -/

namespace Pool

theorem visit_append (f : Word → Word) (a b : List Nat) (pool : Pool) :
    pool.visit f (a ++ b) = visit f b (pool.visit f a) := List.foldl_append

theorem decode_append {a : List Nat} {pool after : Pool} {sink sinkAfter : Sink}
    (h : pool.decode a sink = ⟨after, sinkAfter, none⟩) (b : List Nat) :
    pool.decode (a ++ b) sink = after.decode b sinkAfter := by
  induction a generalizing pool sink with
  | nil =>
    rw [decode] at h
    obtain ⟨rfl, rfl, -⟩ := Performance.mk.inj h
    rfl
  | cons place a ih =>
    rw [List.cons_append]
    cases hreport : Full.report (pool.textAt place) sink with
    | ok u next =>
      rw [decode_cons_of_report hreport] at h
      rw [decode_cons_of_report hreport, ih h]
    | error fault next =>
      rw [decode_cons_of_fault hreport] at h
      exact absurd (Performance.mk.inj h).2.2 (by simp)

theorem decode_silent (places : List Nat) (pool : Pool) :
    pool.decode places .silent = ⟨pool.visit Word.decode places, .silent, none⟩ := by
  induction places generalizing pool with
  | nil => rfl
  | cons place places ih => rw [decode_cons_of_report (Full.report_silent _), ih, visit_cons]

section Writer
variable (pool : Pool) (places : List Nat)

/-- The text that the visit number `k` finds, once all visits before it have been made. -/
def textAtVisit (k : Nat) : Option Bytes :=
  places[k]?.map (pool.decode (places.take k) .silent).pool.textAt

/-- Whether the visit number `k` finds a text that is to be reported. -/
def IsReported (k : Nat) : Prop := pool.textAtVisit places k = some bareEscape

instance : DecidablePred (pool.IsReported places) := fun k =>
  inferInstanceAs (Decidable (pool.textAtVisit places k = some bareEscape))

/-- How many of the first `k` visits report. -/
def reports (k : Nat) : Nat := Nat.count (pool.IsReported places) k

/-- Every report among the first `k` visits goes through. -/
def GoesThrough (w : Writer) (k : Nat) : Prop :=
  ∀ j < k, pool.IsReported places j → w.faultAfter (pool.reports places j) = none

instance (w : Writer) : DecidablePred (pool.GoesThrough places w) := fun k =>
  inferInstanceAs (Decidable
    (∀ j < k, pool.IsReported places j → w.faultAfter (pool.reports places j) = none))

/-- The first report that fails is that of the visit number `p`, and this is how it fails. -/
structure FirstFault (w : Writer) (p : Nat) (fault : WriterFault) : Prop where
  before : pool.GoesThrough places w p
  reported : pool.IsReported places p
  fails : w.faultAfter (pool.reports places p) = some fault

variable {pool places} {w : Writer} {k : Nat}

theorem textAtVisit_of_getElem? {place : Nat} (h : places[k]? = some place) :
    pool.textAtVisit places k = some ((pool.visit Word.decode (places.take k)).textAt place) := by
  rw [textAtVisit, h, decode_silent]
  rfl

theorem exists_of_isReported (h : pool.IsReported places k) :
    ∃ place, places[k]? = some place ∧
      (pool.visit Word.decode (places.take k)).textAt place = bareEscape := by
  cases hplace : places[k]? with
  | none =>
    rw [IsReported, textAtVisit, hplace] at h
    exact absurd h (by simp)
  | some place =>
    rw [IsReported, textAtVisit_of_getElem? hplace] at h
    exact ⟨place, rfl, Option.some.inj h⟩

theorem decode_visit_writer {place : Nat} (hplace : places[k]? = some place)
    (h : pool.IsReported places k → w.faultAfter (pool.reports places k) = none) :
    (pool.visit Word.decode (places.take k)).decode [place]
        (.writer (w.afterLines (pool.reports places k))) =
      ⟨pool.visit Word.decode (places.take k ++ [place]),
        .writer (w.afterLines (pool.reports places (k + 1))), none⟩ := by
  have htext : pool.textAtVisit places k =
      some ((pool.visit Word.decode (places.take k)).textAt place) :=
    textAtVisit_of_getElem? hplace
  by_cases hbare : pool.IsReported places k
  · -- one more line goes through
    have hcount : pool.reports places (k + 1) = pool.reports places k + 1 := by
      rw [reports, Nat.count_succ, if_pos hbare, reports]
    have hreport := Full.report_of_no_fault (h hbare)
    rw [← hcount] at hreport
    rw [IsReported, htext, Option.some_inj] at hbare
    rw [← hbare] at hreport
    rw [decode_cons_of_report hreport, visit_append]
    rfl
  · -- the writer is not called
    have hcount : pool.reports places (k + 1) = pool.reports places k := by
      rw [reports, Nat.count_succ, if_neg hbare, reports, Nat.add_zero]
    rw [IsReported, htext, Option.some_inj] at hbare
    rw [decode_cons_of_report (Full.report_of_ne hbare _), visit_append, hcount]
    rfl

/-- As long as every report goes through, the words change as they do without a sink, and the writer
gets one line for each report. -/
theorem decode_take_writer (h : pool.GoesThrough places w k) :
    pool.decode (places.take k) (.writer w) =
      ⟨pool.visit Word.decode (places.take k), .writer (w.afterLines (pool.reports places k)),
        none⟩ := by
  induction k with
  | zero => rw [reports, Nat.count_zero, Writer.afterLines_zero]; rfl
  | succ k ih =>
    have hk := ih fun j hj => h j (Nat.lt_succ_of_lt hj)
    rw [List.take_add_one]
    cases hplace : places[k]? with
    | none =>
      -- the list has ended, so there is no such visit
      have hbare : ¬ pool.IsReported places k := by
        intro hbare
        obtain ⟨place, he, -⟩ := exists_of_isReported hbare
        rw [hplace] at he
        exact absurd he (by simp)
      rw [Option.toList_none, List.append_nil, hk, reports, reports, Nat.count_succ, if_neg hbare,
        Nat.add_zero]
    | some place =>
      rw [Option.toList_some, decode_append hk, decode_visit_writer hplace (h k (Nat.lt_succ_self k))]

theorem FirstFault.decode_eq {p : Nat} {fault : WriterFault}
    (h : pool.FirstFault places w p fault) :
    pool.decode places (.writer w) =
      ⟨pool.visit Word.decode (places.take p),
        .writer ((w.afterLines (pool.reports places p)).afterFault fault), some fault⟩ := by
  obtain ⟨place, hplace, htext⟩ := exists_of_isReported h.reported
  obtain ⟨hlt, hget⟩ := List.getElem?_eq_some_iff.mp hplace
  have hsplit : places = places.take p ++ place :: places.drop (p + 1) := by
    rw [← hget, ← List.drop_eq_getElem_cons hlt, List.take_append_drop]
  have hreport := Full.report_of_fault h.fails
  rw [← htext] at hreport
  conv => lhs; rw [hsplit]
  rw [decode_append (decode_take_writer h.before), decode_cons_of_fault hreport]

theorem goesThrough_or_exists_firstFault :
    pool.GoesThrough places w places.length ∨ ∃ p fault, pool.FirstFault places w p fault := by
  by_cases h : ∃ p, pool.IsReported places p ∧ w.faultAfter (pool.reports places p) ≠ none
  · obtain ⟨hreported, hfails⟩ := Nat.find_spec h
    obtain ⟨fault, hfault⟩ := Option.ne_none_iff_exists'.mp hfails
    refine .inr ⟨Nat.find h, fault, fun j hj hbare => ?_, hreported, hfault⟩
    by_contra hne
    exact Nat.find_min h hj ⟨hbare, hne⟩
  · refine .inl fun j _ hbare => ?_
    by_contra hne
    exact h ⟨j, hbare, hne⟩

end Writer

/-- Decoding a list with a writer. When every report goes through, the words are as without a sink
and the writer has got one line for each report. Otherwise there is a first report that fails: the
pass ends with its fault, the words are those after the visits before it, and of its line the writer
has what remains. -/
theorem decode_writer (pool : Pool) (places : List Nat) (w : Writer) :
    (pool.GoesThrough places w places.length →
      pool.decode places (.writer w) =
        ⟨(pool.decode places .silent).pool,
          .writer (w.afterLines (pool.reports places places.length)), none⟩) ∧
    (∀ (p : Nat) (fault : WriterFault), pool.FirstFault places w p fault →
      pool.decode (places.take p) (.writer w) =
        ⟨(pool.decode (places.take p) .silent).pool,
          .writer (w.afterLines (pool.reports places p)), none⟩ ∧
      pool.decode places (.writer w) =
        ⟨(pool.decode (places.take p) .silent).pool,
          .writer ((w.afterLines (pool.reports places p)).afterFault fault), some fault⟩) ∧
    (pool.GoesThrough places w places.length ∨ ∃ p fault, pool.FirstFault places w p fault) := by
  refine ⟨fun h => ?_, fun p fault h => ⟨?_, ?_⟩, goesThrough_or_exists_firstFault⟩
  · have htake := decode_take_writer h
    rw [List.take_length] at htake
    rw [htake, decode_silent]
  · rw [decode_take_writer h.before, decode_silent]
  · rw [h.decode_eq, decode_silent]

/-- A word that is listed twice and is a mark alone on its second visit, before another one: with a
writer that fails at its second flush, and with one that fails at its third write. -/
theorem decode_writer_repeated :
    let pool : Pool := [⟨[escapeMark, escapeMark], ⟨4⟩⟩, ⟨[escapeMark], ⟨1⟩⟩, ⟨quotedNull, ⟨2⟩⟩]
    let places := [0, 0, 2, 1, 2]
    let early : Writer := .fresh false (fun _ => false) (· == 2)
    let late : Writer := .fresh false (· == 3) (fun _ => false)
    pool.FirstFault places early 3 .flush ∧
    pool.decode places (.writer early) =
      ⟨[⟨[escapeMark], ⟨4⟩⟩, ⟨[escapeMark], ⟨1⟩⟩, ⟨[], ⟨0⟩⟩],
        .writer ⟨false, fun _ => false, (· == 2), 2, 2,
          [.write reportLine, .flush, .write reportLine]⟩, some .flush⟩ ∧
    pool.GoesThrough places late places.length ∧
    (pool.decode places (.writer late)).fault = none := by
  intro pool places early late
  have hfirst : pool.FirstFault places early 3 .flush := ⟨by decide, by decide, by decide⟩
  have hthrough : pool.GoesThrough places late places.length := by decide
  refine ⟨hfirst, ?_, hthrough, ?_⟩
  · rw [((decode_writer pool places early).2.1 3 .flush hfirst).2]
    rfl
  · rw [(decode_writer pool places late).1 hthrough]

end Pool
end SentinelQuoting
