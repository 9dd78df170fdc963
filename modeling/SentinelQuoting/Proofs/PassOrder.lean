import SentinelQuoting.Proofs.Compaction
import SentinelQuoting.Proofs.Release

/-! # The order of the two removals

Releasing the separators takes marks away, and removing the null marks takes away bytes that no mark
protects. Each of the two reads what the other has left, so the order matters as soon as a sentinel
is a separator: a null mark that loses its protection is removed afterwards, and a mark that loses
its protection protects the byte after it from then on. Where no sentinel is a separator, neither
pass changes what protects what, and the two can change places. -/
namespace SentinelQuoting
set_option autoImplicit false

section Commute
variable {ifs : Separators} (hmark : ifs.contains escapeMark = false)
  (hnull : ifs.contains nullMark = false)
include hmark hnull

/-- A byte that loses its mark is no sentinel, so it is a bare byte that stays. -/
theorem dropNulls_released {b : UInt8} (hb : ifs.contains b = true) (rest : Bytes) :
    dropNulls (b :: rest) = b :: dropNulls rest := by
  have hne : b ≠ escapeMark := Separators.ne_of_contains hb hmark
  have hnn : b ≠ nullMark := Separators.ne_of_contains hb hnull
  rw [dropNulls_bare hne, if_neg hnn, List.singleton_append]

theorem dropNulls_releaseSeparators (s : Bytes) :
    dropNulls (releaseSeparators ifs s) = releaseSeparators ifs (dropNulls s) := by
  induction s using reading_induction with
  | nil => rfl
  | dangling => rfl
  | guarded b rest ih =>
    rw [releaseSeparators_guarded, dropNulls_guarded, releaseSeparators_guarded, ← ih]
    by_cases hb : ifs.contains b = true
    · rw [if_pos hb, List.singleton_append, List.singleton_append,
        dropNulls_released hmark hnull hb]
    · rw [if_neg hb]
      exact dropNulls_guarded b _
  | bare b rest hb ih =>
    rw [releaseSeparators_bare ifs hb, dropNulls_bare hb, dropNulls_bare hb, ih]
    by_cases hn : b = nullMark
    · rw [if_pos hn, List.nil_append, List.nil_append]
    · rw [if_neg hn, List.singleton_append, List.singleton_append, releaseSeparators_bare ifs hb]

end Commute

/-- A protected null mark is removed when its mark is released first. -/
theorem compact_releaseSeparators_null {ifs : Separators} (h : ifs.contains nullMark = true) :
    compact (releaseSeparators ifs [escapeMark, nullMark]) = [] ∧
      releaseSeparators ifs (compact [escapeMark, nullMark]) = [nullMark] := by
  have hreleased : releaseSeparators ifs [escapeMark, nullMark] = [nullMark] := by
    rw [releaseSeparators_guarded, if_pos h]
    rfl
  rw [hreleased, compact_eq_dropNulls, compact_eq_dropNulls, dropNulls_guarded]
  exact ⟨rfl, hreleased⟩

/-- The second of two marks protects the null mark after it when the first is released. -/
theorem compact_releaseSeparators_mark {ifs : Separators} (h : ifs.contains escapeMark = true) :
    compact (releaseSeparators ifs [escapeMark, escapeMark, nullMark]) = [escapeMark, nullMark] ∧
      releaseSeparators ifs (compact [escapeMark, escapeMark, nullMark]) = [escapeMark] := by
  have hreleased (rest : Bytes) : releaseSeparators ifs (escapeMark :: escapeMark :: rest) =
      escapeMark :: releaseSeparators ifs rest := by
    rw [releaseSeparators_guarded, if_pos h, List.singleton_append]
  have hremoved : dropNulls [escapeMark, escapeMark, nullMark] = [escapeMark, escapeMark] := by
    decide
  rw [compact_eq_dropNulls, compact_eq_dropNulls, hremoved, hreleased, hreleased,
    releaseSeparators_bare ifs (by decide)]
  exact ⟨rfl, rfl⟩

/-- Which of the two removals comes first makes no difference to any text exactly when neither
sentinel is a separator. -/
theorem compact_releaseSeparators_comm_iff (ifs : Separators) :
    (∀ s : Bytes, compact (releaseSeparators ifs s) = releaseSeparators ifs (compact s)) ↔
      ifs.contains escapeMark = false ∧ ifs.contains nullMark = false := by
  constructor
  · intro h
    constructor
    · rw [← Bool.not_eq_true]
      intro hmark
      obtain ⟨hleft, hright⟩ := compact_releaseSeparators_mark hmark
      rw [h, hright] at hleft
      exact absurd hleft (by decide)
    · rw [← Bool.not_eq_true]
      intro hnull
      obtain ⟨hleft, hright⟩ := compact_releaseSeparators_null hnull
      rw [h, hright] at hleft
      exact absurd hleft (by decide)
  · rintro ⟨hmark, hnull⟩ s
    rw [compact_eq_dropNulls, compact_eq_dropNulls, dropNulls_releaseSeparators hmark hnull]

end SentinelQuoting
