import SentinelQuoting.Proofs.Agreement
import SentinelQuoting.Proofs.Assembly
import SentinelQuoting.Proofs.Release

/-! # Passes made again

Releasing the separators and removing the null marks both take bytes out of a text, and what is left
is read anew by the next pass. Bytes come together that were apart: a broken lead and a continuation
byte can make a character, and a mark can become the last byte. Neither pass changes what protects
what, though. A release leaves the same pieces, some of them bare that were guarded, so one release
after another is a release of both sets (`release_opened`). A removal leaves the same pieces without
the bare null marks among them (`reading_compact`), so nothing is left for another one, and the texts
that it does not change are those in which every null mark is protected. -/
namespace SentinelQuoting
set_option autoImplicit false

/-! ## Releasing one set after another -/

theorem Piece.release_opened (first second : UInt8 → Bool) (p : Piece) :
    (p.opened first).release second = p.release fun b => first b || second b := by
  cases p with
  | bare c => rfl
  | guarded c =>
    rw [Piece.opened]
    cases h : first c.lead with
    | true => simp [Piece.release, h]
    | false => simp [Piece.release, h]
  | dangling => rfl

theorem releaseSeparators_congr {A B : Separators} (h : ∀ b, A.contains b = B.contains b)
    (s : Bytes) : releaseSeparators A s = releaseSeparators B s := by
  unfold releaseSeparators
  rw [funext h]

theorem releaseSeparators_releaseSeparators {A : Separators} (hA : A.contains escapeMark = false)
    (B : Separators) (s : Bytes) :
    releaseSeparators B (releaseSeparators A s) = releaseSeparators (A.union B) s := by
  rw [releaseSeparators_eq, reading_releaseSeparators hA, List.flatMap_map, releaseSeparators_eq,
    funext (Separators.contains_union A B)]
  simp only [Piece.release_opened]

/-- One release after another is the release of both sets, when the mark is not in the first: it
protects no byte that was not protected before. So another release of the same set changes nothing,
and of two sets either can come first, the mark being in neither. -/
theorem releaseSeparators_union {A : Separators} (hA : A.contains escapeMark = false) :
    (∀ (B : Separators) (s : Bytes),
      releaseSeparators B (releaseSeparators A s) = releaseSeparators (A.union B) s) ∧
    (∀ s : Bytes, releaseSeparators A (releaseSeparators A s) = releaseSeparators A s) ∧
    ∀ B : Separators, B.contains escapeMark = false → ∀ s : Bytes,
      releaseSeparators B (releaseSeparators A s) = releaseSeparators A (releaseSeparators B s) := by
  refine ⟨releaseSeparators_releaseSeparators hA, fun s => ?_, fun B hB s => ?_⟩
  · rw [releaseSeparators_releaseSeparators hA]
    exact releaseSeparators_congr (fun b => by rw [Separators.contains_union, Bool.or_self]) s
  · rw [releaseSeparators_releaseSeparators hA, releaseSeparators_releaseSeparators hB]
    refine releaseSeparators_congr (fun b => ?_) s
    rw [Separators.contains_union, Separators.contains_union, Bool.or_comm]

/-- A continuation byte and the null mark in the first set, a lead and the mark in the second. The
first release joins a lead and its continuation byte into one protected character, and the second
takes the mark in front of that, and one mark of a pair. -/
theorem releaseSeparators_union_joined :
    let A : Separators := ⟨[0xa9, nullMark]⟩
    let B : Separators := ⟨[escapeMark, 0xc3]⟩
    let s : Bytes := [escapeMark, 0xc3, escapeMark, 0xa9, escapeMark, escapeMark, escapeMark, nullMark,
      escapeMark]
    A.contains escapeMark = false ∧
    releaseSeparators B (releaseSeparators A s) = releaseSeparators (A.union B) s ∧
    releaseSeparators (A.union B) s = [0xc3, 0xa9, escapeMark, nullMark, escapeMark] := by
  intro A B s
  have hA : A.contains escapeMark = false := by decide
  exact ⟨hA, (releaseSeparators_union hA).1 B s, by decide⟩

/-! ## Removing the null marks again -/

theorem withoutNullPieces_eq_self_iff {ps : List Piece} :
    withoutNullPieces ps = ps ↔ nullPiece ∉ ps := by
  refine ⟨fun h => ?_, withoutNullPieces_of_not_mem⟩
  rw [← h]
  exact nullPiece_not_mem_withoutNullPieces ps

theorem reading_compact (s : Bytes) : reading (compact s) = withoutNullPieces (reading s) := by
  rw [compact_eq_dropNulls]
  induction s using reading_induction with
  | nil => rfl
  | dangling => rfl
  | guarded b rest ih =>
    rw [dropNulls_guarded, reading_guarded, reading_guarded, ih]
    exact (List.filter_cons_of_pos (by simp [nullPiece])).symm
  | bare b rest hb ih =>
    rw [dropNulls_bare hb, reading_bare hb]
    by_cases hn : b = nullMark
    · subst hn
      rw [if_pos rfl, List.nil_append, ih]
      rfl
    · have hne : Piece.bare (.single b) ≠ nullPiece := by
        simpa [nullPiece, Character.single] using hn
      rw [if_neg hn, List.singleton_append, reading_bare hb, ih]
      exact (List.filter_cons_of_pos (by simpa using hne)).symm

theorem compact_eq_self_iff_reading (s : Bytes) : compact s = s ↔ nullPiece ∉ reading s := by
  rw [← reading_inj, reading_compact, withoutNullPieces_eq_self_iff]

theorem compact_compact (s : Bytes) : compact (compact s) = compact s := by
  rw [compact_eq_self_iff_reading, reading_compact]
  exact nullPiece_not_mem_withoutNullPieces _

/-! ### Which texts are left as they are -/

theorem nullPiece_not_mem_reading_iff (s : Bytes) :
    nullPiece ∉ reading s ↔ ∀ i, s[i]? = some nullMark → isGuarded s i = true := by
  have h := forall_mem_reading_iff (fun p => p ≠ nullPiece) s
  rw [List.forall_mem_ne'] at h
  rw [h]
  simp only [ne_eq, Piece.ofByte_eq_nullPiece_iff]
  constructor
  · rintro ⟨hpieces, -⟩ i hi
    have hmark : nullMark ≠ escapeMark := by decide
    by_contra hg
    exact hpieces i nullMark hi (fun he => absurd he hmark) ⟨by simpa using hg, rfl⟩
  · refine fun hg => ⟨?_, fun _ he => by simp [nullPiece] at he⟩
    rintro i b hb - ⟨hi, rfl⟩
    rw [hg i hb] at hi
    exact absurd hi (by decide)

theorem copiesTail_bytes : CopiesTail Piece.bytes where
  bare _ _ := rfl
  guarded _ := rfl
  high _ _ := rfl

theorem flatMap_bytes_pieces_characters (s : Bytes) :
    (pieces (characters s)).flatMap Piece.bytes = s := by
  rw [flatMap_pieces_characters copiesTail_bytes]
  exact spell_reading s

theorem Piece.withoutNull_sublist_bytes (p : Piece) : p.withoutNull.Sublist p.bytes := by
  cases p with
  | bare c =>
    rw [Piece.withoutNull]
    split
    · exact List.nil_sublist _
    · exact List.Sublist.refl _
  | guarded c => exact List.Sublist.refl _
  | dangling => exact List.Sublist.refl _

theorem Piece.bytes_eq_withoutNull_iff (p : Piece) :
    p.bytes = p.withoutNull ↔ ∀ c, p = .bare c → c.isNull = false := by
  cases p with
  | bare c =>
    rw [Piece.withoutNull]
    cases h : c.isNull with
    | true => simp [Piece.bytes, Character.bytes, h]
    | false => simp [Piece.bytes, h]
  | guarded c => simp [Piece.bytes, Piece.withoutNull]
  | dangling => simp [Piece.bytes, Piece.withoutNull]

theorem compact_eq_self_iff_characters (s : Bytes) :
    compact s = s ↔ ∀ c, .bare c ∈ pieces (characters s) → c.isNull = false := by
  have hkept : compact s = (pieces (characters s)).flatMap Piece.withoutNull :=
    compact_eq_dropNulls s
  have hiff := flatMap_eq_flatMap_iff Piece.withoutNull_sublist_bytes (pieces (characters s))
  rw [flatMap_bytes_pieces_characters, ← hkept] at hiff
  rw [eq_comm, hiff]
  simp only [Piece.bytes_eq_withoutNull_iff]
  constructor
  · exact fun h c hc => h _ hc c rfl
  · rintro h p hp c rfl
    exact h c hp

/-- The removal of null marks is done once and for all. It leaves a text as it is exactly when every
null mark stands right after a mark that is not guarded itself, that is, when none is a bare character
of the text; and so it does what the encoders write, for an expansion when no sentinel separates. -/
theorem compact_fixed_points :
    (∀ s : Bytes, compact (compact s) = compact s) ∧
    (∀ s : Bytes,
      (compact s = s ↔ ∀ i, s[i]? = some nullMark → isGuarded s i = true) ∧
      (compact s = s ↔ ∀ c, .bare c ∈ pieces (characters s) → c.isNull = false)) ∧
    (∀ s : Bytes, s ≠ [] → compact (Full.encode s) = Full.encode s) ∧
    (∀ (ifs : Separators) (s : Bytes),
      compact (Selective.encode .assignment ifs s) = Selective.encode .assignment ifs s) ∧
    ∀ ifs : Separators, ifs.contains escapeMark = false → ifs.contains nullMark = false →
      ∀ s : Bytes, compact (Selective.encode .expansion ifs s) = Selective.encode .expansion ifs s := by
  refine ⟨compact_compact, fun s => ⟨?_, compact_eq_self_iff_characters s⟩, fun s hs => ?_,
    fun ifs s => ?_, fun ifs hmark hnull s => ?_⟩
  · rw [compact_eq_self_iff_reading, nullPiece_not_mem_reading_iff]
  · rw [Full.encode_eq_spell hs]
    exact compact_spell_of_not_mem (Full.legible_of_mem_written s) (Full.nullPiece_not_mem_written s)
  · rw [Selective.encode_eq_spell]
    exact compact_spell_of_not_mem
      (Selective.legible_of_mem_written (Selective.protects_assignment ifs rfl) s)
      (Selective.nullPiece_not_mem_written (Selective.protects_assignment ifs rfl) s)
  · rw [Selective.encode_eq_spell]
    exact compact_spell_of_not_mem
      (Selective.legible_of_mem_written (Selective.protects_expansion rfl hmark) s)
      (Selective.nullPiece_not_mem_written (Selective.protects_expansion rfl hnull) s)

/-- Both sentinels and a broken character, encoded in each way. -/
theorem compact_fixed_points_sentinels :
    let s : Bytes := [nullMark, 0xc3, escapeMark, nullMark]
    s ≠ [] ∧ Separators.standard.contains escapeMark = false ∧
    Separators.standard.contains nullMark = false ∧
    compact [escapeMark, nullMark, escapeMark, 0xc3, escapeMark, escapeMark, escapeMark, nullMark] =
      [escapeMark, nullMark, escapeMark, 0xc3, escapeMark, escapeMark, escapeMark, nullMark] ∧
    compact [escapeMark, nullMark, 0xc3, escapeMark, escapeMark, escapeMark, nullMark] =
      [escapeMark, nullMark, 0xc3, escapeMark, escapeMark, escapeMark, nullMark] := by
  intro s
  have hs : s ≠ [] := by decide
  have hmark : Separators.standard.contains escapeMark = false := by decide
  have hnull : Separators.standard.contains nullMark = false := by decide
  obtain ⟨-, -, hfull, -, hexpansion⟩ := compact_fixed_points
  exact ⟨hs, hmark, hnull, hfull s hs, hexpansion .standard hmark hnull s⟩

end SentinelQuoting
