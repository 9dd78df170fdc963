import SentinelQuoting.Proofs.Spelling
import SentinelQuoting.Protection.Release

/-! # What releasing the separators leaves

Releasing takes marks away and nothing else. As long as the mark is no separator itself, a byte that
loses its mark is read as a bare one from then on, and every other piece is read as before
(`reading_releaseSeparators`), so the text still means the same. A text that was protected as on the
right of an assignment is left as it would be protected in an expansion, also when the mark is a
separator: such a text is read piece by piece before anything is released. -/
namespace SentinelQuoting
set_option autoImplicit false

/-! ## Pieces -/

/-- A piece after the release: the bytes that are released are bare. -/
def Piece.opened (released : UInt8 → Bool) : Piece → Piece
  | .bare c => .bare c
  | .guarded c => if released c.lead then .bare c else .guarded c
  | .dangling => .dangling

theorem Piece.content_opened (released : UInt8 → Bool) (p : Piece) :
    (p.opened released).content = p.content := by
  cases p with
  | bare c => rfl
  | guarded c =>
    rw [Piece.opened]
    split <;> rfl
  | dangling => rfl

theorem Piece.opened_eq_dangling_iff {released : UInt8 → Bool} {p : Piece} :
    p.opened released = .dangling ↔ p = .dangling := by
  cases p with
  | bare c => exact Iff.rfl
  | guarded c =>
    rw [Piece.opened]
    split <;> simp
  | dangling => exact Iff.rfl

theorem Piece.opened_eq_bare_iff {released : UInt8 → Bool} {p : Piece} {c : Character} :
    p.opened released = .bare c ↔ p = .bare c ∨ (p = .guarded c ∧ released c.lead = true) := by
  cases p with
  | bare d => simp [Piece.opened]
  | guarded d =>
    rw [Piece.opened]
    by_cases h : released d.lead = true
    · rw [if_pos h]
      constructor
      · intro he
        obtain rfl := Piece.bare.inj he
        exact .inr ⟨rfl, h⟩
      · rintro (he | ⟨he, -⟩)
        · exact absurd he (by simp)
        · rw [Piece.guarded.inj he]
    · rw [if_neg h]
      constructor
      · intro he
        exact absurd he (by simp)
      · rintro (he | ⟨he, hc⟩)
        · exact he
        · rw [← Piece.guarded.inj he] at hc
          exact absurd hc h
  | dangling => simp [Piece.opened]

/-! ## Texts -/

section Release
variable (ifs : Separators)

theorem releaseSeparators_eq (s : Bytes) :
    releaseSeparators ifs s = (reading s).flatMap (Piece.release ifs.contains) :=
  flatMap_pieces_characters (copiesTail_release _) s

theorem releaseSeparators_guarded (b : UInt8) (rest : Bytes) :
    releaseSeparators ifs (escapeMark :: b :: rest) =
      (if ifs.contains b then [b] else [escapeMark, b]) ++ releaseSeparators ifs rest := by
  rw [releaseSeparators_eq, releaseSeparators_eq, reading_guarded, List.flatMap_cons]
  rfl

theorem releaseSeparators_bare {b : UInt8} (h : b ≠ escapeMark) (rest : Bytes) :
    releaseSeparators ifs (b :: rest) = b :: releaseSeparators ifs rest := by
  rw [releaseSeparators_eq, releaseSeparators_eq, reading_bare h, List.flatMap_cons]
  rfl

variable {ifs} (hmark : ifs.contains escapeMark = false)
include hmark

theorem reading_releaseSeparators (s : Bytes) :
    reading (releaseSeparators ifs s) = (reading s).map (Piece.opened ifs.contains) := by
  induction s using reading_induction with
  | nil => rfl
  | dangling => rfl
  | guarded b rest ih =>
    have hopened : Piece.opened ifs.contains (.guarded (.single b)) =
        if ifs.contains b then .bare (.single b) else .guarded (.single b) := rfl
    rw [releaseSeparators_guarded, reading_guarded, List.map_cons, hopened, ← ih]
    by_cases hb : ifs.contains b = true
    · -- a byte that is released is not a mark, so nothing after it changes its place
      have hne : b ≠ escapeMark := Separators.ne_of_contains hb hmark
      rw [if_pos hb, if_pos hb, List.singleton_append, reading_bare hne]
    · rw [if_neg hb, if_neg hb, List.cons_append, List.singleton_append, reading_guarded]
  | bare b rest hb ih =>
    rw [releaseSeparators_bare ifs hb, reading_bare hb, reading_bare hb, List.map_cons, ih]
    rfl

theorem releaseSeparators_eq_bareEscape_iff {s : Bytes} :
    releaseSeparators ifs s = bareEscape ↔ s = bareEscape := by
  have hread : reading bareEscape = [.dangling] := rfl
  rw [← reading_inj, reading_releaseSeparators hmark, hread, List.map_eq_singleton_iff,
    ← reading_inj, hread]
  simp only [Piece.opened_eq_dangling_iff, exists_eq_right]

theorem releaseSeparators_eq_quotedNull_iff {s : Bytes} :
    releaseSeparators ifs s = quotedNull ↔
      s = quotedNull ∨ (s = [escapeMark, nullMark] ∧ ifs.contains nullMark = true) := by
  have hbare : reading quotedNull = [nullPiece] := rfl
  have hguarded : reading [escapeMark, nullMark] = [.guarded (.single nullMark)] := rfl
  rw [← reading_inj, reading_releaseSeparators hmark, hbare, List.map_eq_singleton_iff,
    ← reading_inj (t := quotedNull), ← reading_inj (t := [escapeMark, nullMark]), hbare, hguarded]
  simp only [nullPiece, Piece.opened_eq_bare_iff]
  constructor
  · rintro ⟨p, hp, rfl | ⟨rfl, hnull⟩⟩
    · exact .inl hp
    · exact .inr ⟨hp, hnull⟩
  · rintro (hp | ⟨hp, hnull⟩)
    · exact ⟨_, hp, .inl rfl⟩
    · exact ⟨_, hp, .inr ⟨rfl, hnull⟩⟩

theorem decodeReporting_releaseSeparators {s : Bytes}
    (h : ¬ (s = [escapeMark, nullMark] ∧ ifs.contains nullMark = true)) (sink : Sink) :
    Full.decode (releaseSeparators ifs s) = Full.decode s ∧
      Full.decodeReporting (releaseSeparators ifs s) sink = Full.decodeReporting s sink := by
  by_cases hbare : s = bareEscape
  · subst hbare
    exact ⟨rfl, rfl⟩
  · have hbareReleased : releaseSeparators ifs s ≠ bareEscape :=
      fun he => hbare ((releaseSeparators_eq_bareEscape_iff hmark).mp he)
    have hdecode : Full.decode (releaseSeparators ifs s) = Full.decode s := by
      by_cases hnull : s = quotedNull
      · subst hnull
        rfl
      · have hnullReleased : releaseSeparators ifs s ≠ quotedNull := by
          intro he
          rcases (releaseSeparators_eq_quotedNull_iff hmark).mp he with he | he
          · exact hnull he
          · exact h he
        rw [Full.decode_eq hbareReleased hnullReleased, Full.decode_eq hbare hnull,
          reading_releaseSeparators hmark, List.flatMap_map]
        simp only [Piece.content_opened]
    rw [Full.decodeReporting_eq hbareReleased, Full.decodeReporting_eq hbare, hdecode]
    exact ⟨rfl, rfl⟩

end Release

/-! ## Main results -/

/-- Releasing the separators does not change what a text means, nor what its decoding reports, when
the mark is no separator. The one exception is a protected null mark alone: where null marks
separate, it is left as the quoted empty string. -/
theorem decode_releaseSeparators {ifs : Separators} (hmark : ifs.contains escapeMark = false)
    (s : Bytes) :
    (¬ (s = [escapeMark, nullMark] ∧ ifs.contains nullMark = true) →
      Full.decode (releaseSeparators ifs s) = Full.decode s ∧
      ∀ sink : Sink, Full.decodeReporting (releaseSeparators ifs s) sink =
        Full.decodeReporting s sink) ∧
    (s = [escapeMark, nullMark] ∧ ifs.contains nullMark = true →
      Full.decode (releaseSeparators ifs s) = [] ∧ Full.decode s = [nullMark] ∧
      ∀ sink : Sink, Full.decodeReporting (releaseSeparators ifs s) sink = .ok [] sink ∧
        Full.decodeReporting s sink = .ok [nullMark] sink) := by
  constructor
  · intro h
    exact ⟨(decodeReporting_releaseSeparators hmark h .silent).1,
      fun sink => (decodeReporting_releaseSeparators hmark h sink).2⟩
  · rintro ⟨rfl, hnull⟩
    have hreleased : releaseSeparators ifs [escapeMark, nullMark] = quotedNull :=
      (releaseSeparators_eq_quotedNull_iff hmark).mpr (.inr ⟨rfl, hnull⟩)
    rw [hreleased]
    exact ⟨rfl, rfl, fun sink => ⟨rfl, rfl⟩⟩

/-- The lead byte of a longer character and the null mark as separators: a character whose mark is
released, a mark that stays, and the protected null mark alone. -/
theorem decode_releaseSeparators_lead :
    let ifs : Separators := ⟨[0xe2, nullMark]⟩
    let s : Bytes := [0xe2, escapeMark, 0xe2, 0x82, 0xac, escapeMark, escapeMark, escapeMark]
    ifs.contains escapeMark = false ∧
    (releaseSeparators ifs s = [0xe2, 0xe2, 0x82, 0xac, escapeMark, escapeMark, escapeMark] ∧
      Full.decode (releaseSeparators ifs s) = Full.decode s) ∧
    Full.decode (releaseSeparators ifs [escapeMark, nullMark]) = [] := by
  intro ifs s
  have hmark : ifs.contains escapeMark = false := by decide
  have hs : ¬ (s = [escapeMark, nullMark] ∧ ifs.contains nullMark = true) := by decide
  exact ⟨hmark, ⟨by decide, ((decode_releaseSeparators hmark s).1 hs).1⟩,
    ((decode_releaseSeparators hmark _).2 ⟨rfl, by decide⟩).1⟩

/-- Releasing the separators takes back exactly the marks that a value gets on the right of an
assignment but would not get in an expansion, whatever the separators are. -/
theorem releaseSeparators_encode_assignment (ifs : Separators) (s : Bytes) :
    releaseSeparators ifs (Selective.encode .assignment ifs s) =
      Selective.encode .expansion ifs s := by
  have hlegible : ∀ p ∈ Selective.written .assignment ifs s, p.Legible :=
    Selective.legible_of_mem_written (Selective.protects_assignment ifs rfl) s
  calc releaseSeparators ifs (Selective.encode .assignment ifs s)
      = (Selective.written .assignment ifs s).flatMap (Piece.release ifs.contains) := by
        rw [releaseSeparators_eq, Selective.encode_eq_spell, reading_spell hlegible]
    _ = s.flatMap fun b =>
          if Selective.protects .assignment ifs b && !ifs.contains b then [escapeMark, b] else [b] :=
        flatMap_release_ofBytes _ _ _ _
    _ = Selective.encode .expansion ifs s := (Selective.encode_eq_flatMap .expansion ifs s).symm

end SentinelQuoting
