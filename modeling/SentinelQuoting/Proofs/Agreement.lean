import Mathlib.Data.List.Flatten
import SentinelQuoting.Proofs.PlainScan
import SentinelQuoting.Proofs.SelectiveRoundTrip

/-! # Where the two decoders agree

The selective decoder releases some bytes and the full decoder takes every mark away. Both read a
text in the same pieces, also where one resumes at a byte that the other has passed over, and for
each piece the full decoder gives a part of what the selective one gives. So nothing makes up for a
mark that only one of them keeps, and the results agree on a text when they agree on every piece of
it. Which bytes are protected, and whether the last mark protects none, is told by position, as all
pieces of a text can be (`forall_mem_reading_iff`). The texts that the full decoder reads as a whole
are apart. -/
namespace SentinelQuoting
set_option autoImplicit false

/-! ## Agreement piece by piece -/

/-- A rule that never gives more than another agrees with it on a list only if it does so on every
element. -/
theorem flatMap_eq_flatMap_iff {α β : Type} {f g : α → List β} (h : ∀ x, (g x).Sublist (f x))
    (xs : List α) : xs.flatMap f = xs.flatMap g ↔ ∀ x ∈ xs, f x = g x := by
  induction xs with
  | nil => simp
  | cons x xs ih =>
    rw [List.flatMap_cons, List.flatMap_cons, List.forall_mem_cons, ← ih]
    constructor
    · intro he
      have hrest : (xs.flatMap g).Sublist (xs.flatMap f) := .flatMap_right xs fun y _ => h y
      have hlength := congrArg List.length he
      rw [List.length_append, List.length_append] at hlength
      have hle := (h x).length_le
      have hleRest := hrest.length_le
      exact ⟨((h x).eq_of_length (by omega)).symm, (hrest.eq_of_length (by omega)).symm⟩
    · rintro ⟨hx, hxs⟩
      rw [hx, hxs]

theorem Piece.content_sublist_release (released : UInt8 → Bool) (p : Piece) :
    p.content.Sublist (p.release released) := by
  cases p with
  | bare c => exact List.Sublist.refl _
  | guarded c =>
    rw [Piece.release]
    split
    · exact List.Sublist.refl _
    · exact List.sublist_cons_self _ _
  | dangling => exact List.nil_sublist _

theorem Piece.release_eq_content_iff (released : UInt8 → Bool) (p : Piece) :
    p.release released = p.content ↔
      p ≠ .dangling ∧ ∀ c, p = .guarded c → released c.lead = true := by
  cases p with
  | bare c => simp [Piece.release, Piece.content]
  | guarded c =>
    rw [Piece.release, Piece.content]
    by_cases h : released c.lead = true
    · simp [h]
    · simp [h]
  | dangling => simp [Piece.release, Piece.content]

theorem flatMap_release_eq_content_iff (released : UInt8 → Bool) (s : Bytes) :
    (reading s).flatMap (Piece.release released) = (reading s).flatMap Piece.content ↔
      Closed s ∧ ∀ c, .guarded c ∈ reading s → released c.lead = true := by
  rw [flatMap_eq_flatMap_iff (Piece.content_sublist_release released)]
  simp only [Piece.release_eq_content_iff]
  constructor
  · intro h
    exact ⟨fun hd => (h _ hd).1 rfl, fun c hc => (h _ hc).2 c rfl⟩
  · rintro ⟨hclosed, hguarded⟩ p hp
    refine ⟨?_, ?_⟩
    · rintro rfl
      exact hclosed hp
    · rintro c rfl
      exact hguarded c hp

/-! ## Guarded positions -/

/-- The pieces of a text, told by position: one for every byte except the marks that protect, guarded
or bare as its position is, and a dangling mark when the end of the text is guarded. -/
theorem forall_mem_reading_iff (P : Piece → Prop) (s : Bytes) :
    (∀ p ∈ reading s, P p) ↔
      (∀ i b, s[i]? = some b → (b = escapeMark → isGuarded s i = true) →
        P (.ofByte (isGuarded s i) b)) ∧
      (isGuarded s s.length = true → P .dangling) := by
  -- the positions of the first piece are taken off, those behind it are the ones of the rest
  induction s using reading_induction with
  | nil => simp [isGuarded]
  | dangling =>
    rw [← Nat.and_forall_add_one]
    simp [isGuarded]
  | guarded x rest ih =>
    rw [← Nat.and_forall_add_one, ← Nat.and_forall_add_one, reading_guarded, List.forall_mem_cons, ih]
    simp only [isGuarded_mark, List.getElem?_cons_succ, List.length_cons]
    simp [isGuarded, Piece.ofByte, and_assoc]
  | bare x rest hx ih =>
    rw [← Nat.and_forall_add_one, reading_bare hx, List.forall_mem_cons, ih]
    simp only [isGuarded_bare hx, List.getElem?_cons_succ, List.length_cons]
    simp [isGuarded, hx, Piece.ofByte, and_assoc]

theorem closed_iff_isGuarded_length (s : Bytes) : Closed s ↔ isGuarded s s.length = false := by
  have h := forall_mem_reading_iff (fun p => p ≠ .dangling) s
  rw [List.forall_mem_ne'] at h
  unfold Closed
  rw [h]
  simp [Piece.ofByte_ne_dangling]

theorem forall_guarded_iff (released : UInt8 → Bool) (s : Bytes) :
    (∀ c, .guarded c ∈ reading s → released c.lead = true) ↔
      ∀ i b, isGuarded s i = true → s[i]? = some b → released b = true := by
  have h := forall_mem_reading_iff (fun p => ∀ c, p = .guarded c → released c.lead = true) s
  constructor
  · intro hguarded i b hi hb
    have hpieces := h.mp fun p hp c hc => hguarded c (hc ▸ hp)
    exact hpieces.1 i b hb (fun _ => hi) (.single b) (Piece.ofByte_eq_guarded_iff.mpr ⟨hi, rfl⟩)
  · intro hreleased c hc
    refine h.mpr ⟨fun i b hb _ d hd => ?_, fun _ d hd => by simp at hd⟩ _ hc c rfl
    obtain ⟨hi, rfl⟩ := Piece.ofByte_eq_guarded_iff.mp hd
    exact hreleased i b hi hb

/-! ## The decoders -/

/-- The two decoders give the same for the mark alone. For another text they do exactly when it is
not the null mark alone, no mark at its end is left without a byte to protect, and every protected
byte is one that the selective decoder releases. -/
theorem decode_eq_decode_iff (ifs : Separators) (s : Bytes) :
    Selective.decode ifs s = Full.decode s ↔
      s = bareEscape ∨ (s ≠ quotedNull ∧ isGuarded s s.length = false ∧
        ∀ i b, isGuarded s i = true → s[i]? = some b →
          b = escapeMark ∨ b = nullMark ∨ (ifs.isEmpty = true ∧ b = space)) := by
  by_cases hbare : s = bareEscape
  · subst hbare
    exact iff_of_true rfl (.inl rfl)
  by_cases hnull : s = quotedNull
  · subst hnull
    refine iff_of_false (fun h => ?_) ?_
    · exact absurd h (List.cons_ne_nil _ _)
    · rintro (h | ⟨h, -⟩)
      · exact hbare h
      · exact h rfl
  rw [Selective.decode_eq, Full.decode_eq hbare hnull, flatMap_release_eq_content_iff,
    forall_guarded_iff, closed_iff_isGuarded_length]
  simp only [Selective.isEndangered_iff]
  constructor
  · exact fun h => .inr ⟨hnull, h⟩
  · rintro (h | ⟨-, h⟩)
    · exact absurd h hbare
    · exact h

end SentinelQuoting
