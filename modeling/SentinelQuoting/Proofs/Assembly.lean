import SentinelQuoting.Proofs.Compaction
import SentinelQuoting.Proofs.Spelling

/-! # A word put together from parts

The parts of a word are encoded one by one, each in the way its place asks for, and joined. Once the
null marks that stand for empty parts have been removed, decoding gives the contents of the parts.
The bytes of two parts can join into one character; it does not matter, because each part is a list
of pieces of single bytes, and the pieces of the parts in order are the pieces of the word. -/
namespace SentinelQuoting
set_option autoImplicit false

/-! ## Removal and decoding of what was spelled -/

theorem Piece.withoutNull_of_legible {p : Piece} (h : p.Legible) :
    p.withoutNull = if p ≠ nullPiece then p.bytes else [] := by
  cases p with
  | dangling => exact absurd h id
  | guarded c => rfl
  | bare c =>
    obtain ⟨lead, tail⟩ := c
    obtain ⟨htail, -⟩ : tail = [] ∧ lead ≠ escapeMark := h
    subst htail
    by_cases hn : lead = nullMark
    · subst hn
      rfl
    · have hne : Piece.bare ⟨lead, []⟩ ≠ nullPiece := by
        simpa [nullPiece, Character.single] using hn
      have hnull : Character.isNull ⟨lead, []⟩ = false := by simpa [Character.isNull] using hn
      rw [if_pos hne, Piece.withoutNull, hnull]
      rfl

/-- The pieces that the removal of null marks leaves. -/
def withoutNullPieces (ps : List Piece) : List Piece := ps.filter fun p => p ≠ nullPiece

theorem withoutNullPieces_of_not_mem {ps : List Piece} (h : nullPiece ∉ ps) :
    withoutNullPieces ps = ps := by
  unfold withoutNullPieces
  rw [List.filter_eq_self]
  intro p hp
  apply decide_eq_true
  rintro rfl
  exact h hp

theorem nullPiece_not_mem_withoutNullPieces (ps : List Piece) :
    nullPiece ∉ withoutNullPieces ps := by
  intro h
  have hne := (List.mem_filter.mp h).2
  simp at hne

theorem compact_spell {ps : List Piece} (h : ∀ p ∈ ps, p.Legible) :
    compact (spell ps) = spell (withoutNullPieces ps) := by
  rw [compact_eq_dropNulls, dropNulls_eq, reading_spell h]
  induction ps with
  | nil => rfl
  | cons p ps ih =>
    have hps := ih fun q hq => h q (List.mem_cons_of_mem p hq)
    rw [List.flatMap_cons, hps, Piece.withoutNull_of_legible (h p List.mem_cons_self)]
    unfold withoutNullPieces
    by_cases hn : p = nullPiece
    · rw [if_neg (not_not_intro hn), List.filter_cons_of_neg (by simpa using hn), List.nil_append]
    · rw [if_pos hn, List.filter_cons_of_pos (by simpa using hn), spell_cons]

theorem compact_spell_of_not_mem {ps : List Piece} (h : ∀ p ∈ ps, p.Legible)
    (hnull : nullPiece ∉ ps) : compact (spell ps) = spell ps := by
  rw [compact_spell h, withoutNullPieces_of_not_mem hnull]

theorem decodeReporting_compact_spell {ps : List Piece} (h : ∀ p ∈ ps, p.Legible) (sink : Sink) :
    Full.decodeReporting (compact (spell ps)) sink =
      .ok ((withoutNullPieces ps).flatMap Piece.content) sink := by
  have hlegible : ∀ p ∈ withoutNullPieces ps, p.Legible :=
    fun p hp => h p (List.mem_of_mem_filter hp)
  have hnull : nullPiece ∉ withoutNullPieces ps := nullPiece_not_mem_withoutNullPieces ps
  rw [compact_spell h, Full.decodeReporting_spell hlegible (spell_ne_quotedNull hlegible hnull)]

/-! ## Parts -/

/-- What goes into a word. -/
inductive Part
  /-- A text that stays one field whatever comes. -/
  | quoted (text : Bytes)
  /-- A value on the right of an assignment, under these separators. -/
  | assigned (ifs : Separators) (text : Bytes)
  /-- A value that is still to be split, under these separators. -/
  | expanded (ifs : Separators) (text : Bytes)
  /-- The byte with this code; 0 stands for the empty text. -/
  | byte (code : Int)

namespace Part

def encode : Part → Except Fault Bytes
  | .quoted text => .ok (Full.encode text)
  | .assigned ifs text => .ok (Selective.encode .assignment ifs text)
  | .expanded ifs text => .ok (Selective.encode .expansion ifs text)
  | .byte code => Full.encodeCode code

/-- What a part contributes to the word. -/
def content : Part → Bytes
  | .quoted text => text
  | .assigned _ text => text
  | .expanded _ text => text
  | .byte code => if code = 0 then [] else [UInt8.ofNat code.toNat]

/-- A value that is to be split keeps its sentinels only when they are no separators, and a code has
to be that of a byte. -/
def Admissible : Part → Prop
  | .quoted _ => True
  | .assigned _ _ => True
  | .expanded ifs _ => ifs.contains escapeMark = false ∧ ifs.contains nullMark = false
  | .byte code => 0 ≤ code ∧ code < 256

instance : DecidablePred Admissible
  | .quoted _ => inferInstanceAs (Decidable True)
  | .assigned _ _ => inferInstanceAs (Decidable True)
  | .expanded ifs _ => inferInstanceAs
      (Decidable (ifs.contains escapeMark = false ∧ ifs.contains nullMark = false))
  | .byte code => inferInstanceAs (Decidable (0 ≤ code ∧ code < 256))

def pieces : Part → List Piece
  | .quoted text => if text = [] then [nullPiece] else Full.written text
  | .assigned ifs text => Selective.written .assignment ifs text
  | .expanded ifs text => Selective.written .expansion ifs text
  | .byte code => if code = 0 then [nullPiece] else [.ofByte true (UInt8.ofNat code.toNat)]

theorem byte_eq_zero_iff {code : Int} (h : 0 ≤ code ∧ code < 256) :
    UInt8.ofNat code.toNat = 0 ↔ code = 0 := by
  rw [← UInt8.toNat_inj, UInt8.toNat_ofNat', UInt8.toNat_zero]
  omega

theorem encode_eq {p : Part} (h : p.Admissible) : p.encode = .ok (spell p.pieces) := by
  cases p with
  | quoted text =>
    rw [encode, pieces]
    by_cases ht : text = []
    · rw [if_pos ht, ht]
      rfl
    · rw [if_neg ht, Full.encode_eq_spell ht]
  | assigned ifs text => rw [encode, Selective.encode_eq_spell, pieces]
  | expanded ifs text => rw [encode, Selective.encode_eq_spell, pieces]
  | byte code =>
    have hrange : 0 ≤ code ∧ code < 256 := h
    have hzero := byte_eq_zero_iff hrange
    rw [encode, pieces, Full.encodeCode, if_pos hrange, Full.encodeByte]
    by_cases hc : code = 0
    · rw [if_pos (hzero.mpr hc), if_pos hc]
      rfl
    · rw [if_neg fun he => hc (hzero.mp he), if_neg hc]
      rfl

theorem legible_of_mem_pieces {p : Part} (h : p.Admissible) :
    ∀ q ∈ p.pieces, q.Legible := by
  have hnull : nullPiece.Legible := ⟨rfl, by decide⟩
  cases p with
  | quoted text =>
    rw [pieces]
    split
    · exact List.forall_mem_singleton.mpr hnull
    · exact Full.legible_of_mem_written text
  | assigned ifs text =>
    exact Selective.legible_of_mem_written (Selective.protects_assignment ifs rfl) text
  | expanded ifs text =>
    exact Selective.legible_of_mem_written (Selective.protects_expansion rfl h.1) text
  | byte code =>
    rw [pieces]
    split
    · exact List.forall_mem_singleton.mpr hnull
    · exact List.forall_mem_singleton.mpr (Piece.legible_ofByte fun _ => rfl)

theorem content_pieces {p : Part} (h : p.Admissible) :
    (withoutNullPieces p.pieces).flatMap Piece.content = p.content := by
  cases p with
  | quoted text =>
    rw [pieces, content]
    by_cases ht : text = []
    · rw [if_pos ht, ht]
      rfl
    · rw [if_neg ht, withoutNullPieces_of_not_mem (Full.nullPiece_not_mem_written text),
        Full.flatMap_content_written]
  | assigned ifs text =>
    have hnull : nullPiece ∉ Selective.written .assignment ifs text :=
      Selective.nullPiece_not_mem_written (Selective.protects_assignment ifs rfl) text
    rw [pieces, withoutNullPieces_of_not_mem hnull, Selective.flatMap_content_written, content]
  | expanded ifs text =>
    have hnull : nullPiece ∉ Selective.written .expansion ifs text :=
      Selective.nullPiece_not_mem_written (Selective.protects_expansion rfl h.2) text
    rw [pieces, withoutNullPieces_of_not_mem hnull, Selective.flatMap_content_written, content]
  | byte code =>
    rw [pieces, content]
    by_cases hc : code = 0
    · rw [if_pos hc, if_pos hc]
      rfl
    · have hnull : nullPiece ∉ [Piece.ofByte true (UInt8.ofNat code.toNat)] := by
        intro hm
        have he := Piece.ofByte_eq_nullPiece_iff.mp (List.mem_singleton.mp hm).symm
        exact absurd he.1 (by decide)
      rw [if_neg hc, if_neg hc, withoutNullPieces_of_not_mem hnull]
      rfl

end Part

/-! ## Words -/

/-- The word that parts are joined to. -/
def assemble (parts : List Part) : Except Fault Bytes := do
  let encodings ← parts.mapM Part.encode
  return encodings.flatten

theorem assemble_cons {p : Part} {parts : List Part} {text rest : Bytes} (hp : p.encode = .ok text)
    (hparts : assemble parts = .ok rest) : assemble (p :: parts) = .ok (text ++ rest) := by
  unfold assemble at hparts ⊢
  rw [List.mapM_cons, hp]
  cases hm : parts.mapM Part.encode with
  | error fault =>
    rw [hm] at hparts
    exact absurd hparts (by simp [bind, Except.bind])
  | ok encodings =>
    rw [hm] at hparts
    have hrest : encodings.flatten = rest := Except.ok.inj hparts
    rw [← hrest]
    rfl

theorem assemble_eq {parts : List Part} (h : ∀ p ∈ parts, p.Admissible) :
    assemble parts = .ok (spell (parts.flatMap Part.pieces)) := by
  induction parts with
  | nil => rfl
  | cons p parts ih =>
    have hp : p.encode = .ok (spell p.pieces) := Part.encode_eq (h p List.mem_cons_self)
    rw [assemble_cons hp (ih fun q hq => h q (List.mem_cons_of_mem p hq)), List.flatMap_cons,
      spell_append]

/-- A word can be put together from any parts, and decoding it after the removal of null marks gives
all their contents and reports nothing. -/
theorem decode_compact_assemble {parts : List Part} (h : ∀ p ∈ parts, p.Admissible) :
    ∃ word, assemble parts = .ok word ∧
      ∀ sink : Sink, Full.decodeReporting (compact word) sink =
        .ok (parts.flatMap Part.content) sink := by
  refine ⟨spell (parts.flatMap Part.pieces), assemble_eq h, fun sink => ?_⟩
  have hlegible : ∀ q ∈ parts.flatMap Part.pieces, q.Legible := by
    intro q hq
    obtain ⟨p, hp, hqp⟩ := List.mem_flatMap.mp hq
    exact Part.legible_of_mem_pieces (h p hp) q hqp
  have hcontent : (withoutNullPieces (parts.flatMap Part.pieces)).flatMap Piece.content =
      parts.flatMap Part.content := by
    unfold withoutNullPieces
    rw [List.filter_flatMap, List.flatMap_assoc]
    exact List.flatMap_congr fun p hp => Part.content_pieces (h p hp)
  rw [decodeReporting_compact_spell hlegible, hcontent]

/-- Two parts whose bytes join into one character, with an empty part and the code 0 around them. -/
theorem decode_compact_assemble_joined :
    (∀ p ∈ [Part.byte 0, .expanded .standard [0xc3], .assigned ⟨[nullMark]⟩ [0xa9, nullMark],
      .quoted [], .quoted [0xe2, 0x82, 0xac], .byte 1], p.Admissible) ∧
    ∃ word, assemble [Part.byte 0, .expanded .standard [0xc3],
        .assigned ⟨[nullMark]⟩ [0xa9, nullMark], .quoted [], .quoted [0xe2, 0x82, 0xac],
        .byte 1] = .ok word ∧
      ∀ sink : Sink, Full.decodeReporting (compact word) sink =
        .ok [0xc3, 0xa9, nullMark, 0xe2, 0x82, 0xac, 0x01] sink := by
  have h : ∀ p ∈ [Part.byte 0, .expanded .standard [0xc3],
      .assigned ⟨[nullMark]⟩ [0xa9, nullMark], .quoted [], .quoted [0xe2, 0x82, 0xac],
      .byte 1], p.Admissible := by decide
  exact ⟨h, decode_compact_assemble h⟩

end SentinelQuoting
