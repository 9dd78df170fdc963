import SentinelQuoting.Proofs.Decoding

/-! # Texts written piece by piece

An encoder writes one piece for every byte of its text, some with a mark and some without. Such a
text is read back as the pieces it was written from, provided that no mark is written bare
(`reading_spell`). What a decoder does to an encoding is then what it does to each piece. -/
namespace SentinelQuoting
set_option autoImplicit false

/-- The text that pieces are written as. -/
def spell (ps : List Piece) : Bytes := ps.flatMap Piece.bytes

@[simp] theorem spell_nil : spell [] = [] := rfl

@[simp] theorem spell_cons (p : Piece) (ps : List Piece) : spell (p :: ps) = p.bytes ++ spell ps :=
  List.flatMap_cons

@[simp] theorem spell_append (ps qs : List Piece) : spell (ps ++ qs) = spell ps ++ spell qs :=
  List.flatMap_append

/-- A null mark that nothing protects. -/
def nullPiece : Piece := .bare (.single nullMark)

/-- Reading loses nothing. -/
theorem spell_reading (s : Bytes) : spell (reading s) = s := by
  induction s using reading_induction with
  | nil => rfl
  | dangling => rfl
  | guarded b rest ih =>
    rw [reading_guarded, spell_cons, ih]
    rfl
  | bare b rest hb ih =>
    rw [reading_bare hb, spell_cons, ih]
    rfl

theorem reading_inj {s t : Bytes} : reading s = reading t ↔ s = t := by
  constructor
  · intro h
    rw [← spell_reading s, h, spell_reading]
  · exact congrArg reading

/-! ## Reading back -/

/-- A piece of one byte that is read as it was written. -/
def Piece.Legible : Piece → Prop
  | .bare c => c.tail = [] ∧ c.lead ≠ escapeMark
  | .guarded c => c.tail = []
  | .dangling => False

theorem reading_spell {ps : List Piece} (h : ∀ p ∈ ps, p.Legible) : reading (spell ps) = ps := by
  induction ps with
  | nil => rfl
  | cons p ps ih =>
    have hp : p.Legible := h p List.mem_cons_self
    have hps : reading (spell ps) = ps := ih fun q hq => h q (List.mem_cons_of_mem p hq)
    rw [spell_cons]
    cases p with
    | dangling => exact absurd hp id
    | bare c =>
      obtain ⟨lead, tail⟩ := c
      obtain ⟨htail, hlead⟩ : tail = [] ∧ lead ≠ escapeMark := hp
      subst htail
      change reading (lead :: spell ps) = _
      rw [reading_bare hlead, hps]
      rfl
    | guarded c =>
      obtain ⟨lead, tail⟩ := c
      have htail : tail = [] := hp
      subst htail
      change reading (escapeMark :: lead :: spell ps) = _
      rw [reading_guarded, hps]
      rfl

theorem spell_ne_bareEscape {ps : List Piece} (h : ∀ p ∈ ps, p.Legible) : spell ps ≠ bareEscape := by
  intro he
  have hread : ps = [.dangling] := by
    rw [← reading_spell h, he]
    rfl
  rw [hread] at h
  exact h .dangling List.mem_cons_self

theorem spell_ne_quotedNull {ps : List Piece} (h : ∀ p ∈ ps, p.Legible)
    (hnull : nullPiece ∉ ps) : spell ps ≠ quotedNull := by
  intro he
  apply hnull
  rw [← reading_spell h, he]
  exact List.mem_cons_self

theorem Selective.decode_spell {ps : List Piece} (h : ∀ p ∈ ps, p.Legible) (ifs : Separators) :
    decode ifs (spell ps) = ps.flatMap (Piece.release (isEndangered ifs)) := by
  rw [decode_eq, reading_spell h]

theorem Full.decodeReporting_spell {ps : List Piece} (h : ∀ p ∈ ps, p.Legible)
    (hnull : spell ps ≠ quotedNull) (sink : Sink) :
    decodeReporting (spell ps) sink = .ok (ps.flatMap Piece.content) sink := by
  have hbare := spell_ne_bareEscape h
  rw [decodeReporting_eq hbare, decode_eq hbare hnull, reading_spell h]

/-! ## Bytes, some of them with a mark -/

/-- The piece of one byte. -/
def Piece.ofByte (marked : Bool) (b : UInt8) : Piece :=
  if marked then .guarded (.single b) else .bare (.single b)

theorem Piece.legible_ofByte {marked : Bool} {b : UInt8} (h : b = escapeMark → marked = true) :
    (Piece.ofByte marked b).Legible := by
  cases marked with
  | true => rfl
  | false => exact ⟨rfl, fun he => absurd (h he) (by simp)⟩

theorem Piece.bytes_ofByte (marked : Bool) (b : UInt8) :
    (Piece.ofByte marked b).bytes = if marked then [escapeMark, b] else [b] := by
  cases marked <;> rfl

theorem Piece.ofByte_eq_nullPiece_iff {marked : Bool} {b : UInt8} :
    Piece.ofByte marked b = nullPiece ↔ marked = false ∧ b = nullMark := by
  cases marked <;> simp [Piece.ofByte, nullPiece, Character.single]

theorem Piece.ofByte_eq_guarded_iff {marked : Bool} {b : UInt8} {c : Character} :
    Piece.ofByte marked b = .guarded c ↔ marked = true ∧ .single b = c := by
  cases marked <;> simp [Piece.ofByte]

theorem Piece.ofByte_ne_dangling (marked : Bool) (b : UInt8) : Piece.ofByte marked b ≠ .dangling := by
  cases marked <;> simp [Piece.ofByte]

@[simp] theorem Piece.content_ofByte (marked : Bool) (b : UInt8) :
    (Piece.ofByte marked b).content = [b] := by
  cases marked <;> rfl

theorem Piece.release_ofByte (released : UInt8 → Bool) (marked : Bool) (b : UInt8) :
    (Piece.ofByte marked b).release released =
      if marked && !released b then [escapeMark, b] else [b] := by
  cases marked with
  | false => rfl
  | true =>
    change (if released b then [b] else [escapeMark, b]) = _
    cases released b <;> rfl

section OfBytes
variable {α : Type} (mark : α → Bool) (byte : α → UInt8) (xs : List α)

/-- The pieces of bytes that come with the answer whether they are marked. -/
def ofBytes : List Piece := xs.map fun x => .ofByte (mark x) (byte x)

theorem spell_ofBytes :
    spell (ofBytes mark byte xs) =
      xs.flatMap fun x => if mark x then [escapeMark, byte x] else [byte x] := by
  unfold spell ofBytes
  rw [List.flatMap_map]
  simp only [Piece.bytes_ofByte]

theorem flatMap_content_ofBytes :
    (ofBytes mark byte xs).flatMap Piece.content = xs.map byte := by
  unfold ofBytes
  rw [List.flatMap_map, List.map_eq_flatMap]
  simp only [Piece.content_ofByte]

theorem flatMap_release_ofBytes (released : UInt8 → Bool) :
    (ofBytes mark byte xs).flatMap (Piece.release released) =
      xs.flatMap fun x => if mark x && !released (byte x) then [escapeMark, byte x] else [byte x] := by
  unfold ofBytes
  rw [List.flatMap_map]
  simp only [Piece.release_ofByte]

variable {mark byte xs}

theorem legible_of_mem_ofBytes (h : ∀ x ∈ xs, byte x = escapeMark → mark x = true) :
    ∀ p ∈ ofBytes mark byte xs, p.Legible := by
  intro p hp
  obtain ⟨x, hx, rfl⟩ := List.mem_map.mp hp
  exact Piece.legible_ofByte (h x hx)

theorem nullPiece_not_mem_ofBytes (h : ∀ x ∈ xs, byte x = nullMark → mark x = true) :
    nullPiece ∉ ofBytes mark byte xs := by
  intro hp
  obtain ⟨x, hx, he⟩ := List.mem_map.mp hp
  obtain ⟨hmark, hbyte⟩ := Piece.ofByte_eq_nullPiece_iff.mp he
  rw [h x hx hbyte] at hmark
  exact absurd hmark (by decide)

end OfBytes

/-! ## The selective encoder -/

theorem flatMap_characters {g : UInt8 → Bytes} (hg : ∀ b, 0x80 ≤ b → g b = [b]) (s : Bytes) :
    (characters s).flatMap (fun c => g c.lead ++ c.tail) = s.flatMap g := by
  have hbytes : ∀ c ∈ characters s, g c.lead ++ c.tail = c.bytes.flatMap g := by
    intro c hc
    have htail : c.tail.flatMap g = c.tail := by
      calc c.tail.flatMap g = c.tail.flatMap (fun b => [b]) :=
            List.flatMap_congr fun b hb => hg b ((sound_of_mem_characters hc).tail_high b hb)
        _ = c.tail := by simp
    rw [Character.bytes, List.flatMap_cons, htail]
  rw [List.flatMap_congr hbytes, ← List.flatMap_assoc, flatMap_bytes_characters]

namespace Selective

/-- The pieces that the selective encoder writes. -/
def written (place : Place) (ifs : Separators) (s : Bytes) : List Piece :=
  ofBytes (protects place ifs) id s

theorem not_isEndangered_of_high (ifs : Separators) {b : UInt8} (h : 0x80 ≤ b) :
    isEndangered ifs b = false := by
  have hmark : b ≠ escapeMark := ne_of_high h (by decide)
  have hnull : b ≠ nullMark := ne_of_high h (by decide)
  have hspace : b ≠ space := ne_of_high h (by decide)
  simp [isEndangered, isSentinel, hmark, hnull, hspace]

theorem not_protects_of_high (place : Place) (ifs : Separators) {b : UInt8} (h : 0x80 ≤ b) :
    protects place ifs b = false := by
  cases place <;> simp [protects, not_isEndangered_of_high ifs h]

theorem encode_eq_flatMap (place : Place) (ifs : Separators) (s : Bytes) :
    encode place ifs s =
      s.flatMap fun b => if protects place ifs b then [escapeMark, b] else [b] := by
  have hhigh : ∀ b : UInt8, 0x80 ≤ b →
      (if protects place ifs b then [escapeMark, b] else [b]) = [b] := by
    intro b hb
    rw [not_protects_of_high place ifs hb]
    rfl
  unfold encode encodeIn
  rw [← flatMap_characters hhigh]
  apply List.flatMap_congr
  intro c _
  split <;> rfl

theorem encode_eq_spell (place : Place) (ifs : Separators) (s : Bytes) :
    encode place ifs s = spell (written place ifs s) := by
  rw [encode_eq_flatMap, written, spell_ofBytes]
  rfl

theorem flatMap_content_written (place : Place) (ifs : Separators) (s : Bytes) :
    (written place ifs s).flatMap Piece.content = s := by
  rw [written, flatMap_content_ofBytes, List.map_id]

theorem legible_of_mem_written {place : Place} {ifs : Separators}
    (h : protects place ifs escapeMark = true) (s : Bytes) :
    ∀ p ∈ written place ifs s, p.Legible := by
  apply legible_of_mem_ofBytes
  intro b _ hb
  rwa [← hb] at h

theorem nullPiece_not_mem_written {place : Place} {ifs : Separators}
    (h : protects place ifs nullMark = true) (s : Bytes) : nullPiece ∉ written place ifs s := by
  apply nullPiece_not_mem_ofBytes
  intro b _ hb
  rwa [← hb] at h

end Selective

/-! ## The full encoder -/

namespace Full

/-- The bytes of characters, the first of each with a mark. -/
def markFirst (cs : List Character) : List (Bool × UInt8) :=
  cs.flatMap fun c => (true, c.lead) :: c.tail.map (Prod.mk false)

/-- The pieces that the full encoder writes for a text. -/
def written (s : Bytes) : List Piece := ofBytes Prod.fst Prod.snd (markFirst (characters s))

theorem map_snd_markFirst (cs : List Character) :
    (markFirst cs).map Prod.snd = cs.flatMap Character.bytes := by
  unfold markFirst
  rw [List.map_flatMap]
  apply List.flatMap_congr
  intro c _
  rw [List.map_cons, List.map_map, Character.bytes]
  simp [Function.comp_def]

theorem marked_of_mem_markFirst {s : Bytes} {x : Bool × UInt8}
    (h : x ∈ markFirst (characters s)) (hlow : ¬ 0x80 ≤ x.2) : x.1 = true := by
  obtain ⟨c, hc, hx⟩ := List.mem_flatMap.mp h
  rcases List.mem_cons.mp hx with rfl | hx
  · rfl
  · obtain ⟨b, hb, rfl⟩ := List.mem_map.mp hx
    exact absurd ((sound_of_mem_characters hc).tail_high b hb) hlow

theorem encode_eq_spell {s : Bytes} (h : s ≠ []) : encode s = spell (written s) := by
  rw [encode, if_neg (by simpa using h), encodeIn, written, spell_ofBytes, markFirst,
    List.flatMap_assoc]
  apply List.flatMap_congr
  intro c _
  have htail : (c.tail.map (Prod.mk false)).flatMap
      (fun x => if x.1 then [escapeMark, x.2] else [x.2]) = c.tail := by
    rw [List.flatMap_map]
    simp
  rw [List.flatMap_cons, htail]
  rfl

theorem flatMap_content_written (s : Bytes) : (written s).flatMap Piece.content = s := by
  rw [written, flatMap_content_ofBytes, map_snd_markFirst, flatMap_bytes_characters]

theorem legible_of_mem_written (s : Bytes) : ∀ p ∈ written s, p.Legible := by
  apply legible_of_mem_ofBytes
  intro x hx hb
  exact marked_of_mem_markFirst hx (by rw [hb]; decide)

theorem nullPiece_not_mem_written (s : Bytes) : nullPiece ∉ written s := by
  apply nullPiece_not_mem_ofBytes
  intro x hx hb
  exact marked_of_mem_markFirst hx (by rw [hb]; decide)

end Full
end SentinelQuoting
