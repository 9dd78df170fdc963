import SentinelQuoting.Encoding.Full
import SentinelQuoting.Encoding.Selective
import SentinelQuoting.Proofs.Boundaries

/-! # Encoders keep the characters

An encoder puts marks between the characters of a text. What it writes is split anew, over other
bytes: after a byte that starts no longer character there may be a mark now, and the text ends
elsewhere. Still the characters are the same, with the marks among them (`characters_withMarks`). A
well-formed sequence is a character whatever follows it, and marks after any other byte do not
complete a sequence. -/
namespace SentinelQuoting
set_option autoImplicit false

/-! ## The split of a text that is written from characters -/

/-- The first character reaches as far in the text as it did, and the others are split as before. -/
theorem characters_flatMap_bytes_cons_iff (c : Character) (cs : List Character) :
    characters ((c :: cs).flatMap Character.bytes) = c :: cs ↔
      tailLength c.lead (c.tail ++ cs.flatMap Character.bytes) = c.tail.length ∧
        characters (cs.flatMap Character.bytes) = cs := by
  rw [List.flatMap_cons, Character.bytes, List.cons_append, characters_cons]
  constructor
  · intro h
    obtain ⟨hc, hcs⟩ := List.cons.inj h
    have htail := congrArg Character.tail hc
    have hlength := congrArg List.length htail
    rw [List.length_take, Nat.min_eq_left (tailLength_le_length _ _)] at hlength
    rw [hlength, List.drop_left] at hcs
    exact ⟨hlength, hcs⟩
  · rintro ⟨hlength, hcs⟩
    rw [hlength, List.take_left, List.drop_left, hcs]

/-- The characters with a mark as a character of its own in front of some of them. -/
def withMarks (marks : Character → Bool) (cs : List Character) : List Character :=
  cs.flatMap fun c => if marks c then [.single escapeMark, c] else [c]

section WithMarks
variable (marks : Character → Bool)

theorem withMarks_cons (c : Character) (cs : List Character) :
    withMarks marks (c :: cs) =
      (if marks c then [.single escapeMark, c] else [c]) ++ withMarks marks cs :=
  List.flatMap_cons

theorem flatMap_bytes_withMarks (cs : List Character) :
    (withMarks marks cs).flatMap Character.bytes =
      cs.flatMap fun c => if marks c then escapeMark :: c.bytes else c.bytes := by
  unfold withMarks
  rw [List.flatMap_assoc]
  apply List.flatMap_congr
  intro c _
  split
  · rw [List.flatMap_cons, List.flatMap_singleton]
    rfl
  · rw [List.flatMap_singleton]

/-- What stands before the first added mark is what stood there before. -/
theorem prefix_of_prefix_withMarks {a : Bytes} (hmark : escapeMark ∉ a) (cs : List Character)
    (h : a <+: (withMarks marks cs).flatMap Character.bytes) :
    a <+: cs.flatMap Character.bytes := by
  induction cs generalizing a with
  | nil => exact h
  | cons c cs ih =>
    rw [withMarks_cons, List.flatMap_append] at h
    rw [List.flatMap_cons]
    by_cases hc : marks c = true
    · rw [if_pos hc, List.flatMap_cons, List.append_assoc] at h
      rcases List.prefix_cons_iff.mp h with rfl | ⟨a', rfl, -⟩
      · exact List.nil_prefix
      · exact absurd List.mem_cons_self hmark
    · rw [if_neg hc, List.flatMap_singleton] at h
      rcases List.prefix_or_prefix_of_prefix h (List.prefix_append _ _) with hle | ⟨a', rfl⟩
      · exact hle.trans (List.prefix_append _ _)
      · rw [List.prefix_append_right_inj] at h ⊢
        exact ih (fun hm => hmark (List.mem_append_right _ hm)) h

theorem tailLength_withMarks {lead : UInt8} {cs : List Character}
    (h : tailLength lead (cs.flatMap Character.bytes) = 0) :
    tailLength lead ((withMarks marks cs).flatMap Character.bytes) = 0 := by
  by_contra hne
  have hpos := Nat.pos_of_ne_zero hne
  have hwell := wellFormed_of_tailLength_pos hpos
  have hmark : escapeMark ∉ ((withMarks marks cs).flatMap Character.bytes).take
      (tailLength lead ((withMarks marks cs).flatMap Character.bytes)) :=
    fun hm => ne_of_high (high_of_mem_tail hm) (by decide) rfl
  obtain ⟨rest, hrest⟩ := prefix_of_prefix_withMarks marks hmark cs (List.take_prefix _ _)
  rw [← hrest, hwell.tailLength_eq, List.length_take,
    Nat.min_eq_left (tailLength_le_length _ _)] at h
  exact hne h

theorem characters_withMarks {cs : List Character}
    (h : characters (cs.flatMap Character.bytes) = cs) :
    characters ((withMarks marks cs).flatMap Character.bytes) = withMarks marks cs := by
  induction cs with
  | nil => rfl
  | cons c cs ih =>
    obtain ⟨hlength, hcs⟩ := (characters_flatMap_bytes_cons_iff c cs).mp h
    have hreach : tailLength c.lead (c.tail ++ (withMarks marks cs).flatMap Character.bytes) =
        c.tail.length := by
      obtain ⟨lead, tail⟩ := c
      cases tail with
      | nil => exact tailLength_withMarks marks hlength
      | cons second others =>
        have hpos : 0 < tailLength lead (second :: others ++ cs.flatMap Character.bytes) := by
          rw [hlength]
          exact Nat.succ_pos _
        have hwell := wellFormed_of_tailLength_pos hpos
        rw [hlength, List.take_left] at hwell
        exact hwell.tailLength_eq _
    have hkept := (characters_flatMap_bytes_cons_iff c _).mpr ⟨hreach, ih hcs⟩
    rw [withMarks_cons]
    by_cases hc : marks c = true
    · rw [if_pos hc]
      exact (characters_flatMap_bytes_cons_iff _ _).mpr ⟨tailLength_eq_zero (by decide) _, hkept⟩
    · rw [if_neg hc]
      exact hkept

theorem characters_withMarks_characters (s : Bytes) :
    characters ((withMarks marks (characters s)).flatMap Character.bytes) =
      withMarks marks (characters s) :=
  characters_withMarks marks (by rw [flatMap_bytes_characters])

end WithMarks

/-! ## The encoders -/

theorem Full.characters_encode {s : Bytes} (h : s ≠ []) :
    characters (encode s) = withMarks (fun _ => true) (characters s) := by
  have hencode : encode s = (withMarks (fun _ => true) (characters s)).flatMap Character.bytes := by
    rw [encode, if_neg (by simpa using h), flatMap_bytes_withMarks]
    rfl
  rw [hencode, characters_withMarks_characters]

theorem Selective.characters_encode (place : Place) (ifs : Separators) (s : Bytes) :
    characters (encode place ifs s) =
      withMarks (fun c => protects place ifs c.lead) (characters s) := by
  have hencode : encode place ifs s =
      (withMarks (fun c => protects place ifs c.lead) (characters s)).flatMap Character.bytes := by
    rw [flatMap_bytes_withMarks]
    rfl
  rw [hencode, characters_withMarks_characters]

/-! ## Substrings -/

/-- The bytes between each of the positions and the next. -/
def between (s : Bytes) : List Nat → List Bytes
  | i :: j :: rest => (s.drop i).take (j - i) :: between s (j :: rest)
  | _ => []

/-- The bytes between consecutive positions that the scan comes to. -/
def substrings (s : Bytes) : List Bytes := between s (boundaries s)

theorem between_boundariesFrom {s : Bytes} {i : Nat} (h : i ≤ s.length) :
    between s (boundariesFrom s i) = (characters (s.drop i)).map Character.bytes := by
  induction h using scan_induction with
  | done =>
    rw [boundariesFrom_length, List.drop_length]
    rfl
  | next i hi ih =>
    obtain ⟨rest, hrest⟩ := exists_boundariesFrom_eq (add_widthAt_le_length hi.le)
    obtain ⟨c, hcharacters, hbytes⟩ := exists_characters_drop_eq hi
    rw [hrest] at ih
    rw [boundariesFrom_of_lt hi, hrest, between, ih, Nat.add_sub_cancel_left, hcharacters,
      List.map_cons, hbytes]

theorem substrings_eq (s : Bytes) : substrings s = (characters s).map Character.bytes :=
  between_boundariesFrom (Nat.zero_le _)

theorem map_bytes_withMarks {marks : Character → Bool} (escapes : Bytes → Bool)
    {cs : List Character} (h : ∀ c ∈ cs, marks c = escapes c.bytes) :
    (withMarks marks cs).map Character.bytes =
      (cs.map Character.bytes).flatMap fun c => if escapes c then [[escapeMark], c] else [c] := by
  unfold withMarks
  rw [List.map_flatMap, List.flatMap_map]
  apply List.flatMap_congr
  intro c hc
  rw [h c hc]
  split
  · rfl
  · rfl

/-! ## Which characters get a mark -/

/-- Whether the selective encoder puts a mark in front of a character with these bytes. -/
def Selective.escapes (place : Place) (ifs : Separators) (c : Bytes) : Bool :=
  match place with
  | .assignment => c == [escapeMark] || c == [nullMark] || (ifs.isEmpty && c == [space])
  | .expansion =>
    (c == [escapeMark] && !ifs.contains escapeMark) || (c == [nullMark] && !ifs.contains nullMark) ||
      (ifs.isEmpty && c == [space])

theorem Character.Sound.bytes_beq {c : Character} (hs : c.Sound) {b : UInt8} (hb : ¬ 0x80 ≤ b) :
    (c.bytes == [b]) = (c.lead == b) := by
  rw [Bool.eq_iff_iff, beq_iff_eq, beq_iff_eq, Character.bytes, List.cons.injEq]
  constructor
  · exact And.left
  · rintro rfl
    exact ⟨rfl, hs.tail_eq_nil hb⟩

theorem Selective.protects_lead_eq (place : Place) (ifs : Separators) {c : Character}
    (hs : c.Sound) : protects place ifs c.lead = escapes place ifs c.bytes := by
  have hmark := hs.bytes_beq (b := escapeMark) (by decide)
  have hnull := hs.bytes_beq (b := nullMark) (by decide)
  have hspace := hs.bytes_beq (b := space) (by decide)
  cases place with
  | assignment => rw [escapes, hmark, hnull, hspace, protects, isEndangered, isSentinel]
  | expansion => rw [escapes, hmark, hnull, hspace, protects_expansion_eq]

/-- The characters of an encoding are those of the text, whole and in their order, with a mark as a
character of its own in front of every one that is escaped. -/
theorem substrings_encode :
    (∀ s : Bytes, s ≠ [] →
      substrings (Full.encode s) = (substrings s).flatMap fun c => [[escapeMark], c]) ∧
    ∀ (place : Place) (ifs : Separators) (s : Bytes),
      substrings (Selective.encode place ifs s) = (substrings s).flatMap fun c =>
        if Selective.escapes place ifs c then [[escapeMark], c] else [c] := by
  constructor
  · intro s hs
    rw [substrings_eq, substrings_eq, Full.characters_encode hs,
      map_bytes_withMarks (fun _ => true) fun _ _ => rfl]
    rfl
  · intro place ifs s
    rw [substrings_eq, substrings_eq, Selective.characters_encode,
      map_bytes_withMarks (Selective.escapes place ifs) fun c hc =>
        Selective.protects_lead_eq place ifs (sound_of_mem_characters hc)]

/-- A sequence that breaks off at a mark, and another that breaks off at the end. -/
theorem substrings_encode_broken :
    let s : Bytes := [0xe2, 0x82, escapeMark, 0xc3, 0xa9, 0xf0]
    s ≠ [] ∧ substrings (Full.encode s) = [[escapeMark], [0xe2], [escapeMark], [0x82],
      [escapeMark], [escapeMark], [escapeMark], [0xc3, 0xa9], [escapeMark], [0xf0]] := by
  intro s
  have hs : s ≠ [] := by decide
  have hsubstrings : substrings s = [[0xe2], [0x82], [escapeMark], [0xc3, 0xa9], [0xf0]] := by
    rw [substrings_eq]
    decide
  refine ⟨hs, ?_⟩
  rw [substrings_encode.1 s hs, hsubstrings]
  rfl

end SentinelQuoting
