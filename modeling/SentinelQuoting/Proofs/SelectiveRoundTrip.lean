import SentinelQuoting.Proofs.Spelling

/-! # When selective decoding gives a text back

The separators may change between encoding and decoding, and they may hold the sentinels
themselves. Two cases are apart. Where every mark of the text is protected, the encoding is read
back piece by piece, and all that can stay behind is the mark of a space that was protected because
there were no separators. Where marks stay bare, a bare mark is taken for the protection of the byte
after it, and is lost as soon as that byte is one that the decoder releases. -/
namespace SentinelQuoting.Selective
set_option autoImplicit false

theorem isEndangered_iff (ifs : Separators) (b : UInt8) :
    isEndangered ifs b = true ↔
      b = escapeMark ∨ b = nullMark ∨ (ifs.isEmpty = true ∧ b = space) := by
  simp only [isEndangered, isSentinel, Bool.or_eq_true, Bool.and_eq_true, beq_iff_eq, or_assoc]

theorem isEndangered_of_protects {place : Place} {ifs : Separators} {b : UInt8}
    (h : protects place ifs b = true) : isEndangered ifs b = true := by
  cases place with
  | assignment => exact h
  | expansion =>
    simp only [protects, Bool.and_eq_true] at h
    exact h.1

/-! ## Every mark protected -/

theorem length_le_length_flatMap_mark (p : UInt8 → Bool) (s : Bytes) :
    s.length ≤ (s.flatMap fun b => if p b then [escapeMark, b] else [b]).length := by
  induction s with
  | nil => exact Nat.le_refl 0
  | cons b rest ih =>
    rw [List.flatMap_cons, List.length_append, List.length_cons]
    split
    · simp only [List.length_cons, List.length_nil]; omega
    · simp only [List.length_cons, List.length_nil]; omega

/-- A mark that is added is noticed by the length, whatever the bytes are. -/
theorem flatMap_mark_eq_self_iff (p : UInt8 → Bool) (s : Bytes) :
    (s.flatMap fun b => if p b then [escapeMark, b] else [b]) = s ↔ ∀ b ∈ s, p b = false := by
  induction s with
  | nil => simp
  | cons b rest ih =>
    rw [List.flatMap_cons, List.forall_mem_cons, ← ih]
    cases hp : p b with
    | false => simp
    | true =>
      have hlen := length_le_length_flatMap_mark p rest
      constructor
      · intro he
        have hl := congrArg List.length he
        simp only [if_true, List.length_append, List.length_cons, List.length_nil] at hl
        omega
      · intro h
        exact absurd h.1 (by simp)

theorem decode_encode_eq_self_iff {place : Place} {A : Separators}
    (h : protects place A escapeMark = true) (B : Separators) (s : Bytes) :
    decode B (encode place A s) = s ↔
      ∀ b ∈ s, protects place A b = true → isEndangered B b = true := by
  have hwritten : decode B (encode place A s) =
      s.flatMap fun b => if protects place A b && !isEndangered B b then [escapeMark, b] else [b] := by
    rw [encode_eq_spell, decode_spell (legible_of_mem_written h s), written,
      flatMap_release_ofBytes]
    rfl
  rw [hwritten, flatMap_mark_eq_self_iff]
  simp only [Bool.and_eq_false_imp, Bool.not_eq_false']

/-- Where every mark is protected, a text comes back under the separators that it was encoded
under. -/
theorem decode_encode {place : Place} {ifs : Separators}
    (h : protects place ifs escapeMark = true) (s : Bytes) :
    decode ifs (encode place ifs s) = s := by
  rw [decode_encode_eq_self_iff h]
  exact fun b _ hb => isEndangered_of_protects hb

/-- What the encoder protects the decoder releases, unless the separators were empty and are so no
more. -/
theorem forall_protects_iff (place : Place) (A B : Separators) (s : Bytes) :
    (∀ b ∈ s, protects place A b = true → isEndangered B b = true) ↔
      ¬ (A.isEmpty = true ∧ B.isEmpty = false ∧ space ∈ s) := by
  constructor
  · rintro h ⟨hA, hB, hs⟩
    have hspace : isEndangered A space = true := (isEndangered_iff A space).mpr (.inr (.inr ⟨hA, rfl⟩))
    have hprotects : protects place A space = true := by
      cases place with
      | assignment => exact hspace
      | expansion => rw [protects, hspace, A.contains_of_isEmpty hA]; rfl
    rcases (isEndangered_iff B space).mp (h space hs hprotects) with he | he | ⟨hempty, -⟩
    · exact absurd he (by decide)
    · exact absurd he (by decide)
    · rw [hB] at hempty
      exact absurd hempty (by decide)
  · intro h b hb hp
    rcases (isEndangered_iff A b).mp (isEndangered_of_protects hp) with rfl | rfl | ⟨hA, rfl⟩
    · rfl
    · rfl
    · cases hB : B.isEmpty with
      | true => exact (isEndangered_iff B space).mpr (.inr (.inr ⟨hB, rfl⟩))
      | false => exact absurd ⟨hA, hB, hb⟩ h

/-! ## Bare marks -/

theorem infix_pair (a b : UInt8) (rest : Bytes) : [a, b] <:+: a :: b :: rest :=
  ⟨[], rest, rfl⟩

theorem infix_cons_of_ne {a b c : UInt8} (h : b ≠ a) {rest : Bytes} :
    [a, c] <:+: b :: rest ↔ [a, c] <:+: rest := by
  rw [List.infix_cons_iff, List.cons_prefix_cons]
  constructor
  · rintro (⟨he, -⟩ | hr)
    · exact absurd he.symm h
    · exact hr
  · exact .inr

theorem infix_pair_iff {a b c : UInt8} {rest : Bytes} :
    [a, c] <:+: a :: b :: rest ↔ c = b ∨ [a, c] <:+: b :: rest := by
  rw [List.infix_cons_iff, List.cons_prefix_cons, List.cons_prefix_cons]
  simp

/-- Whether a bare mark in front of `b` does not survive: the decoder releases `b`, and the encoder
has put no mark of its own in between. -/
def loses (A B : Separators) (b : UInt8) : Bool :=
  isEndangered B b && !protects .expansion A b

theorem encode_cons (place : Place) (ifs : Separators) (b : UInt8) (rest : Bytes) :
    encode place ifs (b :: rest) =
      (if protects place ifs b then [escapeMark, b] else [b]) ++ encode place ifs rest := by
  rw [encode_eq_flatMap, encode_eq_flatMap, List.flatMap_cons]

theorem decode_guarded (ifs : Separators) (b : UInt8) (rest : Bytes) :
    decode ifs (escapeMark :: b :: rest) =
      (if isEndangered ifs b then [b] else [escapeMark, b]) ++ decode ifs rest := by
  rw [decode_eq, decode_eq, reading_guarded, List.flatMap_cons]
  rfl

theorem decode_bare (ifs : Separators) {b : UInt8} (h : b ≠ escapeMark) (rest : Bytes) :
    decode ifs (b :: rest) = b :: decode ifs rest := by
  rw [decode_eq, decode_eq, reading_bare h, List.flatMap_cons]
  rfl

section BareMark
variable {A : Separators} (hA : A.contains escapeMark = true)
include hA

theorem protects_expansion_iff (b : UInt8) :
    protects .expansion A b = true ↔ b = nullMark ∧ A.contains nullMark = false := by
  have hempty : A.isEmpty = false := by
    cases h : A.isEmpty with
    | false => rfl
    | true =>
      rw [A.contains_of_isEmpty h] at hA
      exact absurd hA (by decide)
  rw [protects, Bool.and_eq_true, isEndangered_iff, hempty, Bool.not_eq_true']
  constructor
  · rintro ⟨rfl | rfl | ⟨he, -⟩, hb⟩
    · rw [hA] at hb
      exact absurd hb (by decide)
    · exact ⟨rfl, hb⟩
    · exact absurd he (by decide)
  · rintro ⟨rfl, hb⟩
    exact ⟨.inr (.inl rfl), hb⟩

theorem loses_iff (B : Separators) (b : UInt8) :
    loses A B b = true ↔
      b = escapeMark ∨ (b = nullMark ∧ A.contains nullMark = true) ∨
        (b = space ∧ B.isEmpty = true) := by
  have hprotects := protects_expansion_iff hA b
  rw [loses, Bool.and_eq_true, isEndangered_iff, Bool.not_eq_true', ← Bool.not_eq_true, hprotects]
  constructor
  · rintro ⟨rfl | rfl | ⟨hB, rfl⟩, h⟩
    · exact .inl rfl
    · exact .inr (.inl ⟨rfl, by simpa using h⟩)
    · exact .inr (.inr ⟨rfl, hB⟩)
  · rintro (rfl | ⟨rfl, h⟩ | ⟨rfl, hB⟩)
    · exact ⟨.inl rfl, fun h => absurd h.1 (by decide)⟩
    · exact ⟨.inr (.inl rfl), by simpa using h⟩
    · exact ⟨.inr (.inr ⟨hB, rfl⟩), fun h => absurd h.1 (by decide)⟩

theorem not_protects_mark : protects .expansion A escapeMark = false := by
  rw [← Bool.not_eq_true, protects_expansion_iff hA]
  exact fun h => absurd h.1 (by decide)

theorem decode_encode_dangling (B : Separators) :
    decode B (encode .expansion A [escapeMark]) = [escapeMark] := by
  have hencode : encode .expansion A [escapeMark] = [escapeMark] := by
    rw [encode_cons, not_protects_mark hA]
    rfl
  rw [hencode, decode_eq, reading_mark]
  rfl

theorem decode_encode_bare (B : Separators) {b : UInt8} (hb : b ≠ escapeMark) (rest : Bytes) :
    decode B (encode .expansion A (b :: rest)) = b :: decode B (encode .expansion A rest) := by
  rw [encode_cons]
  by_cases hp : protects .expansion A b = true
  · obtain ⟨rfl, -⟩ := (protects_expansion_iff hA b).mp hp
    rw [if_pos hp, List.cons_append, List.singleton_append, decode_guarded]
    rfl
  · rw [if_neg hp, List.singleton_append, decode_bare B hb]

theorem decode_encode_mark (B : Separators) (b : UInt8) (rest : Bytes) :
    decode B (encode .expansion A (escapeMark :: b :: rest)) =
      (if loses A B b then [b] else [escapeMark, b]) ++ decode B (encode .expansion A rest) := by
  rw [encode_cons, not_protects_mark hA, encode_cons, loses]
  by_cases hp : protects .expansion A b = true
  · obtain ⟨rfl, -⟩ := (protects_expansion_iff hA b).mp hp
    -- the two marks are read as a protected mark, and the null mark stands bare after them
    have hpair : decode B (escapeMark :: escapeMark :: nullMark :: encode .expansion A rest) =
        [escapeMark] ++ decode B (nullMark :: encode .expansion A rest) := decode_guarded B _ _
    rw [hp, Bool.not_true, Bool.and_false]
    simp only [if_true, Bool.false_eq_true, if_false, List.cons_append, List.nil_append]
    rw [hpair, decode_bare B (by decide)]
    rfl
  · rw [Bool.not_eq_true] at hp
    rw [hp, Bool.not_false, Bool.and_true]
    simp only [Bool.false_eq_true, if_false, List.cons_append, List.nil_append]
    exact decode_guarded B b _

theorem length_decode_encode_le (B : Separators) (s : Bytes) :
    (decode B (encode .expansion A s)).length ≤ s.length := by
  induction s using reading_induction with
  | nil => exact Nat.le_refl 0
  | dangling => rw [decode_encode_dangling hA]
  | guarded b rest ih =>
    rw [decode_encode_mark hA, List.length_append, List.length_cons, List.length_cons]
    split
    · simp only [List.length_cons, List.length_nil]; omega
    · simp only [List.length_cons, List.length_nil]; omega
  | bare b rest hb ih =>
    rw [decode_encode_bare hA B hb, List.length_cons, List.length_cons]
    omega

/-- Along the reading of the text. A pair of marks is cut to one, and nothing makes up for its
length; any other mark is kept or lost by the byte after it alone. -/
theorem decode_encode_bare_mark_iff (B : Separators) (s : Bytes) :
    decode B (encode .expansion A s) = s ↔ ∀ b, [escapeMark, b] <:+: s → loses A B b = false := by
  induction s using reading_induction with
  | nil => exact ⟨fun _ b h => by simp at h, fun _ => rfl⟩
  | dangling =>
    refine ⟨fun _ b h => ?_, fun _ => decode_encode_dangling hA B⟩
    have hlen := h.length_le
    simp at hlen
  | bare b rest hb ih =>
    rw [decode_encode_bare hA B hb, List.cons_inj_right, ih]
    refine forall_congr' fun c => ?_
    rw [infix_cons_of_ne hb]
  | guarded b rest ih =>
    rw [decode_encode_mark hA]
    cases hl : loses A B b with
    | true =>
      -- the mark is gone, and the rest does not grow
      have hlen := length_decode_encode_le hA B rest
      constructor
      · intro he
        have he := congrArg List.length he
        simp only [if_true, List.length_append, List.length_cons, List.length_nil] at he
        omega
      · intro h
        rw [h b (infix_pair escapeMark b rest)] at hl
        exact absurd hl (by decide)
    | false =>
      have hb : b ≠ escapeMark := by
        rintro rfl
        rw [(loses_iff hA B escapeMark).mpr (.inl rfl)] at hl
        exact absurd hl (by decide)
      have hsplit : ([escapeMark, b] ++ decode B (encode .expansion A rest) =
          escapeMark :: b :: rest) ↔ decode B (encode .expansion A rest) = rest := by simp
      rw [if_neg (by decide), hsplit, ih]
      refine forall_congr' fun c => ?_
      rw [infix_pair_iff, infix_cons_of_ne hb]
      constructor
      · rintro h (rfl | hc)
        · exact hl
        · exact h hc
      · exact fun h hc => h (.inr hc)

end BareMark

/-! ## Exact conditions -/

/-- When a text comes back that was encoded for an expansion under `A` and decoded under `B`: three
properties of the two sets decide, each by itself, and in the second case the byte after each mark.
-/
theorem decode_encode_expansion_iff :
    (∀ (A B : Separators) (s : Bytes),
      decode B (encode .expansion A s) = s ↔
        (A.contains escapeMark = false ∧
          ¬ (A.isEmpty = true ∧ B.isEmpty = false ∧ space ∈ s)) ∨
        (A.contains escapeMark = true ∧ ¬ [escapeMark, escapeMark] <:+: s ∧
          (A.contains nullMark = true → ¬ [escapeMark, nullMark] <:+: s) ∧
          (B.isEmpty = true → ¬ [escapeMark, space] <:+: s))) ∧
    ∀ (A : Separators) (s : Bytes), A.contains escapeMark = false →
      decode A (encode .expansion A s) = s := by
  constructor
  · intro A B s
    cases hA : A.contains escapeMark with
    | false =>
      rw [decode_encode_eq_self_iff (protects_expansion rfl hA), forall_protects_iff]
      simp
    | true =>
      rw [decode_encode_bare_mark_iff hA]
      constructor
      · intro h
        have hlost : ∀ b, loses A B b = true → ¬ [escapeMark, b] <:+: s := by
          intro b hb hi
          rw [h b hi] at hb
          exact absurd hb (by decide)
        exact .inr ⟨rfl, hlost _ ((loses_iff hA B _).mpr (.inl rfl)),
          fun hn => hlost _ ((loses_iff hA B _).mpr (.inr (.inl ⟨rfl, hn⟩))),
          fun hB => hlost _ ((loses_iff hA B _).mpr (.inr (.inr ⟨rfl, hB⟩)))⟩
      · rintro (⟨he, -⟩ | ⟨-, hpair, hnull, hspace⟩)
        · exact absurd he (by decide)
        · intro b hi
          rw [← Bool.not_eq_true, loses_iff hA]
          rintro (rfl | ⟨rfl, hn⟩ | ⟨rfl, hB⟩)
          · exact hpair hi
          · exact hnull hn hi
          · exact hspace hB hi
  · intro A s hA
    exact decode_encode (protects_expansion rfl hA) s

/-- A text with both sentinels and a broken character, under the standard separators. -/
theorem decode_encode_expansion_standard :
    Separators.standard.contains escapeMark = false ∧
    decode .standard (encode .expansion .standard [escapeMark, nullMark, 0xe2, escapeMark]) =
      [escapeMark, nullMark, 0xe2, escapeMark] :=
  ⟨by decide, decode_encode_expansion_iff.2 .standard _ (by decide)⟩

/-- On the right of an assignment marks are protected whatever separates, so a text comes back
unless spaces were protected for want of separators and there are separators when it is decoded. -/
theorem decode_encode_assignment_iff :
    (∀ (A B : Separators) (s : Bytes),
      decode B (encode .assignment A s) = s ↔
        ¬ (A.isEmpty = true ∧ B.isEmpty = false ∧ space ∈ s)) ∧
    ∀ (A : Separators) (s : Bytes), decode A (encode .assignment A s) = s := by
  constructor
  · intro A B s
    rw [decode_encode_eq_self_iff (protects_assignment A rfl), forall_protects_iff]
  · intro A s
    exact decode_encode (protects_assignment A rfl) s

end SentinelQuoting.Selective
