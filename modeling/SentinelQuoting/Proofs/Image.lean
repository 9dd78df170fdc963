import Mathlib.Data.List.Induction
import Mathlib.Data.Set.List
import SentinelQuoting.Proofs.SelectiveRoundTrip

/-! # The texts that the selective encoder writes

The encoder writes one unit for every byte of a text: the byte, or a mark and the byte. Read from the
left, a mark of the text that was left bare looks like one that was added, and the decoder takes it
for that. Read from the right there is no doubt: a unit ends with its byte, and that byte alone tells
whether a mark stands before it. So no two texts have the same encoding, whatever separates and in
either place (`flatMap_inj_of_last`). On the right of an assignment nothing is left bare that needs a
mark, so decoding takes away what was added and no more, and the texts that come back when they are
decoded and encoded again are the encodings. These are all the texts that can be put together from
units (`exists_encode_assignment_iff`). -/
namespace SentinelQuoting.Selective
set_option autoImplicit false

/-! ## Units -/

/-- What is written for one byte. -/
def unitOf (place : Place) (ifs : Separators) (b : UInt8) : Bytes :=
  if protects place ifs b then [escapeMark, b] else [b]

theorem encode_eq_flatMap_unitOf (place : Place) (ifs : Separators) (s : Bytes) :
    encode place ifs s = s.flatMap (unitOf place ifs) :=
  encode_eq_flatMap place ifs s

theorem getLast?_unitOf (place : Place) (ifs : Separators) (b : UInt8) :
    (unitOf place ifs b).getLast? = some b := by
  unfold unitOf
  split <;> rfl

/-! ## Reading from the right -/

section Last
variable {α : Type} {f : α → List α} (hf : ∀ x, (f x).getLast? = some x)
include hf

theorem getLast?_flatMap_of_last (xs : List α) : (xs.flatMap f).getLast? = xs.getLast? := by
  induction xs using List.reverseRecOn with
  | nil => rfl
  | append_singleton xs x _ =>
    rw [List.flatMap_append, List.flatMap_singleton, List.getLast?_append, hf,
      List.getLast?_concat]
    rfl

/-- From the right end: the last element of the image is the last of the list, and what is written
for it is taken off on both sides. -/
theorem flatMap_inj_of_last {xs ys : List α} : xs.flatMap f = ys.flatMap f ↔ xs = ys := by
  refine ⟨fun h => ?_, congrArg _⟩
  induction xs using List.reverseRecOn generalizing ys with
  | nil =>
    have hlast : ys.getLast? = none := by
      rw [← getLast?_flatMap_of_last hf ys, ← h]
      rfl
    exact (List.getLast?_eq_none_iff.mp hlast).symm
  | append_singleton xs x ih =>
    have hlast : ys.getLast? = some x := by
      rw [← getLast?_flatMap_of_last hf ys, ← h, getLast?_flatMap_of_last hf,
        List.getLast?_concat]
    obtain ⟨front, rfl⟩ := List.getLast?_eq_some_iff.mp hlast
    rw [List.flatMap_append, List.flatMap_append] at h
    rw [ih (List.append_cancel_right h)]

end Last

/-- Encoding loses nothing, even where bare marks make decoding lose something. -/
theorem encode_inj (place : Place) (ifs : Separators) (s t : Bytes) :
    encode place ifs s = encode place ifs t ↔ s = t := by
  rw [encode_eq_flatMap_unitOf, encode_eq_flatMap_unitOf]
  exact flatMap_inj_of_last (getLast?_unitOf place ifs)

/-! ## The encodings on the right of an assignment -/

/-- The units of an assignment: a byte that cannot be misread, or a mark and a byte that can. -/
inductive AssignmentUnit (ifs : Separators) : Bytes → Prop
  | bare (b : UInt8) :
    ¬ (b = escapeMark ∨ b = nullMark ∨ (ifs.isEmpty = true ∧ b = space)) → AssignmentUnit ifs [b]
  | marked (b : UInt8) :
    (b = escapeMark ∨ b = nullMark ∨ (ifs.isEmpty = true ∧ b = space)) →
      AssignmentUnit ifs [escapeMark, b]

/-- A text that units are joined to. -/
def MadeOfUnits (ifs : Separators) (t : Bytes) : Prop :=
  ∃ units : List Bytes, units.flatten = t ∧ ∀ u ∈ units, AssignmentUnit ifs u

theorem assignmentUnit_iff (ifs : Separators) (u : Bytes) :
    AssignmentUnit ifs u ↔ u ∈ Set.range (unitOf .assignment ifs) := by
  constructor
  · rintro (⟨b, hb⟩ | ⟨b, hb⟩)
    · rw [← isEndangered_iff] at hb
      exact ⟨b, if_neg hb⟩
    · rw [← isEndangered_iff] at hb
      exact ⟨b, if_pos hb⟩
  · rintro ⟨b, rfl⟩
    unfold unitOf
    by_cases hb : protects .assignment ifs b = true
    · rw [if_pos hb]
      exact .marked b ((isEndangered_iff ifs b).mp hb)
    · rw [if_neg hb]
      exact .bare b fun h => hb ((isEndangered_iff ifs b).mpr h)

theorem exists_encode_assignment_iff (ifs : Separators) (t : Bytes) :
    (∃ s, encode .assignment ifs s = t) ↔ MadeOfUnits ifs t := by
  constructor
  · rintro ⟨s, rfl⟩
    refine ⟨s.map (unitOf .assignment ifs), ?_, ?_⟩
    · rw [encode_eq_flatMap_unitOf, List.flatMap_def]
    · intro u hu
      obtain ⟨b, -, hb⟩ := List.mem_map.mp hu
      exact (assignmentUnit_iff ifs u).mpr ⟨b, hb⟩
  · rintro ⟨units, rfl, hunits⟩
    have hrange : units ∈ Set.range (List.map (unitOf .assignment ifs)) := by
      rw [Set.range_list_map]
      exact fun u hu => (assignmentUnit_iff ifs u).mp (hunits u hu)
    obtain ⟨s, rfl⟩ := hrange
    exact ⟨s, by rw [encode_eq_flatMap_unitOf, List.flatMap_def]⟩

/-- A text that is encoded is decoded to what it was written for, so a text comes back from decoding
and encoding when it is an encoding, and no other text does. The encodings are the texts made of
units. -/
theorem encode_decode_assignment_iff (ifs : Separators) (t : Bytes) :
    (encode .assignment ifs (decode ifs t) = t ↔ MadeOfUnits ifs t) ∧
    ((∃ s, encode .assignment ifs s = t) ↔ MadeOfUnits ifs t) := by
  have himage := exists_encode_assignment_iff ifs t
  refine ⟨?_, himage⟩
  rw [← himage]
  constructor
  · exact fun h => ⟨decode ifs t, h⟩
  · rintro ⟨s, rfl⟩
    rw [decode_encode (protects_assignment ifs rfl)]

end SentinelQuoting.Selective
