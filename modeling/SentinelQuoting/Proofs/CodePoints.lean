import SentinelQuoting.Pass
import SentinelQuoting.Proofs.Compaction
import SentinelQuoting.Proofs.Utf8

/-! # Passes over code points

What a pass does to UTF-8 text can be told without bytes: each pass has a rule for lists of code
points (`Pass.onCodePoints`). The encoders treat every code point by itself. The others read code
points as the passes read characters, and differ in which marks they keep (`reread`). Since the
characters of UTF-8 text are its code points, the pass over the encoding is the encoding of what the
rule gives, and so UTF-8 text again. -/
namespace SentinelQuoting
set_option autoImplicit false

/-! ## Rules -/

namespace CodePoint

def mark : Char := '\x01'

def null : Char := '\x7f'

def isEndangered (ifs : Separators) (c : Char) : Bool :=
  c == mark || c == null || (ifs.isEmpty && c == ' ')

/-- Whether the selective encoder puts a mark in front of a code point. In an expansion it leaves
out the sentinels that are separators. -/
def isProtected (place : Place) (ifs : Separators) (c : Char) : Bool :=
  match place with
  | .assignment => isEndangered ifs c
  | .expansion =>
    (c == mark && !ifs.contains escapeMark) || (c == null && !ifs.contains nullMark) ||
      (ifs.isEmpty && c == ' ')

/-- Whether the first byte of the encoding of a code point is a separator. -/
def startsAsSeparator (ifs : Separators) (c : Char) : Bool :=
  (String.utf8EncodeChar c).head?.any ifs.contains

/-- Read code points from left to right, where a mark that nothing protects is the protection of the
code point after it. A protected code point is always kept. A mark that nothing protects is kept
when `keepsMark` says so of what it protects, which is nothing at the end, and any other code point
that nothing protects when `keepsBare` says so. -/
def reread (keepsMark : Option Char → Bool) (keepsBare : Char → Bool) : List Char → List Char
  | [] => []
  | [c] =>
    if c = mark then if keepsMark none then [c] else []
    else if keepsBare c then [c] else []
  | c :: d :: rest =>
    if c = mark then
      (if keepsMark (some d) then [c, d] else [d]) ++ reread keepsMark keepsBare rest
    else (if keepsBare c then [c] else []) ++ reread keepsMark keepsBare (d :: rest)

/-- Read code points, and leave out the marks that protect a code point which is to be released. -/
def release (released : Char → Bool) : List Char → List Char :=
  reread (fun next => next.all fun c => !released c) fun _ => true

end CodePoint

open CodePoint

/-- The code points after a pass. -/
def Pass.onCodePoints (pass : Pass) (ifs : Separators) (cs : List Char) : List Char :=
  match pass with
  | .escape place => cs.flatMap fun c => if isProtected place ifs c then [mark, c] else [c]
  | .unescape => release (isEndangered ifs) cs
  | .encode => if cs = [] then [null] else cs.flatMap fun c => [mark, c]
  | .decode =>
    if cs = [mark] then [mark]
    else if cs = [null] then []
    else reread (fun _ => false) (fun _ => true) cs
  | .releaseSeparators => release (startsAsSeparator ifs) cs
  | .dropNulls => reread (fun _ => true) (fun c => c != null) cs

/-! ## First bytes -/

theorem lead_ofChar_beq {d : Char} (hd : d.toNat ≤ 0x7f) (c : Char) :
    ((Character.ofChar c).lead == UInt8.ofNat d.toNat) = (c == d) := by
  rw [Bool.eq_iff_iff, beq_iff_eq, beq_iff_eq, lead_ofChar_eq_iff hd]

theorem lead_beq_escapeMark (c : Char) : ((Character.ofChar c).lead == escapeMark) = (c == mark) :=
  lead_ofChar_beq (d := mark) (by decide) c

theorem lead_beq_nullMark (c : Char) : ((Character.ofChar c).lead == nullMark) = (c == null) :=
  lead_ofChar_beq (d := null) (by decide) c

theorem lead_beq_space (c : Char) : ((Character.ofChar c).lead == space) = (c == ' ') :=
  lead_ofChar_beq (d := ' ') (by decide) c

theorem isEndangered_lead (ifs : Separators) (c : Char) :
    Selective.isEndangered ifs (Character.ofChar c).lead = isEndangered ifs c := by
  rw [Selective.isEndangered, isSentinel, lead_beq_escapeMark, lead_beq_nullMark, lead_beq_space,
    isEndangered]

theorem protects_lead (place : Place) (ifs : Separators) (c : Char) :
    Selective.protects place ifs (Character.ofChar c).lead = isProtected place ifs c := by
  cases place with
  | assignment => exact isEndangered_lead ifs c
  | expansion =>
    rw [Selective.protects_expansion_eq, lead_beq_escapeMark, lead_beq_nullMark, lead_beq_space,
      isProtected]

theorem startsAsSeparator_eq (ifs : Separators) (c : Char) :
    startsAsSeparator ifs c = ifs.contains (Character.ofChar c).lead := by
  rw [startsAsSeparator, ← bytes_ofChar]
  rfl

/-! ## Readings -/

/-- A rule for pieces that does to the encoding of a code point what `reread` does to the code
point. -/
structure Follows (f : Piece → Bytes) (keepsMark : Option Char → Bool) (keepsBare : Char → Bool) :
    Prop where
  bare : ∀ c, f (.bare (.ofChar c)) = utf8 (if keepsBare c then [c] else [])
  guarded : ∀ c, f (.guarded (.ofChar c)) = utf8 (if keepsMark (some c) then [mark, c] else [c])
  dangling : f .dangling = utf8 (if keepsMark none then [mark] else [])

theorem utf8_mark_cons (c : Char) : utf8 [mark, c] = escapeMark :: (Character.ofChar c).bytes := by
  rw [utf8_cons, utf8_singleton]
  rfl

theorem isEscape_ofChar (c : Char) : (Character.ofChar c).isEscape = (c == mark) :=
  lead_beq_escapeMark c

/-- Along the reading of the code points, which is that of their characters. -/
theorem Follows.flatMap_pieces {f : Piece → Bytes} {keepsMark : Option Char → Bool}
    {keepsBare : Char → Bool} (hf : Follows f keepsMark keepsBare) : ∀ cs : List Char,
    (pieces (cs.map Character.ofChar)).flatMap f = utf8 (reread keepsMark keepsBare cs)
  | [] => rfl
  | [c] => by
    rw [List.map_singleton, reread]
    by_cases h : c = mark
    · rw [if_pos h, pieces_dangling (by simpa [isEscape_ofChar] using h), List.flatMap_singleton,
        hf.dangling, h]
    · rw [if_neg h, pieces_bare (by simpa [isEscape_ofChar] using h), pieces_nil,
        List.flatMap_singleton, hf.bare]
  | c :: d :: rest => by
    rw [List.map_cons, reread]
    by_cases h : c = mark
    · rw [if_pos h, List.map_cons, pieces_guarded (by simpa [isEscape_ofChar] using h),
        List.flatMap_cons, hf.guarded, hf.flatMap_pieces rest, utf8_append, h]
    · rw [if_neg h, pieces_bare (by simpa [isEscape_ofChar] using h), List.flatMap_cons, hf.bare,
        hf.flatMap_pieces (d :: rest), utf8_append]

theorem follows_content : Follows Piece.content (fun _ => false) fun _ => true where
  bare c := (utf8_singleton c).symm
  guarded c := (utf8_singleton c).symm
  dangling := rfl

theorem follows_release {bytes : UInt8 → Bool} {released : Char → Bool}
    (h : ∀ c, bytes (Character.ofChar c).lead = released c) :
    Follows (Piece.release bytes) (fun next => next.all fun c => !released c) fun _ => true where
  bare c := (utf8_singleton c).symm
  guarded c := by
    rw [Piece.release, h, Option.all_some]
    cases released c with
    | true => exact (utf8_singleton c).symm
    | false => exact (utf8_mark_cons c).symm
  dangling := rfl

theorem follows_withoutNull : Follows Piece.withoutNull (fun _ => true) fun c => c != null where
  bare c := by
    have hnull : (Character.ofChar c).isNull = (c == null) := lead_beq_nullMark c
    rw [Piece.withoutNull, hnull, bne]
    cases c == null with
    | true => rfl
    | false => exact (utf8_singleton c).symm
  guarded c := (utf8_mark_cons c).symm
  dangling := rfl

/-! ## Passes -/

namespace Selective

theorem encode_utf8 (place : Place) (ifs : Separators) (cs : List Char) :
    encode place ifs (utf8 cs) =
      utf8 (cs.flatMap fun c => if isProtected place ifs c then [mark, c] else [c]) := by
  rw [encode, encodeIn, characters_utf8, List.flatMap_map, utf8_flatMap]
  apply List.flatMap_congr
  intro c _
  rw [protects_lead]
  cases isProtected place ifs c with
  | true => exact (utf8_mark_cons c).symm
  | false => exact (utf8_singleton c).symm

theorem decode_utf8 (ifs : Separators) (cs : List Char) :
    decode ifs (utf8 cs) = utf8 (release (CodePoint.isEndangered ifs) cs) := by
  rw [decode_eq, ← flatMap_pieces_characters (copiesTail_release _), characters_utf8,
    (follows_release (isEndangered_lead ifs)).flatMap_pieces]
  rfl

end Selective

namespace Full

theorem encode_utf8 (cs : List Char) :
    encode (utf8 cs) = utf8 (if cs = [] then [null] else cs.flatMap fun c => [mark, c]) := by
  by_cases h : cs = []
  · subst h
    rfl
  · have hne : utf8 cs ≠ [] := fun he => h (utf8_inj.mp he)
    rw [encode, if_neg (by simpa using hne), if_neg h, encodeIn, characters_utf8,
      List.flatMap_map, utf8_flatMap]
    simp only [utf8_mark_cons]

theorem decode_utf8 (cs : List Char) :
    decode (utf8 cs) = utf8 (if cs = [mark] then [mark] else if cs = [null] then []
      else reread (fun _ => false) (fun _ => true) cs) := by
  have hmark : utf8 [mark] = bareEscape := rfl
  have hnull : utf8 [null] = quotedNull := rfl
  by_cases h1 : cs = [mark]
  · subst h1
    rfl
  by_cases h2 : cs = [null]
  · subst h2
    rfl
  · rw [if_neg h1, if_neg h2, decode_eq (by rwa [← hmark, ne_eq, utf8_inj])
      (by rwa [← hnull, ne_eq, utf8_inj]), ← flatMap_pieces_characters copiesTail_content,
      characters_utf8, follows_content.flatMap_pieces]

end Full

theorem releaseSeparators_utf8 (ifs : Separators) (cs : List Char) :
    releaseSeparators ifs (utf8 cs) = utf8 (release (startsAsSeparator ifs) cs) := by
  rw [releaseSeparators, releaseIn, characters_utf8,
    (follows_release fun c => (startsAsSeparator_eq ifs c).symm).flatMap_pieces]
  rfl

theorem compact_utf8 (cs : List Char) :
    compact (utf8 cs) = utf8 (reread (fun _ => true) (fun c => c != null) cs) := by
  rw [compact_eq_dropNulls, dropNulls, dropNullsIn, characters_utf8,
    follows_withoutNull.flatMap_pieces]

/-- Every pass over UTF-8 text gives the UTF-8 text of what its rule makes of the code points, also
when it is made inside a buffer. -/
theorem Pass.apply_utf8 (pass : Pass) (ifs : Separators) (cs : List Char) :
    pass.apply ifs (utf8 cs) = utf8 (pass.onCodePoints ifs cs) ∧
    (⟨.growable, utf8 cs⟩ : Stored).applyInPlace pass ifs =
      .ok ⟨.growable, utf8 (pass.onCodePoints ifs cs)⟩ ∧
    (pass.apply ifs (utf8 cs)).toByteArray.IsValidUTF8 := by
  have happly : pass.apply ifs (utf8 cs) = utf8 (pass.onCodePoints ifs cs) := by
    cases pass with
    | escape place => exact Selective.encode_utf8 place ifs cs
    | unescape => exact Selective.decode_utf8 ifs cs
    | encode => exact Full.encode_utf8 cs
    | decode => exact Full.decode_utf8 cs
    | releaseSeparators => exact releaseSeparators_utf8 ifs cs
    | dropNulls => exact compact_utf8 cs
  refine ⟨happly, ?_, ?_⟩
  · rw [← happly]
    rfl
  · rw [happly, toByteArray_utf8]
    exact ByteArray.isValidUTF8_utf8Encode

end SentinelQuoting
