import SentinelQuoting.Proofs.Assembly
import SentinelQuoting.Proofs.FullRoundTrip
import SentinelQuoting.Proofs.NullFlag

/-! # A list of words gives its texts back

A word that is listed several times is encoded as often, and the removal of null marks goes over it
as often before it is decoded as often. Only the outermost encoding can be the quoted empty string,
and only when the word was empty and is listed once; so the removal can take away no more than the
first decoding would (`Word.Encodes.decode_eq`). What is decoded after that is a proper encoding
every time, and the words are `settled`: their own texts, quoted, and without a claim to be the
quoted empty string. -/
namespace SentinelQuoting
set_option autoImplicit false

/-! ## Texts -/

namespace Full

theorem encode_ne_bareEscape (s : Bytes) : encode s ≠ bareEscape := by
  by_cases h : s = []
  · subst h
    decide
  · rw [encode_eq_spell h]
    exact spell_ne_bareEscape (legible_of_mem_written s)

theorem decode_encode (s : Bytes) : decode (encode s) = s := by
  have h := decodeReporting_encode s .silent
  rw [decodeReporting_eq (encode_ne_bareEscape s)] at h
  exact (EStateM.Result.ok.inj h).1

theorem compact_encode (s : Bytes) : compact (encode s) = if s = [] then [] else encode s := by
  by_cases h : s = []
  · subst h
    rw [if_pos rfl, compact_eq_dropNulls]
    rfl
  · rw [if_neg h, encode_eq_spell h,
      compact_spell_of_not_mem (legible_of_mem_written s) (nullPiece_not_mem_written s)]

end Full

/-! ## Words -/

namespace Word

theorem ext_test {v w : Word} (htext : v.text = w.text)
    (hflags : ∀ i, v.flags.test i = w.flags.test i) : v = w := by
  obtain ⟨vtext, vflags⟩ := v
  obtain ⟨wtext, wflags⟩ := w
  obtain rfl : vtext = wtext := htext
  obtain rfl : vflags = wflags := Flags.ext_test hflags
  rfl

theorem text_dropNulls (w : Word) : w.dropNulls.text = compact w.text := rfl

/-- The word with its own text, quoted, and not said to be the quoted empty string. -/
def settled (w : Word) : Word := (w.clearFlag .hasQuotedNull).setFlag .quoted

theorem test_settled (w : Word) {i : Nat} (hi : i ≠ 1) :
    w.settled.flags.test i = (w.flags.test i || decide (i = 0)) := by
  simp [settled, setFlag, clearFlag, Flags.test_quoted, Flags.test_hasQuotedNull, hi]

theorem hasQuotedNull_settled (w : Word) : w.settled.hasFlag .hasQuotedNull = false := by
  rw [hasFlag_hasQuotedNull]
  simp [settled, setFlag, clearFlag, Flags.test_quoted, Flags.test_hasQuotedNull]

/-! ## One encoding -/

/-- `e` is `w` after encoding, perhaps without the null marks that nothing protects. -/
structure Encodes (w e : Word) : Prop where
  text : e.text = Full.encode w.text ∨ (w.text = [] ∧ e.text = [])
  flags : ∀ i, i ≠ 1 → e.flags.test i = (w.flags.test i || decide (i = 0))
  consistent : e.Consistent

theorem encodes_encode (w : Word) : w.Encodes w.encode where
  text := .inl (text_encode w)
  flags _ hi := test_encode w hi
  consistent := consistent_encode w

theorem encodes_settled_encode (w : Word) : w.Encodes w.encode.settled where
  text := .inl (text_encode w)
  flags i hi := by rw [test_settled _ hi, test_encode w hi, Bool.or_assoc, Bool.or_self]
  consistent := consistent_of_not_hasFlag (hasQuotedNull_settled _)

section Encodes
variable {w e : Word} (h : w.Encodes e)
include h

theorem Encodes.dropNulls : w.Encodes e.dropNulls where
  text := by
    rw [text_dropNulls]
    rcases h.text with he | ⟨hw, he⟩
    · rw [he, Full.compact_encode]
      split
      · rename_i hw
        exact .inr ⟨hw, rfl⟩
      · exact .inl rfl
    · rw [he]
      exact .inr ⟨hw, rfl⟩
  flags i hi := by rw [test_dropNulls e hi, h.flags i hi]
  consistent := consistent_dropNulls e

theorem Encodes.iterate_dropNulls (n : Nat) : w.Encodes (Word.dropNulls^[n] e) :=
  Function.Iterate.rec w.Encodes h (fun _ he => he.dropNulls) n

theorem Encodes.text_ne_bareEscape : e.text ≠ bareEscape := by
  rcases h.text with he | ⟨-, he⟩
  · rw [he]
    exact Full.encode_ne_bareEscape w.text
  · rw [he]
    decide

theorem Encodes.decode_eq : e.decode = w.settled := by
  apply ext_test
  · rw [text_decode]
    rcases h.text with he | ⟨hw, he⟩
    · rw [he, Full.decode_encode]
      rfl
    · rw [he]
      exact hw.symm
  · intro i
    by_cases hi : i = 1
    · subst hi
      rw [← hasFlag_hasQuotedNull, ← hasFlag_hasQuotedNull, h.consistent.hasQuotedNull_decode,
        hasQuotedNull_settled]
    · rw [test_decode e hi, h.flags i hi, test_settled w hi]

end Encodes

/-! ## Encodings inside one another -/

theorem quiet_and_iterate_decode_settled (k : Nat) (w : Word) :
    Quiet k (Word.encode^[k] w).settled ∧
      Word.decode^[k] (Word.encode^[k] w).settled = w.settled := by
  induction k with
  | zero => exact ⟨trivial, rfl⟩
  | succ k ih =>
    -- the last encoding is the first to go, and what it leaves is settled again
    have h := encodes_settled_encode (Word.encode^[k] w)
    rw [Function.iterate_succ_apply', Function.iterate_succ_apply, Quiet, h.decode_eq]
    exact ⟨⟨h.text_ne_bareEscape, ih.1⟩, ih.2⟩

theorem quiet_and_iterate_decode {k : Nat} (hk : k ≠ 0) (n : Nat) (w : Word) :
    Quiet k (Word.dropNulls^[n] (Word.encode^[k] w)) ∧
      Word.decode^[k] (Word.dropNulls^[n] (Word.encode^[k] w)) = w.settled := by
  obtain ⟨k, rfl⟩ := Nat.exists_eq_succ_of_ne_zero hk
  -- the removal sees the last encoding only; the ones inside it are protected
  have h := (encodes_encode (Word.encode^[k] w)).iterate_dropNulls n
  obtain ⟨hquiet, hdecode⟩ := quiet_and_iterate_decode_settled k w
  rw [Function.iterate_succ_apply', Function.iterate_succ_apply, Quiet, h.decode_eq]
  exact ⟨⟨h.text_ne_bareEscape, hquiet⟩, hdecode⟩

end Word

/-! ## Pools -/

namespace Pool

section Prepared
variable (pool : Pool) (places : List Nat) (m : Nat)

/-- The pool after the words at these places have been encoded, and null marks have been removed
from them `m` times. -/
def prepared : Pool :=
  pool.performAll ((.encode places, .silent) :: List.replicate m (.dropNulls places, .silent))

theorem getElem?_prepared (i : Nat) :
    (pool.prepared places m)[i]? = pool[i]?.map fun w =>
      Word.dropNulls^[places.count i * m] (Word.encode^[places.count i] w) := by
  rw [prepared, performAll_cons, getElem?_performAll_replicate fun _ => rfl, perform,
    getElem?_visit, Option.map_map]
  rfl

theorem length_prepared : (pool.prepared places m).length = pool.length := by
  rw [prepared, length_performAll]

theorem decode_prepared (sink : Sink) :
    (pool.prepared places m).perform (.decode places) sink =
      ⟨(pool.prepared places m).visit Word.decode places, sink, none⟩ := by
  apply decode_eq_visit
  intro i e he
  rw [getElem?_prepared] at he
  obtain ⟨w, -, rfl⟩ := Option.map_eq_some_iff.mp he
  by_cases hi : places.count i = 0
  · rw [hi]
    trivial
  · exact (Word.quiet_and_iterate_decode hi _ w).1

theorem getElem?_visit_decode_prepared (i : Nat) :
    ((pool.prepared places m).visit Word.decode places)[i]? =
      pool[i]?.map fun w => if i ∈ places then w.settled else w := by
  rw [getElem?_visit, getElem?_prepared, Option.map_map]
  congr 1
  funext w
  by_cases hi : i ∈ places
  · have hcount : places.count i ≠ 0 := (List.count_pos_iff.mpr hi).ne'
    rw [if_pos hi]
    exact (Word.quiet_and_iterate_decode hcount _ w).2
  · have hcount : places.count i = 0 := List.count_eq_zero.mpr hi
    rw [if_neg hi, hcount, Nat.zero_mul]
    rfl

end Prepared

/-- Encoding a list, removing null marks any number of times and decoding gives back the text of
every word. The listed words are quoted and not said to be the quoted empty string, their other
flags and all other words are untouched, and the sink is never called. -/
theorem decode_dropNulls_encode (pool : Pool) (places : List Nat) (m : Nat) (sink : Sink) :
    let last := (pool.prepared places m).perform (.decode places) sink
    last.fault = none ∧ last.sink = sink ∧ last.pool.length = pool.length ∧
      ∀ (i : Nat) (w : Word), pool[i]? = some w → ∃ after, last.pool[i]? = some after ∧
        after.text = w.text ∧
        (i ∈ places →
          after.hasFlag .quoted = true ∧ after.hasFlag .hasQuotedNull = false ∧
          ∀ j, Flags.quoted.test j = false → Flags.hasQuotedNull.test j = false →
            after.flags.test j = w.flags.test j) ∧
        (i ∉ places → after.flags = w.flags) := by
  simp only [decode_prepared]
  refine ⟨trivial, trivial, by rw [length_visit, length_prepared], fun i w hw => ?_⟩
  refine ⟨if i ∈ places then w.settled else w, ?_, ?_, fun hi => ?_, fun hi => ?_⟩
  · rw [getElem?_visit_decode_prepared, hw]
    rfl
  · split <;> rfl
  · rw [if_pos hi]
    refine ⟨?_, w.hasQuotedNull_settled, fun j hq hn => ?_⟩
    · rw [Word.hasFlag, Flags.meets_quoted, Word.test_settled w (by decide)]
      simp
    · rw [Flags.test_quoted, decide_eq_false_iff_not] at hq
      rw [Flags.test_hasQuotedNull, decide_eq_false_iff_not] at hn
      rw [Word.test_settled w hn, decide_eq_false hq, Bool.or_false]
  · rw [if_neg hi]

/-- The empty word once and three times and a lone mark twice, in one list, with a sink that fails
at every call. -/
theorem decode_dropNulls_encode_repeated :
    let pool : Pool := [⟨[], ⟨2⟩⟩, ⟨[escapeMark], ⟨6⟩⟩, ⟨quotedNull, ⟨8⟩⟩, ⟨[], ⟨0⟩⟩]
    let places := [3, 1, 0, 3, 1, 3]
    let sink : Sink := .writer (.fresh true (fun _ => true) fun _ => true)
    let last := (pool.prepared places 2).perform (.decode places) sink
    last.fault = none ∧ pool[1]? = some ⟨[escapeMark], ⟨6⟩⟩ ∧ 1 ∈ places ∧
      ∃ after, last.pool[1]? = some after ∧ after.text = [escapeMark] ∧
        after.hasFlag .quoted = true ∧ after.hasFlag .hasQuotedNull = false := by
  intro pool places sink last
  obtain ⟨hfault, -, -, hwords⟩ := decode_dropNulls_encode pool places 2 sink
  obtain ⟨after, hafter, htext, hlisted, -⟩ := hwords 1 ⟨[escapeMark], ⟨6⟩⟩ rfl
  have hmem : 1 ∈ places := by decide
  exact ⟨hfault, rfl, hmem, after, hafter, htext, (hlisted hmem).1, (hlisted hmem).2.1⟩

end Pool
end SentinelQuoting
