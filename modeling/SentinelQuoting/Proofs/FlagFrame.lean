import SentinelQuoting.Proofs.NullFlag
import SentinelQuoting.Proofs.Reports

/-! # What a run does to the flags of a word

Only two flags are ever changed. `quoted` is set by full encoding and never taken away.
`hasQuotedNull` is set where full encoding finds an empty text, and nowhere else. To say when that
is, a call is followed visit by visit: `midway` is the pool when the first visits have been made, and
the next visit changes one word or, once a sink has failed, none (`midway_succ`). -/
namespace SentinelQuoting
set_option autoImplicit false

/-- Whether the operation is full encoding. -/
def Operation.encodes : Operation → Bool
  | .encode _ => true
  | _ => false

theorem Operation.encodes_iff (operation : Operation) :
    operation.encodes = true ↔ ∃ places, operation = .encode places := by
  cases operation <;> simp [encodes]

/-! ## One change -/

namespace Word

theorem test_dropStaleNull (w : Word) {i : Nat} (hi : i ≠ 1) :
    w.dropStaleNull.flags.test i = w.flags.test i := by
  unfold dropStaleNull
  cases isQuotedNull w.text <;> simp [clearFlag, Flags.test_hasQuotedNull, hi]

theorem hasFlag_of_dropStaleNull (w : Word)
    (h : w.dropStaleNull.hasFlag .hasQuotedNull = true) : w.hasFlag .hasQuotedNull = true := by
  unfold dropStaleNull at h
  split at h
  · exact h
  · rw [hasQuotedNull_clearFlag] at h
    exact absurd h (by decide)

theorem hasFlag_of_decode {w : Word} (h : w.decode.hasFlag .hasQuotedNull = true) :
    w.hasFlag .hasQuotedNull = true := by
  unfold decode withDecoded at h
  dsimp only at h
  split at h
  · rw [hasQuotedNull_clearFlag] at h
    exact absurd h (by decide)
  · exact h

theorem test_change (operation : Operation) (w : Word) {i : Nat} (hi : i ≠ 1) :
    (operation.change w).flags.test i =
      (w.flags.test i || (operation.encodes && decide (i = 0))) := by
  cases operation with
  | encode places => exact test_encode w hi
  | decode places => exact (test_decode w hi).trans (Bool.or_false _).symm
  | decodeOne place => exact (test_decode w hi).trans (Bool.or_false _).symm
  | escape ifs places => exact (test_dropStaleNull _ hi).trans (Bool.or_false _).symm
  | unescape ifs places => exact (test_dropStaleNull _ hi).trans (Bool.or_false _).symm
  | dropNulls places => exact (test_dropNulls w hi).trans (Bool.or_false _).symm

theorem test_iterate_change (operation : Operation) (n : Nat) (w : Word) {i : Nat} (hi : i ≠ 1) :
    (operation.change^[n] w).flags.test i =
      (w.flags.test i || (decide (n ≠ 0) && operation.encodes && decide (i = 0))) := by
  induction n with
  | zero => simp
  | succ n ih =>
    rw [Function.iterate_succ_apply', test_change _ _ hi, ih]
    cases w.flags.test i <;> cases operation.encodes <;> simp

/-- The flag `hasQuotedNull` is newly set by the full encoding of an empty text alone. -/
theorem hasFlag_or_of_change {operation : Operation} {w : Word}
    (h : (operation.change w).hasFlag .hasQuotedNull = true) :
    w.hasFlag .hasQuotedNull = true ∨ (operation.encodes = true ∧ w.text = []) := by
  cases operation with
  | encode places =>
    rw [Operation.change, hasQuotedNull_encode, List.isEmpty_iff] at h
    exact .inr ⟨rfl, h⟩
  | decode places => exact .inl (hasFlag_of_decode h)
  | decodeOne place => exact .inl (hasFlag_of_decode h)
  | escape ifs places =>
    exact .inl (hasFlag_of_dropStaleNull (w.withText (Selective.encode .expansion ifs w.text)) h)
  | unescape ifs places =>
    exact .inl (hasFlag_of_dropStaleNull (w.withText (Selective.decode ifs w.text)) h)
  | dropNulls places =>
    rw [Operation.change, dropNulls, hasQuotedNull_clearFlag] at h
    exact absurd h (by decide)

end Word

namespace Pool

/-! ## One call -/

/-- A word changes as often as it is visited: not at all when it is not listed, and at least once
when it is listed for full encoding, which nothing stops. -/
theorem exists_getElem?_perform (operation : Operation) (pool : Pool) (sink : Sink) (i : Nat) :
    ∃ n, (pool.perform operation sink).pool[i]? = pool[i]?.map operation.change^[n] ∧
      (i ∉ operation.places → n = 0) ∧
      (operation.encodes = true → i ∈ operation.places → n ≠ 0) := by
  obtain ⟨visited, hfirst, hpool, hall⟩ := exists_perform_eq_visit operation pool sink
  refine ⟨visited.count i, ?_, fun hi => ?_, fun hencodes hi => ?_⟩
  · rw [hpool, getElem?_visit]
  · exact List.count_eq_zero_of_not_mem fun hm => hi (hfirst.subset hm)
  · obtain ⟨places, rfl⟩ := operation.encodes_iff.mp hencodes
    rw [hall rfl]
    exact (List.count_pos_iff.mpr hi).ne'

/-- Whether a call encodes the word at this place. -/
def quotes (i : Nat) (call : Operation × Sink) : Bool :=
  call.1.encodes && decide (i ∈ call.1.places)

theorem map_test_perform (operation : Operation) (pool : Pool) (sink : Sink) (i : Nat) {j : Nat}
    (hj : j ≠ 1) :
    ((pool.perform operation sink).pool[i]?.map fun w => w.flags.test j) =
      pool[i]?.map fun w =>
        w.flags.test j || (quotes i (operation, sink) && decide (j = 0)) := by
  obtain ⟨n, hn, hzero, hpos⟩ := exists_getElem?_perform operation pool sink i
  have hvisited : (decide (n ≠ 0) && operation.encodes) = quotes i (operation, sink) := by
    unfold quotes
    by_cases hi : i ∈ operation.places
    · cases he : operation.encodes with
      | false => simp
      | true => simp [hi, hpos he hi]
    · simp [hi, hzero hi]
  rw [hn, Option.map_map]
  congr 1
  funext w
  rw [Function.comp_apply, Word.test_iterate_change _ _ _ hj, hvisited]

theorem getElem?_perform_of_not_mem {operation : Operation} {i : Nat}
    (h : i ∉ operation.places) (pool : Pool) (sink : Sink) :
    (pool.perform operation sink).pool[i]? = pool[i]? := by
  obtain ⟨n, hn, hzero, -⟩ := exists_getElem?_perform operation pool sink i
  rw [hn, hzero h]
  simp

/-! ## Runs -/

theorem map_test_performAll (calls : List (Operation × Sink)) (pool : Pool) (i : Nat) {j : Nat}
    (hj : j ≠ 1) :
    ((pool.performAll calls)[i]?.map fun w => w.flags.test j) =
      pool[i]?.map fun w => w.flags.test j || (calls.any (quotes i) && decide (j = 0)) := by
  induction calls generalizing pool with
  | nil => simp
  | cons call calls ih =>
    -- what the later calls do to the flag depends on the flag alone
    have hrest : (fun w : Word =>
        w.flags.test j || (calls.any (quotes i) && decide (j = 0))) =
          (· || (calls.any (quotes i) && decide (j = 0))) ∘ fun w => w.flags.test j := rfl
    rw [performAll_cons, ih, hrest, ← Option.map_map, map_test_perform _ _ _ _ hj, Option.map_map]
    congr 1
    funext w
    simp only [Function.comp_apply, List.any_cons]
    cases quotes i call <;> cases decide (j = 0) <;> simp

theorem getElem?_performAll_of_not_mem {calls : List (Operation × Sink)} {i : Nat}
    (h : ∀ call ∈ calls, i ∉ call.1.places) (pool : Pool) :
    (pool.performAll calls)[i]? = pool[i]? := by
  induction calls generalizing pool with
  | nil => rfl
  | cons call calls ih =>
    rw [List.forall_mem_cons] at h
    rw [performAll_cons, ih h.2, getElem?_perform_of_not_mem h.1]

theorem any_quotes_iff (calls : List (Operation × Sink)) (i : Nat) :
    calls.any (quotes i) = true ↔
      ∃ places sink, (Operation.encode places, sink) ∈ calls ∧ i ∈ places := by
  rw [List.any_eq_true]
  constructor
  · rintro ⟨⟨operation, sink⟩, hmem, hquotes⟩
    obtain ⟨hencodes, hi⟩ := Bool.and_eq_true_iff.mp hquotes
    obtain ⟨places, rfl⟩ := operation.encodes_iff.mp hencodes
    exact ⟨places, sink, hmem, of_decide_eq_true hi⟩
  · rintro ⟨places, sink, hmem, hi⟩
    exact ⟨(.encode places, sink), hmem, decide_eq_true hi⟩

/-! ## Visit by visit -/

/-- The pool once the first `k` visits of an operation have been made, or as many of them as the
sink allows. -/
def midway (operation : Operation) (sink : Sink) (k : Nat) (pool : Pool) : Pool :=
  (pool.perform (operation.on (operation.places.take k)) sink).pool

section Midway
variable (operation : Operation) (sink : Sink) (pool : Pool)

theorem midway_zero : pool.midway operation sink 0 = pool := by
  cases operation <;> rfl

theorem midway_length :
    pool.midway operation sink operation.places.length = (pool.perform operation sink).pool := by
  unfold midway
  rw [List.take_length, perform_on_places]

theorem decode_concat (places : List Nat) (place : Nat) :
    (pool.decode (places ++ [place]) sink).pool = (pool.decode places sink).pool ∨
      (pool.decode (places ++ [place]) sink).pool =
        (pool.decode places sink).pool.modify place Word.decode := by
  induction places generalizing pool sink with
  | nil =>
    cases h : Full.report (pool.textAt place) sink with
    | ok u after =>
      right
      rw [List.nil_append, decode_cons_of_report h]
      rfl
    | error fault after =>
      left
      rw [List.nil_append, decode_cons_of_fault h]
      rfl
  | cons first places ih =>
    rw [List.cons_append]
    cases h : Full.report (pool.textAt first) sink with
    | ok u after =>
      rw [decode_cons_of_report h, decode_cons_of_report h]
      exact ih after (pool.modify first Word.decode)
    | error fault after =>
      -- both passes end here
      left
      rw [decode_cons_of_fault h, decode_cons_of_fault h]

theorem visit_concat (f : Word → Word) (places : List Nat) (place : Nat) :
    pool.visit f (places ++ [place]) = (pool.visit f places).modify place f := by
  rw [visit_append]
  rfl

theorem perform_concat (places : List Nat) (place : Nat) :
    (pool.perform (operation.on (places ++ [place])) sink).pool =
        (pool.perform (operation.on places) sink).pool ∨
      (pool.perform (operation.on (places ++ [place])) sink).pool =
        (pool.perform (operation.on places) sink).pool.modify place operation.change := by
  cases h : operation.decodes with
  | true =>
    rw [perform_on_of_decodes h, perform_on_of_decodes h, Operation.change_of_decodes h]
    exact decode_concat sink pool places place
  | false =>
    right
    rw [perform_on_of_not_decodes h, perform_on_of_not_decodes h]
    exact visit_concat pool operation.change places place

theorem midway_succ (k : Nat) :
    pool.midway operation sink (k + 1) = pool.midway operation sink k ∨
      ∃ place, operation.places[k]? = some place ∧
        pool.midway operation sink (k + 1) =
          (pool.midway operation sink k).modify place operation.change := by
  unfold midway
  rw [List.take_add_one]
  cases hplace : operation.places[k]? with
  | none =>
    left
    rw [Option.toList_none, List.append_nil]
  | some place =>
    rw [Option.toList_some]
    rcases perform_concat operation sink pool (operation.places.take k) place with h | h
    · exact .inl h
    · exact .inr ⟨place, rfl, h⟩

variable {operation sink pool}

theorem of_hasQuotedNull_midway_succ {k i : Nat} {v w : Word}
    (hv : (pool.midway operation sink k)[i]? = some v)
    (hw : (pool.midway operation sink (k + 1))[i]? = some w)
    (hclear : v.hasFlag .hasQuotedNull = false) (hset : w.hasFlag .hasQuotedNull = true) :
    operation.encodes = true ∧ operation.places[k]? = some i ∧ v.text = [] := by
  -- the word has changed, so it is the one that was visited
  have hne : w ≠ v := by
    rintro rfl
    rw [hclear] at hset
    exact absurd hset (by decide)
  rcases midway_succ operation sink pool k with hsame | ⟨place, hplace, hvisit⟩
  · rw [hsame, hv] at hw
    exact absurd (Option.some.inj hw).symm hne
  · rw [hvisit, getElem?_modify_eq, hv] at hw
    by_cases hi : place = i
    · subst hi
      obtain rfl : operation.change v = w := by simpa using hw
      rcases Word.hasFlag_or_of_change hset with h | ⟨hencodes, htext⟩
      · rw [hclear] at h
        exact absurd h (by decide)
      · exact ⟨hencodes, hplace, htext⟩
    · obtain rfl : v = w := by simpa [hi] using hw
      exact absurd rfl hne

end Midway

/-- The flags after any run, with sinks that may fail. All flags but two are as they were. The flag
`quoted` is set where it was set before or full encoding has listed the word. A word that no call
lists is as it was. Each call goes from its start to its end visit by visit, and `hasQuotedNull` is
newly set only in a visit of full encoding that finds an empty text. -/
theorem flags_performAll (pool : Pool) (calls : List (Operation × Sink)) :
    (pool.performAll calls).length = pool.length ∧
    (∀ (i : Nat) (w : Word), pool[i]? = some w →
      ∃ after, (pool.performAll calls)[i]? = some after ∧
        (∀ j, Flags.quoted.test j = false → Flags.hasQuotedNull.test j = false →
          after.flags.test j = w.flags.test j) ∧
        (after.hasFlag .quoted = true ↔ w.hasFlag .quoted = true ∨
          ∃ places sink, (Operation.encode places, sink) ∈ calls ∧ i ∈ places) ∧
        ((∀ call ∈ calls, i ∉ call.1.places) → after = w)) ∧
    ∀ (n : Nat) (operation : Operation) (sink : Sink), calls[n]? = some (operation, sink) →
      let moment := fun k => (pool.performAll (calls.take n)).midway operation sink k
      moment 0 = pool.performAll (calls.take n) ∧
      moment operation.places.length = pool.performAll (calls.take (n + 1)) ∧
      (∀ k, moment (k + 1) = moment k ∨ ∃ place, operation.places[k]? = some place ∧
        moment (k + 1) = (moment k).modify place operation.change) ∧
      ∀ (k i : Nat) (v w : Word), (moment k)[i]? = some v → (moment (k + 1))[i]? = some w →
        v.hasFlag .hasQuotedNull = false → w.hasFlag .hasQuotedNull = true →
          (∃ places, operation = .encode places) ∧ operation.places[k]? = some i ∧ v.text = [] := by
  refine ⟨length_performAll calls pool, fun i w hw => ?_, fun n operation sink hcall => ?_⟩
  · have hlt : i < (pool.performAll calls).length := by
      rw [length_performAll]
      exact (List.getElem?_eq_some_iff.mp hw).1
    obtain ⟨after, hafter⟩ : ∃ after, (pool.performAll calls)[i]? = some after :=
      ⟨_, List.getElem?_eq_getElem hlt⟩
    have htest : ∀ j, j ≠ 1 →
        after.flags.test j = (w.flags.test j || (calls.any (quotes i) && decide (j = 0))) := by
      intro j hj
      have h := map_test_performAll calls pool i hj
      rw [hafter, hw] at h
      exact Option.some.inj h
    refine ⟨after, hafter, fun j hq hn => ?_, ?_, fun hi => ?_⟩
    · rw [Flags.test_quoted, decide_eq_false_iff_not] at hq
      rw [Flags.test_hasQuotedNull, decide_eq_false_iff_not] at hn
      rw [htest j hn, decide_eq_false hq, Bool.and_false, Bool.or_false]
    · rw [Word.hasFlag, Word.hasFlag, Flags.meets_quoted, Flags.meets_quoted,
        htest 0 (by decide), ← any_quotes_iff]
      simp
    · rw [getElem?_performAll_of_not_mem hi, hw] at hafter
      exact (Option.some.inj hafter).symm
  · refine ⟨midway_zero operation sink _, ?_, midway_succ operation sink _,
      fun k i v w hv hw hclear hset => ?_⟩
    · have htake : calls.take (n + 1) = calls.take n ++ [(operation, sink)] := by
        rw [List.take_add_one, hcall]
        rfl
      rw [htake, performAll_append]
      exact midway_length operation sink _
    · obtain ⟨hencodes, hplace, htext⟩ := of_hasQuotedNull_midway_succ hv hw hclear hset
      exact ⟨operation.encodes_iff.mp hencodes, hplace, htext⟩

/-- An empty word that is encoded twice, one that is decoded until the sink fails at it, and one that
no call lists. -/
theorem flags_performAll_failing :
    let pool : Pool := [⟨[], ⟨12⟩⟩, ⟨[escapeMark], ⟨2⟩⟩, ⟨[], ⟨4⟩⟩]
    let sink : Sink := .writer (.fresh false (fun _ => true) fun _ => false)
    let calls := [(Operation.encode [0, 1, 0], sink), (.decode [0, 1, 1, 0], sink),
      (.dropNulls [1], sink)]
    let visited := fun k => pool.midway (.encode [0, 1, 0]) sink k
    ((pool.performAll (calls.take 1)).perform (.decode [0, 1, 1, 0]) sink).fault = some .write ∧
    (∃ after, (pool.performAll calls)[0]? = some after ∧ after.flags.test 3 = true ∧
      after.hasFlag .quoted = true) ∧
    (pool.performAll calls)[2]? = some ⟨[], ⟨4⟩⟩ ∧
    (visited 0)[0]? = some ⟨[], ⟨12⟩⟩ ∧ (visited 1)[0]? = some ⟨quotedNull, ⟨15⟩⟩ ∧
    (⟨[], ⟨12⟩⟩ : Word).hasFlag .hasQuotedNull = false ∧
    (⟨quotedNull, ⟨15⟩⟩ : Word).hasFlag .hasQuotedNull = true ∧
    (Operation.encode [0, 1, 0]).places[0]? = some 0 := by
  intro pool sink calls visited
  obtain ⟨-, hwords, hmoments⟩ := flags_performAll pool calls
  obtain ⟨after, hafter, hothers, hquoted, -⟩ := hwords 0 ⟨[], ⟨12⟩⟩ rfl
  obtain ⟨last, hlast, -, -, hunlisted⟩ := hwords 2 ⟨[], ⟨4⟩⟩ rfl
  obtain rfl := hunlisted (by simp [calls, Operation.places])
  obtain ⟨-, hplace, -⟩ := (hmoments 0 (.encode [0, 1, 0]) sink rfl).2.2.2 0 0 ⟨[], ⟨12⟩⟩
    ⟨quotedNull, ⟨15⟩⟩ rfl rfl (by decide) (by decide)
  refine ⟨by decide, ⟨after, hafter, ?_, ?_⟩, hlast, rfl, rfl, by decide, by decide, hplace⟩
  · rw [hothers 3 (by decide) (by decide)]
    decide
  · exact hquoted.mpr (.inr ⟨[0, 1, 0], sink, List.mem_cons_self, by decide⟩)

end Pool
end SentinelQuoting
