import Mathlib.Logic.Function.Iterate
import SentinelQuoting.Proofs.Decoding
import SentinelQuoting.Word.Pool

/-! # Passes over a pool, word by word

A pass visits the places of a list one after the other, and each visit changes one word. So a word
is changed as often as its place is listed, whatever comes in between (`getElem?_visit`). A visit
that decodes makes its report first, and a report that fails is all that can stop a pass
(`decode_cons`). So every operation is a pass over some first places of its list, over all of them
unless the sink fails (`exists_perform_eq_visit`). -/
namespace SentinelQuoting
set_option autoImplicit false

/-- What an operation does to a word that it visits. -/
def Operation.change : Operation → Word → Word
  | .encode _ => Word.encode
  | .decode _ => Word.decode
  | .decodeOne _ => Word.decode
  | .escape ifs _ => Word.escape ifs
  | .unescape ifs _ => Word.unescape ifs
  | .dropNulls _ => Word.dropNulls

/-- Whether the operation decodes fully. No other operation uses the sink. -/
def Operation.decodes : Operation → Bool
  | .decode _ => true
  | .decodeOne _ => true
  | _ => false

/-- The same pass over the words at other places. -/
def Operation.on (places : List Nat) : Operation → Operation
  | .encode _ => .encode places
  | .decode _ => .decode places
  | .decodeOne _ => .decode places
  | .escape ifs _ => .escape ifs places
  | .unescape ifs _ => .unescape ifs places
  | .dropNulls _ => .dropNulls places

namespace Operation

theorem change_on (operation : Operation) (places : List Nat) :
    (operation.on places).change = operation.change := by
  cases operation <;> rfl

theorem places_on (operation : Operation) (places : List Nat) :
    (operation.on places).places = places := by
  cases operation <;> rfl

theorem decodes_on (operation : Operation) (places : List Nat) :
    (operation.on places).decodes = operation.decodes := by
  cases operation <;> rfl

theorem change_of_decodes {operation : Operation} (h : operation.decodes = true) :
    operation.change = Word.decode := by
  cases operation with
  | decode _ => rfl
  | decodeOne _ => rfl
  | _ => cases h

end Operation

/-- Decoding the word so many times reports nothing. -/
def Word.Quiet : Nat → Word → Prop
  | 0, _ => True
  | n + 1, w => w.text ≠ bareEscape ∧ Word.Quiet n w.decode

namespace Word

/-- Decoding a word with its report is making the report for its text and then decoding it. -/
theorem decodeReporting_eq (w : Word) (sink : Sink) :
    w.decodeReporting sink =
      match Full.report w.text sink with
      | .ok _ after => .ok w.decode after
      | .error fault after => .error fault after := by
  have hsteps : w.decodeReporting =
      EStateM.bind (EStateM.bind (Full.report w.text) fun _ => pure (Full.decode w.text))
        fun text => pure (w.withDecoded text) := rfl
  rw [hsteps, EStateM.bind, EStateM.bind]
  cases Full.report w.text sink with
  | ok u after => rfl
  | error fault after => rfl

end Word

namespace Pool

/-- The text of the word at a place; where there is no word, the empty text. -/
def textAt (pool : Pool) (place : Nat) : Bytes := (pool[place]?.map Word.text).getD []

/-! ## Visits -/

theorem visit_cons (f : Word → Word) (place : Nat) (places : List Nat) (pool : Pool) :
    pool.visit f (place :: places) = visit f places (pool.modify place f) := rfl

theorem getElem?_modify_eq (f : Word → Word) (pool : Pool) (place i : Nat) :
    (pool.modify place f)[i]? = pool[i]?.map fun w => if place = i then f w else w := by
  rw [List.getElem?_modify]
  rfl

/-- A word is changed as often as its place is listed. -/
theorem getElem?_visit (f : Word → Word) (places : List Nat) (pool : Pool) (i : Nat) :
    (pool.visit f places)[i]? = pool[i]?.map f^[places.count i] := by
  induction places generalizing pool with
  | nil => simp [visit]
  | cons place places ih =>
    rw [visit_cons, ih, getElem?_modify_eq, Option.map_map]
    congr 1
    funext w
    by_cases h : place = i
    · simp [h]
    · simp [h]

theorem length_visit (f : Word → Word) (places : List Nat) (pool : Pool) :
    (pool.visit f places).length = pool.length := by
  induction places generalizing pool with
  | nil => rfl
  | cons place places ih => rw [visit_cons, ih, List.length_modify]

/-- What every change keeps, a pass keeps. -/
theorem forall_mem_visit {P : Word → Prop} {f : Word → Word} (hf : ∀ w, P w → P (f w))
    (places : List Nat) {pool : Pool} (h : ∀ w ∈ pool, P w) : ∀ w ∈ pool.visit f places, P w := by
  intro w hw
  obtain ⟨i, hi⟩ := List.mem_iff_getElem?.mp hw
  rw [getElem?_visit] at hi
  obtain ⟨v, hv, rfl⟩ := Option.map_eq_some_iff.mp hi
  exact Function.Iterate.rec P (h v (List.mem_of_getElem? hv)) hf _

/-- What every change brings about, a pass brings about in the words it lists. -/
theorem of_getElem?_visit (P : Word → Prop) {f : Word → Word} (hf : ∀ w, P (f w))
    {places : List Nat} {pool : Pool} {i : Nat} (hi : i ∈ places) {w : Word}
    (hw : (pool.visit f places)[i]? = some w) : P w := by
  rw [getElem?_visit] at hw
  obtain ⟨v, -, rfl⟩ := Option.map_eq_some_iff.mp hw
  obtain ⟨n, hn⟩ := Nat.exists_eq_succ_of_ne_zero (List.count_pos_iff.mpr hi).ne'
  rw [hn, Function.iterate_succ_apply']
  exact hf _

/-! ## Decoding with a sink -/

theorem textAt_of_getElem? {pool : Pool} {place : Nat} {w : Word} (h : pool[place]? = some w) :
    pool.textAt place = w.text := by
  rw [textAt, h]
  rfl

theorem textAt_of_none {pool : Pool} {place : Nat} (h : pool[place]? = none) :
    pool.textAt place = [] := by
  rw [textAt, h]
  rfl

theorem modify_of_none (f : Word → Word) {pool : Pool} {place : Nat} (h : pool[place]? = none) :
    pool.modify place f = pool := by
  rw [List.modify_eq_set_getElem?, h]
  rfl

theorem modify_of_getElem? (f : Word → Word) {pool : Pool} {place : Nat} {w : Word}
    (h : pool[place]? = some w) : pool.modify place f = pool.set place (f w) := by
  rw [List.modify_eq_set_getElem?, h]
  rfl

/-- A visit with a sink makes the report for the text that it finds, which is none where there is
no word, and then it is a visit like any other. -/
theorem decode_cons (place : Nat) (places : List Nat) (pool : Pool) (sink : Sink) :
    pool.decode (place :: places) sink =
      match Full.report (pool.textAt place) sink with
      | .ok _ after => decode places (pool.modify place Word.decode) after
      | .error fault after => ⟨pool, after, some fault⟩ := by
  rw [decode]
  cases hw : pool[place]? with
  | none =>
    rw [textAt_of_none hw, modify_of_none Word.decode hw]
    rfl
  | some w =>
    rw [textAt_of_getElem? hw, modify_of_getElem? Word.decode hw]
    dsimp only
    rw [w.decodeReporting_eq]
    cases Full.report w.text sink with
    | ok u after => rfl
    | error fault after => rfl

theorem decode_cons_of_report {place : Nat} {pool : Pool} {sink after : Sink} {u : Unit}
    (h : Full.report (pool.textAt place) sink = .ok u after) (places : List Nat) :
    pool.decode (place :: places) sink = decode places (pool.modify place Word.decode) after := by
  rw [decode_cons, h]

theorem decode_cons_of_fault {place : Nat} {pool : Pool} {sink after : Sink} {fault : WriterFault}
    (h : Full.report (pool.textAt place) sink = .error fault after) (places : List Nat) :
    pool.decode (place :: places) sink = ⟨pool, after, some fault⟩ := by
  rw [decode_cons, h]

theorem exists_decode_eq_visit (places : List Nat) (pool : Pool) (sink : Sink) :
    ∃ visited, visited <+: places ∧
      (pool.decode places sink).pool = pool.visit Word.decode visited ∧
      ((pool.decode places sink).fault = none → visited = places) := by
  induction places generalizing pool sink with
  | nil => exact ⟨[], List.prefix_rfl, rfl, fun _ => rfl⟩
  | cons place places ih =>
    cases h : Full.report (pool.textAt place) sink with
    | ok u after =>
      obtain ⟨visited, hprefix, hpool, hall⟩ := ih (pool.modify place Word.decode) after
      rw [decode_cons_of_report h]
      refine ⟨place :: visited, ?_, hpool, fun hnone => ?_⟩
      · exact (List.prefix_cons_inj place).mpr hprefix
      · rw [hall hnone]
    | error fault after =>
      rw [decode_cons_of_fault h]
      exact ⟨[], List.nil_prefix, rfl, fun hnone => absurd hnone (by simp)⟩

/-- When no word has anything to report, decoding is a pass like any other, and the sink is as it
was. -/
theorem decode_eq_visit {places : List Nat} {pool : Pool}
    (h : ∀ (i : Nat) (w : Word), pool[i]? = some w → w.Quiet (places.count i)) (sink : Sink) :
    pool.decode places sink = ⟨pool.visit Word.decode places, sink, none⟩ := by
  induction places generalizing pool with
  | nil => rfl
  | cons place places ih =>
    have hbare : pool.textAt place ≠ bareEscape := by
      cases hw : pool[place]? with
      | none =>
        rw [textAt_of_none hw]
        decide
      | some w =>
        have hquiet := h place w hw
        rw [List.count_cons_self] at hquiet
        rw [textAt_of_getElem? hw]
        exact hquiet.1
    rw [decode_cons_of_report (Full.report_of_ne hbare sink), visit_cons]
    -- the word at `place` has one decoding less before it, every other word as many as before
    apply ih
    intro i w hw
    rw [getElem?_modify_eq] at hw
    obtain ⟨v, hv, rfl⟩ := Option.map_eq_some_iff.mp hw
    have hquiet := h i v hv
    by_cases he : place = i
    · subst he
      rw [List.count_cons_self] at hquiet
      rw [if_pos rfl]
      exact hquiet.2
    · rw [List.count_cons_of_ne he] at hquiet
      rw [if_neg he]
      exact hquiet

/-! ## Operations -/

theorem perform_on_places (operation : Operation) (pool : Pool) (sink : Sink) :
    pool.perform (operation.on operation.places) sink = pool.perform operation sink := by
  cases operation <;> rfl

theorem perform_on_of_decodes {operation : Operation} (h : operation.decodes = true)
    (places : List Nat) (pool : Pool) (sink : Sink) :
    pool.perform (operation.on places) sink = pool.decode places sink := by
  cases operation with
  | decode _ => rfl
  | decodeOne _ => rfl
  | _ => cases h

theorem perform_on_of_not_decodes {operation : Operation} (h : operation.decodes = false)
    (places : List Nat) (pool : Pool) (sink : Sink) :
    pool.perform (operation.on places) sink = ⟨pool.visit operation.change places, sink, none⟩ := by
  cases operation with
  | decode _ => cases h
  | decodeOne _ => cases h
  | _ => rfl

/-- Everything that an operation can do to a pool. -/
theorem exists_perform_eq_visit (operation : Operation) (pool : Pool) (sink : Sink) :
    ∃ visited, visited <+: operation.places ∧
      (pool.perform operation sink).pool = pool.visit operation.change visited ∧
      ((pool.perform operation sink).fault = none → visited = operation.places) := by
  rw [← perform_on_places]
  cases h : operation.decodes with
  | true =>
    rw [perform_on_of_decodes h, Operation.change_of_decodes h]
    exact exists_decode_eq_visit operation.places pool sink
  | false =>
    rw [perform_on_of_not_decodes h]
    exact ⟨operation.places, List.prefix_rfl, rfl, fun _ => rfl⟩

theorem getElem?_perform {operation : Operation} {pool : Pool} {sink : Sink}
    (h : (pool.perform operation sink).fault = none) (i : Nat) :
    (pool.perform operation sink).pool[i]? =
      pool[i]?.map operation.change^[operation.places.count i] := by
  obtain ⟨visited, -, hpool, hall⟩ := exists_perform_eq_visit operation pool sink
  rw [hpool, hall h, getElem?_visit]

theorem forall_mem_perform {P : Word → Prop} {operation : Operation}
    (hf : ∀ w, P w → P (operation.change w)) {pool : Pool} (h : ∀ w ∈ pool, P w) (sink : Sink) :
    ∀ w ∈ (pool.perform operation sink).pool, P w := by
  obtain ⟨visited, -, hpool, -⟩ := exists_perform_eq_visit operation pool sink
  rw [hpool]
  exact forall_mem_visit hf visited h

theorem length_perform (operation : Operation) (pool : Pool) (sink : Sink) :
    (pool.perform operation sink).pool.length = pool.length := by
  obtain ⟨visited, -, hpool, -⟩ := exists_perform_eq_visit operation pool sink
  rw [hpool, length_visit]

/-- The pool after operations, each with the sink that it is given. An operation that fails keeps
what it did, and the next one starts from there. -/
def performAll (calls : List (Operation × Sink)) (pool : Pool) : Pool :=
  calls.foldl (fun pool call => (pool.perform call.1 call.2).pool) pool

@[simp] theorem performAll_nil (pool : Pool) : pool.performAll [] = pool := rfl

theorem performAll_cons (operation : Operation) (sink : Sink) (calls : List (Operation × Sink))
    (pool : Pool) :
    pool.performAll ((operation, sink) :: calls) =
      performAll calls (pool.perform operation sink).pool := rfl

theorem performAll_append (a b : List (Operation × Sink)) (pool : Pool) :
    pool.performAll (a ++ b) = (pool.performAll a).performAll b := List.foldl_append

theorem length_performAll (calls : List (Operation × Sink)) (pool : Pool) :
    (pool.performAll calls).length = pool.length := by
  induction calls generalizing pool with
  | nil => rfl
  | cons call calls ih => rw [performAll_cons, ih, length_perform]

theorem getElem?_performAll_replicate {operation : Operation} {sink : Sink}
    (h : ∀ pool : Pool, (pool.perform operation sink).fault = none) (n : Nat) (pool : Pool)
    (i : Nat) :
    (pool.performAll (List.replicate n (operation, sink)))[i]? =
      pool[i]?.map operation.change^[operation.places.count i * n] := by
  induction n generalizing pool with
  | zero => simp
  | succ n ih =>
    rw [List.replicate_succ, performAll_cons, ih, getElem?_perform (h pool), Option.map_map,
      ← Function.iterate_add, Nat.mul_succ]

theorem forall_mem_performAll {P : Word → Prop}
    (hf : ∀ (operation : Operation) (w : Word), P w → P (operation.change w))
    (calls : List (Operation × Sink)) {pool : Pool} (h : ∀ w ∈ pool, P w) :
    ∀ w ∈ pool.performAll calls, P w := by
  induction calls generalizing pool with
  | nil => exact h
  | cons call calls ih => exact ih (forall_mem_perform (hf call.1) h call.2)

end Pool
end SentinelQuoting
