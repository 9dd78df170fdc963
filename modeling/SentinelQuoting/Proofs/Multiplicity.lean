import SentinelQuoting.Proofs.Reports
import SentinelQuoting.Session.Run

/-! # How often a word is listed

A visit changes one word, and what it does depends on that word alone. So visits of different words
can change places, and only the number of visits of each word shows in the result. The same goes for
the reports of a pass that no sink can stop: they are all the same line, so an order of the visits
shows in neither the words nor the events. A sink that fails is another matter, for what it stops is
the rest of the list. -/
namespace SentinelQuoting
set_option autoImplicit false

/-! ## Sinks that never fail -/

namespace Sink

/-- No call of the sink ever fails. -/
def Reliable : Sink → Prop
  | .silent => True
  | .writer w => ∀ n, w.failsWrite n = false ∧ w.failsFlush n = false

/-- The sink once `n` more lines have gone through. -/
def afterLines (n : Nat) : Sink → Sink
  | .silent => .silent
  | .writer w => .writer (w.afterLines n)

theorem afterLines_zero (sink : Sink) : sink.afterLines 0 = sink := by
  cases sink with
  | silent => rfl
  | writer w => rw [afterLines, Writer.afterLines_zero]

theorem afterLines_afterLines (sink : Sink) (m n : Nat) :
    (sink.afterLines m).afterLines n = sink.afterLines (m + n) := by
  cases sink with
  | silent => rfl
  | writer w =>
    simp [afterLines, Writer.afterLines, ← List.replicate_append_replicate, Nat.add_assoc]

theorem Reliable.afterLines {sink : Sink} (h : sink.Reliable) (n : Nat) :
    (sink.afterLines n).Reliable := by
  cases sink with
  | silent => trivial
  | writer w => exact h

end Sink

/-- How many lines a text is reported with. -/
def Full.linesOf (s : Bytes) : Nat := if s = bareEscape then 1 else 0

theorem Full.report_of_reliable {sink : Sink} (h : sink.Reliable) (s : Bytes) :
    report s sink = .ok () (sink.afterLines (linesOf s)) := by
  by_cases hs : s = bareEscape
  · subst hs
    cases sink with
    | silent => exact report_silent bareEscape
    | writer w =>
      have hfault : w.faultAfter 0 = none := by
        simp [Writer.faultAfter, (h _).1, (h _).2]
      rw [report_bareEscape, hfault]
      rfl
  · rw [linesOf, if_neg hs, Sink.afterLines_zero, report_of_ne hs]

/-- The sink cannot stop the operation: only decoding uses it, and then it never fails. -/
def Operation.Unstoppable (operation : Operation) (sink : Sink) : Prop :=
  operation.decodes = true → sink.Reliable

theorem Operation.Unstoppable.on {operation : Operation} {sink : Sink}
    (h : operation.Unstoppable sink) (places : List Nat) :
    (operation.on places).Unstoppable sink := by
  unfold Operation.Unstoppable
  rwa [operation.decodes_on]

namespace Pool

/-! ## Visits that change places -/

theorem modify_modify_comm (f : Word → Word) (pool : Pool) (i j : Nat) :
    (pool.modify i f).modify j f = (pool.modify j f).modify i f := by
  apply List.ext_getElem?
  intro k
  simp only [getElem?_modify_eq, Option.map_map]
  congr 1
  funext w
  by_cases hi : i = k
  · by_cases hj : j = k
    · simp [hi, hj]
    · simp [hi, hj]
  · simp [hi]

theorem textAt_modify_of_ne (f : Word → Word) (pool : Pool) {i j : Nat} (h : i ≠ j) :
    textAt (pool.modify i f) j = pool.textAt j := by
  rw [textAt, textAt, getElem?_modify_eq, Option.map_map]
  simp [h, Function.comp_def]

/-- The words and the sink after one more word has been decoded, when the sink takes every line. -/
def decodeVisit (state : Pool × Sink) (place : Nat) : Pool × Sink :=
  (state.1.modify place Word.decode, state.2.afterLines (Full.linesOf (state.1.textAt place)))

theorem decodeVisit_comm (state : Pool × Sink) (i j : Nat) :
    decodeVisit (decodeVisit state i) j = decodeVisit (decodeVisit state j) i := by
  by_cases h : i = j
  · rw [h]
  · -- neither visit changes the text that the other finds, and both add the same kind of line
    simp only [decodeVisit, modify_modify_comm, textAt_modify_of_ne _ _ h,
      textAt_modify_of_ne _ _ (Ne.symm h), Sink.afterLines_afterLines, Nat.add_comm]

theorem decode_of_reliable {sink : Sink} (h : sink.Reliable) (places : List Nat) (pool : Pool) :
    pool.decode places sink =
      ⟨(places.foldl decodeVisit (pool, sink)).1, (places.foldl decodeVisit (pool, sink)).2,
        none⟩ := by
  induction places generalizing pool sink with
  | nil => rfl
  | cons place places ih =>
    rw [decode_cons_of_report (Full.report_of_reliable h _), ih (h.afterLines _)]
    rfl

theorem decode_perm {a b : List Nat} (hperm : a.Perm b) {sink : Sink} (h : sink.Reliable)
    (pool : Pool) : pool.decode a sink = pool.decode b sink := by
  have hfold : a.foldl decodeVisit (pool, sink) = b.foldl decodeVisit (pool, sink) :=
    hperm.foldl_eq' (fun i _ j _ state => decodeVisit_comm state i j) (pool, sink)
  rw [decode_of_reliable h, decode_of_reliable h, hfold]

theorem visit_perm (f : Word → Word) {a b : List Nat} (hperm : a.Perm b) (pool : Pool) :
    pool.visit f a = pool.visit f b :=
  hperm.foldl_eq' (fun i _ j _ words => modify_modify_comm f words i j) pool

theorem perform_perm {a b : List Nat} (hperm : a.Perm b) {operation : Operation} {sink : Sink}
    (h : operation.Unstoppable sink) (pool : Pool) :
    pool.perform (operation.on a) sink = pool.perform (operation.on b) sink := by
  cases hd : operation.decodes with
  | true =>
    rw [perform_on_of_decodes hd, perform_on_of_decodes hd]
    exact decode_perm hperm (h hd) pool
  | false =>
    rw [perform_on_of_not_decodes hd, perform_on_of_not_decodes hd, visit_perm _ hperm]

/-! ## Passes that nothing stops -/

theorem fault_perform {operation : Operation} {sink : Sink} (h : operation.Unstoppable sink)
    (pool : Pool) : (pool.perform operation sink).fault = none := by
  rw [← perform_on_places]
  cases hd : operation.decodes with
  | true => rw [perform_on_of_decodes hd, decode_of_reliable (h hd)]
  | false => rw [perform_on_of_not_decodes hd]

theorem getElem?_performAll_on {operation : Operation} {sink : Sink}
    (h : operation.Unstoppable sink) (pool : Pool) (i k : Nat) :
    (pool.performAll (List.replicate k (operation.on [i], sink)))[i]? =
      pool[i]?.map operation.change^[k] := by
  rw [getElem?_performAll_replicate (fault_perform (h.on [i])), operation.change_on,
    operation.places_on, List.count_singleton_self, Nat.one_mul]

end Pool

/-! ## The lists of a session -/

namespace Session

/-- The step leaves all lists as they are, also when it fails. -/
def KeepsLists {α : Type} (x : Serving α) : Prop :=
  ∀ session, match x session with
    | .ok _ after => after.lists = session.lists
    | .error _ after => after.lists = session.lists

theorem keepsLists_pure {α : Type} (a : α) : KeepsLists (pure a) := fun _ => rfl

theorem KeepsLists.bind {α β : Type} {x : Serving α} {f : α → Serving β} (hx : KeepsLists x)
    (hf : ∀ a, KeepsLists (f a)) : KeepsLists (x >>= f) := by
  intro session
  have hfirst := hx session
  simp only [Bind.bind, EStateM.bind]
  cases hs : x session with
  | error fault after =>
    rw [hs] at hfirst
    exact hfirst
  | ok a after =>
    rw [hs] at hfirst
    have hsecond := hf a after
    dsimp only at hfirst ⊢
    cases ht : f a after with
    | ok b last =>
      rw [ht] at hsecond
      exact hsecond.trans hfirst
    | error fault last =>
      rw [ht] at hsecond
      exact hsecond.trans hfirst

theorem keepsLists_get : KeepsLists (get : Serving Session) := fun _ => rfl

theorem keepsLists_entry {α : Type} (entries : List α) (i : Nat) :
    KeepsLists (entry entries i) := by
  unfold entry
  cases entries[i]? with
  | none => exact fun _ => rfl
  | some x => exact keepsLists_pure x

theorem keepsLists_placesOf (list : Nat) : KeepsLists (placesOf list) :=
  keepsLists_get.bind fun session => keepsLists_entry session.lists list

theorem keepsLists_separators (snapshot : Nat) : KeepsLists (separators snapshot) := by
  refine keepsLists_get.bind fun session => ?_
  cases session.source.snapshot? snapshot with
  | none => exact fun _ => rfl
  | some taken => exact keepsLists_pure taken.separators

theorem keepsLists_perform (operation : Operation) : KeepsLists (perform operation) := by
  intro session
  unfold perform
  dsimp only
  cases (session.pool.perform operation session.sink).fault <;> rfl

theorem keepsLists_performSilently (operation : Operation) :
    KeepsLists (performSilently operation) := fun _ => rfl

theorem keepsLists_passOverList (list : Nat) (pass : ListPass) :
    KeepsLists (passOverList list pass) := by
  refine (keepsLists_placesOf list).bind fun places => ?_
  cases pass with
  | encode => exact (keepsLists_perform _).bind fun _ => keepsLists_pure _
  | decode reported =>
    cases reported with
    | true => exact (keepsLists_perform _).bind fun _ => keepsLists_pure _
    | false => exact (keepsLists_performSilently _).bind fun _ => keepsLists_pure _
  | escape snapshot =>
    exact (keepsLists_separators snapshot).bind fun _ =>
      (keepsLists_perform _).bind fun _ => keepsLists_pure _
  | unescape snapshot =>
    exact (keepsLists_separators snapshot).bind fun _ =>
      (keepsLists_perform _).bind fun _ => keepsLists_pure _
  | dropNulls => exact (keepsLists_perform _).bind fun _ => keepsLists_pure _

theorem lists_serve_onList (session : Session) (list : Nat) (pass : ListPass) :
    (serve (.onList list pass) session).2.lists = session.lists := by
  have h := keepsLists_passOverList list pass session
  unfold serve step
  cases hs : passOverList list pass session with
  | ok reply after =>
    rw [hs] at h
    simp only [hs]
    exact h
  | error fault after =>
    rw [hs] at h
    simp only [hs]
    exact h

end Session

namespace Pool

/-- A pass that nothing stops changes each word as often as it is listed, which is what as many
passes over this word alone do. A word that is not listed and the lists stay as they are. So the
order of a list shows neither in the words nor in what the sink gets. -/
theorem perform_multiplicity :
    (∀ (operation : Operation) (pool : Pool) (sink : Sink), operation.Unstoppable sink →
      (pool.perform operation sink).fault = none ∧
      (pool.perform operation sink).pool.length = pool.length ∧
      ∀ i : Nat,
        (pool.perform operation sink).pool[i]? =
          pool[i]?.map operation.change^[operation.places.count i] ∧
        (pool.perform operation sink).pool[i]? =
          (pool.performAll
            (List.replicate (operation.places.count i) (operation.on [i], sink)))[i]? ∧
        (i ∉ operation.places → (pool.perform operation sink).pool[i]? = pool[i]?)) ∧
    (∀ (session : Session) (list : Nat) (pass : ListPass),
      (Session.serve (.onList list pass) session).2.lists = session.lists) ∧
    ∀ (operation : Operation) (a b : List Nat), a.Perm b → ∀ (pool : Pool) (sink : Sink),
      operation.Unstoppable sink →
        pool.perform (operation.on a) sink = pool.perform (operation.on b) sink := by
  refine ⟨fun operation pool sink h => ?_, Session.lists_serve_onList,
    fun operation a b hperm pool sink h => perform_perm hperm h pool⟩
  have hfault := fault_perform h pool
  have hwords := getElem?_perform hfault
  refine ⟨hfault, length_perform operation pool sink, fun i => ⟨hwords i, ?_, fun hi => ?_⟩⟩
  · rw [hwords, getElem?_performAll_on h]
  · rw [hwords, List.count_eq_zero_of_not_mem hi]
    simp

/-- Three words in two orders, one of them a mark alone from its second visit on, and a fourth that
is not listed. -/
theorem perform_multiplicity_repeated :
    let pool : Pool := [⟨[escapeMark, escapeMark], ⟨4⟩⟩, ⟨[escapeMark], ⟨1⟩⟩, ⟨quotedNull, ⟨2⟩⟩,
      ⟨[escapeMark, nullMark], ⟨3⟩⟩]
    let places := [0, 0, 2, 1, 0]
    let sink : Sink := .writer (.fresh false (fun _ => false) fun _ => false)
    (Operation.decode places).Unstoppable sink ∧
    (pool.perform (.decode places) sink).pool[0]? = some ⟨[escapeMark], ⟨4⟩⟩ ∧
    (pool.perform (.decode places) sink).pool[0]? =
      (pool.performAll (List.replicate 3 (.decode [0], sink)))[0]? ∧
    3 ∉ places ∧ (pool.perform (.decode places) sink).pool[3]? = pool[3]? ∧
    places.Perm [1, 0, 2, 0, 0] ∧
    pool.perform (.decode places) sink = pool.perform (.decode [1, 0, 2, 0, 0]) sink ∧
    (pool.perform (.decode places) sink).sink.transcript =
      [.write reportLine, .flush, .write reportLine, .flush, .write reportLine, .flush] := by
  intro pool places sink
  have hsink : (Operation.decode places).Unstoppable sink := fun _ _ => ⟨rfl, rfl⟩
  have hperm : places.Perm [1, 0, 2, 0, 0] := by decide
  have hunlisted : 3 ∉ places := by decide
  obtain ⟨-, -, hwords⟩ := perform_multiplicity.1 (.decode places) pool sink hsink
  refine ⟨hsink, ?_, ?_, hunlisted, ?_, hperm, ?_, by decide⟩
  · exact (hwords 0).1.trans (by decide)
  · exact (hwords 0).2.1
  · exact (hwords 3).2.2 hunlisted
  · exact perform_multiplicity.2.2 (.decode places) places _ hperm pool sink hsink

end Pool
end SentinelQuoting
