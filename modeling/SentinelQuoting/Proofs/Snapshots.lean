import Mathlib.Data.Finset.Card
import SentinelQuoting.Separators.Source

/-! # Snapshots over a whole run

The kept snapshots are a table with one row for each key, and a row carries the number of its place
and the separators that its key stands for (`Sound`). A request finds the row of the current key or
adds it at the end (`current_cases`); nothing else touches the table. So rows stay where they are,
and what a request was answered can be read off the table at any later time. -/
namespace SentinelQuoting
set_option autoImplicit false

/-- The separators that a value stands for: space, tab and newline when there is none. -/
def separatorBytes : Option Stored → Bytes
  | none => [0x20, 0x09, 0x0a]
  | some stored => stored.bytes

namespace Source

/-! ## Runs -/

/-- What can happen to a source. A buffer that was changed while another value was in force comes
back by being assigned as it is then. -/
inductive Action
  | assign (value : Option Stored)
  | poke (index : Nat) (byte : UInt8)
  | current

/-- The value after an action, without regard to snapshots. Only a growable value is changed in
place, and only inside. -/
def Action.onValue (value : Option Stored) : Action → Option Stored
  | .assign next => next
  | .poke index byte =>
    match value with
    | some ⟨.growable, bytes⟩ => some ⟨.growable, bytes.set index byte⟩
    | other => other
  | .current => value

/-- The values at the moments at which a snapshot is asked for, in order. -/
def valuesRead : List Action → Option Stored → List (Option Stored)
  | [], _ => []
  | .current :: rest, value => value :: valuesRead rest value
  | action :: rest, value => valuesRead rest (action.onValue value)

/-- The source after an action. A change in place that is refused changes nothing. -/
def act (source : Source) : Action → Source
  | .assign value => source.assign value
  | .poke index byte =>
    match source.poke index byte with
    | .ok changed => changed
    | .error _ => source
  | .current => source.current.2

def after (actions : List Action) (source : Source) : Source := actions.foldl act source

/-- A request for the current snapshot: the value at that moment, and the answer. -/
structure Request where
  value : Option Stored
  taken : Snapshot
  deriving DecidableEq

def Request.key (request : Request) : Option Bytes := request.value.map Stored.bytes

/-- The request that an action makes, if it makes one. -/
def requestOf (source : Source) : Action → List Request
  | .current => [⟨source.value, source.current.1⟩]
  | _ => []

/-- The requests of a run, in order. -/
def requests : List Action → Source → List Request
  | [], _ => []
  | action :: rest, source => source.requestOf action ++ requests rest (source.act action)

theorem value_act (source : Source) (action : Action) :
    (source.act action).value = action.onValue source.value := by
  cases action with
  | assign next => rfl
  | current =>
    unfold act current
    cases source.find? source.key <;> rfl
  | poke index byte =>
    unfold act poke Action.onValue
    rcases source with ⟨_ | ⟨_ | _, bytes⟩, cache⟩
    · rfl
    · rfl
    · by_cases h : index < bytes.length
      · simp [h]
      · simp [h, List.set_eq_of_length_le (Nat.le_of_not_lt h)]

theorem map_value_requests (source : Source) (actions : List Action) :
    (source.requests actions).map Request.value = valuesRead actions source.value := by
  induction actions generalizing source with
  | nil => rfl
  | cons action actions ih =>
    rw [requests, List.map_append, ih, value_act]
    cases action <;> rfl

/-! ## One request -/

def keys (source : Source) : List (Option Bytes) := source.cache.map Cached.key

theorem current_cases (source : Source) :
    (∃ snapshot, ⟨source.key, snapshot⟩ ∈ source.cache ∧ source.current = (snapshot, source)) ∨
    (source.key ∉ source.keys ∧
      source.current = (⟨source.cache.length, .ofValue source.key⟩,
        { source with cache := source.cache ++
          [⟨source.key, ⟨source.cache.length, .ofValue source.key⟩⟩] })) := by
  unfold current
  cases h : source.find? source.key with
  | some snapshot =>
    refine .inl ⟨snapshot, ?_, rfl⟩
    obtain ⟨entry, hentry, rfl⟩ := Option.map_eq_some_iff.mp h
    have hkey : entry.key = source.key := by simpa using List.find?_some hentry
    rw [← hkey]
    exact List.mem_of_find?_eq_some hentry
  | none =>
    refine .inr ⟨fun hmem => ?_, rfl⟩
    obtain ⟨entry, hentry, hkey⟩ := List.mem_map.mp hmem
    have hnone := List.find?_eq_none.mp (Option.map_eq_none_iff.mp h) entry hentry
    exact hnone (beq_iff_eq.mpr hkey)

/-- Only a request touches the kept snapshots, and all it does is to add one at the end. -/
theorem cache_act (source : Source) (action : Action) :
    (source.act action).cache = source.cache ∨
    (action = .current ∧ source.key ∉ source.keys ∧ (source.act action).cache =
      source.cache ++ [⟨source.key, ⟨source.cache.length, .ofValue source.key⟩⟩]) := by
  cases action with
  | assign value => exact .inl rfl
  | poke index byte =>
    refine .inl ?_
    unfold act poke
    rcases source with ⟨_ | ⟨_ | _, bytes⟩, cache⟩
    · rfl
    · rfl
    · by_cases h : index < bytes.length <;> simp [h]
  | current =>
    rcases source.current_cases with ⟨snapshot, -, hcurrent⟩ | ⟨hnew, hcurrent⟩
    · exact .inl (by rw [act, hcurrent])
    · exact .inr ⟨rfl, hnew, by rw [act, hcurrent]⟩

/-! ## The table -/

/-- Each row is numbered by its place and holds the separators of its key, and no key has two. -/
structure Sound (source : Source) : Prop where
  numbered : ∀ (i : Nat) (entry : Cached), source.cache[i]? = some entry →
    entry.snapshot = ⟨i, .ofValue entry.key⟩
  distinct : source.keys.Nodup

theorem sound_ofValue (value : Option Stored) : (ofValue value).Sound where
  numbered _ _ h := by simp [ofValue] at h
  distinct := List.nodup_nil

theorem Sound.act {source : Source} (h : source.Sound) (action : Action) :
    (source.act action).Sound := by
  rcases source.cache_act action with hcache | ⟨-, hnew, hcache⟩
  · exact ⟨by rw [hcache]; exact h.numbered, by rw [keys, hcache]; exact h.distinct⟩
  · refine ⟨fun i entry hi => ?_, ?_⟩
    · rw [hcache] at hi
      -- an old row, the new row, or none
      rcases Nat.lt_trichotomy i source.cache.length with hlt | rfl | hgt
      · rw [List.getElem?_append_left hlt] at hi
        exact h.numbered i entry hi
      · rw [List.getElem?_concat_length, Option.some_inj] at hi
        subst hi
        rfl
      · rw [List.getElem?_eq_none (by simp; omega)] at hi
        exact absurd hi (by simp)
    · rw [keys, hcache, List.map_append, List.map_singleton, ← List.concat_eq_append]
      exact h.distinct.concat hnew

theorem Sound.after {source : Source} (h : source.Sound) (actions : List Action) :
    (source.after actions).Sound := by
  induction actions generalizing source with
  | nil => exact h
  | cons action actions ih => exact ih (h.act action)

theorem cache_prefix_after (source : Source) (actions : List Action) :
    source.cache <+: (source.after actions).cache := by
  induction actions generalizing source with
  | nil => exact List.prefix_rfl
  | cons action actions ih =>
    refine List.IsPrefix.trans ?_ (ih (source.act action))
    rcases source.cache_act action with hcache | ⟨-, -, hcache⟩
    · rw [hcache]
    · rw [hcache]
      exact List.prefix_append _ _

section Row
variable {source : Source} (h : source.Sound) {entry : Cached} (hentry : entry ∈ source.cache)
include h hentry

theorem Sound.separators_eq : entry.snapshot.separators = .ofValue entry.key := by
  obtain ⟨i, hi⟩ := List.mem_iff_getElem?.mp hentry
  rw [h.numbered i entry hi]

theorem Sound.getElem?_id : source.cache[entry.snapshot.id]? = some entry := by
  obtain ⟨i, hi⟩ := List.mem_iff_getElem?.mp hentry
  rw [h.numbered i entry hi]
  exact hi

end Row

/-! ## The requests of a run -/

theorem mem_cache_of_mem_requests {source : Source} {actions : List Action} {r : Request}
    (h : r ∈ source.requests actions) : ⟨r.key, r.taken⟩ ∈ (source.after actions).cache := by
  induction actions generalizing source with
  | nil => simp [requests] at h
  | cons action actions ih =>
    rcases List.mem_append.mp h with hr | hr
    · apply ((source.act action).cache_prefix_after actions).subset
      cases action with
      | assign value => simp [requestOf] at hr
      | poke index byte => simp [requestOf] at hr
      | current =>
        obtain rfl : r = ⟨source.value, source.current.1⟩ := List.mem_singleton.mp hr
        rcases source.current_cases with ⟨snapshot, hmem, hcurrent⟩ | ⟨-, hcurrent⟩
        · rw [act, hcurrent]
          exact hmem
        · rw [act, hcurrent]
          exact List.mem_append_right _ (List.mem_singleton.mpr rfl)
    · exact ih hr

/-- The keys of the kept snapshots are those asked for. -/
theorem mem_keys_after (source : Source) (actions : List Action) (key : Option Bytes) :
    key ∈ (source.after actions).keys ↔
      key ∈ source.keys ∨ key ∈ (source.requests actions).map Request.key := by
  constructor
  · induction actions generalizing source with
    | nil => exact .inl
    | cons action actions ih =>
      intro h
      rw [requests, List.map_append, List.mem_append]
      rcases ih (source.act action) h with hkey | hkey
      · rcases source.cache_act action with hcache | ⟨rfl, -, hcache⟩
        · rw [keys, hcache] at hkey
          exact .inl hkey
        · rw [keys, hcache, List.map_append, List.mem_append] at hkey
          rcases hkey with hkey | hkey
          · exact .inl hkey
          · exact .inr (.inl hkey)
      · exact .inr (.inr hkey)
  · rintro (h | h)
    · exact ((source.cache_prefix_after actions).map Cached.key).subset h
    · obtain ⟨r, hr, rfl⟩ := List.mem_map.mp h
      exact List.mem_map.mpr ⟨_, mem_cache_of_mem_requests hr, rfl⟩

theorem bytes_ofValue (value : Option Stored) :
    (Separators.ofValue (value.map Stored.bytes)).bytes = separatorBytes value := by
  cases value <;> rfl

theorem containsCode_iff (ifs : Separators) (code : Int) :
    ifs.containsCode code = true ↔ ∃ b ∈ ifs.bytes, (b.toNat : Int) = code := by
  simp [Separators.containsCode]

section Answers
variable {source : Source} (h : source.Sound) {actions : List Action} {r s : Request}
include h

theorem Sound.bytes_of_mem_requests (hr : r ∈ source.requests actions) :
    r.taken.separators.bytes = separatorBytes r.value := by
  have hrow : r.taken.separators = .ofValue r.key :=
    (h.after actions).separators_eq (mem_cache_of_mem_requests hr)
  rw [hrow, Request.key, bytes_ofValue]

theorem Sound.id_eq_iff (hr : r ∈ source.requests actions) (hs : s ∈ source.requests actions) :
    r.taken.id = s.taken.id ↔ r.key = s.key := by
  have hrmem := mem_cache_of_mem_requests hr
  have hsmem := mem_cache_of_mem_requests hs
  constructor
  · intro hid
    have hrow : (source.after actions).cache[r.taken.id]? = some ⟨r.key, r.taken⟩ :=
      (h.after actions).getElem?_id hrmem
    have hsrow : (source.after actions).cache[s.taken.id]? = some ⟨s.key, s.taken⟩ :=
      (h.after actions).getElem?_id hsmem
    rw [hid, hsrow, Option.some_inj] at hrow
    exact (congrArg Cached.key hrow).symm
  · intro hkey
    have hrow := List.inj_on_of_nodup_map (h.after actions).distinct hrmem hsmem hkey
    exact congrArg (fun entry => entry.snapshot.id) hrow

theorem Sound.snapshot?_of_mem_requests (hr : r ∈ source.requests actions) (later : List Action) :
    ((source.after actions).after later).snapshot? r.taken.id = some r.taken := by
  have hmem : ⟨r.key, r.taken⟩ ∈ ((source.after actions).after later).cache :=
    ((source.after actions).cache_prefix_after later).subset (mem_cache_of_mem_requests hr)
  have hrow := ((h.after actions).after later).getElem?_id hmem
  rw [snapshot?, hrow]
  rfl

end Answers

/-- After any run of a source: every request was answered with the separators of the value at that
moment; two answers are the same snapshot exactly when both values were unset or both had the same
bytes, so that being unset and having the standard bytes are told apart; no answer is changed by
what happens later; and there are as many snapshots as there were different values. -/
theorem requests_coherent (value : Option Stored) (actions : List Action) :
    let source := ofValue value
    let last := source.after actions
    (source.requests actions).map Request.value = valuesRead actions value ∧
    (∀ r ∈ source.requests actions,
      r.taken.separators.bytes = separatorBytes r.value ∧
      (∀ code : Int, r.taken.separators.containsCode code = true ↔
        ∃ b ∈ separatorBytes r.value, (b.toNat : Int) = code) ∧
      (∀ b : UInt8, r.taken.separators.contains b = true ↔ b ∈ separatorBytes r.value) ∧
      (r.taken.separators.isEmpty = true ↔ separatorBytes r.value = [])) ∧
    (∀ r ∈ source.requests actions, ∀ s ∈ source.requests actions,
      (r.taken.id = s.taken.id ↔ r.value.map Stored.bytes = s.value.map Stored.bytes) ∧
      (r.value = none → s.value.map Stored.bytes = some (separatorBytes none) →
        r.taken.id ≠ s.taken.id ∧ r.taken.separators.bytes = s.taken.separators.bytes)) ∧
    (∀ r ∈ source.requests actions, ∀ later : List Action,
      (last.after later).snapshot? r.taken.id = some r.taken) ∧
    last.cache.length = ((source.requests actions).map Request.key).toFinset.card := by
  intro source last
  have h : source.Sound := sound_ofValue value
  refine ⟨source.map_value_requests actions, fun r hr => ?_,
    fun r hr s hs => ⟨h.id_eq_iff hr hs, fun hnone hstandard => ?_⟩,
    fun r hr later => h.snapshot?_of_mem_requests hr later, ?_⟩
  · rw [← h.bytes_of_mem_requests hr]
    exact ⟨rfl, containsCode_iff r.taken.separators, Separators.contains_iff r.taken.separators,
      Separators.isEmpty_iff r.taken.separators⟩
  · refine ⟨fun hid => ?_, ?_⟩
    · have hkey : r.value.map Stored.bytes = s.value.map Stored.bytes := (h.id_eq_iff hr hs).mp hid
      rw [hnone, hstandard] at hkey
      exact absurd hkey (by simp)
    · obtain ⟨stored, hstored, hbytes⟩ := Option.map_eq_some_iff.mp hstandard
      rw [h.bytes_of_mem_requests hr, h.bytes_of_mem_requests hs, hnone, hstored]
      exact hbytes.symm
  · have hkeys : last.keys.toFinset = ((source.requests actions).map Request.key).toFinset := by
      ext key
      rw [List.mem_toFinset, List.mem_toFinset, mem_keys_after]
      simp [source, keys, ofValue]
    rw [← hkeys, List.toFinset_card_of_nodup (h.after actions).distinct, keys, List.length_map]

/-- Unset, the standard bytes in a buffer, the buffer after a change in place, unset again, and the
bytes of the changed buffer in a fixed value. -/
theorem requests_coherent_poked :
    let source := ofValue none
    let actions : List Action := [.current, .assign (some ⟨.growable, [0x20, 0x09, 0x0a]⟩), .current,
      .poke 0 0x3a, .current, .assign none, .current, .assign (some ⟨.fixed, [0x3a, 0x09, 0x0a]⟩),
      .current]
    let unset : Request := ⟨none, ⟨0, .standard⟩⟩
    let explicit : Request := ⟨some ⟨.growable, [0x20, 0x09, 0x0a]⟩, ⟨1, .standard⟩⟩
    let poked : Request := ⟨some ⟨.growable, [0x3a, 0x09, 0x0a]⟩, ⟨2, ⟨[0x3a, 0x09, 0x0a]⟩⟩⟩
    let fixed : Request := ⟨some ⟨.fixed, [0x3a, 0x09, 0x0a]⟩, ⟨2, ⟨[0x3a, 0x09, 0x0a]⟩⟩⟩
    source.requests actions = [unset, explicit, poked, unset, fixed] ∧
    (∀ b : UInt8, poked.taken.separators.contains b = true ↔ b ∈ separatorBytes poked.value) ∧
    unset.taken.id ≠ explicit.taken.id ∧ poked.taken.id = fixed.taken.id ∧
    (∀ later, ((source.after actions).after later).snapshot? 1 = some explicit.taken) ∧
    (source.after actions).cache.length =
      ([unset, explicit, poked, unset, fixed].map Request.key).toFinset.card := by
  intro source actions unset explicit poked fixed
  have hrequests : source.requests actions = [unset, explicit, poked, unset, fixed] := by decide
  have hmem : ∀ r ∈ [unset, explicit, poked, unset, fixed], r ∈ source.requests actions := by
    rw [hrequests]
    exact fun r hr => hr
  obtain ⟨-, hanswers, hsame, hkept, hcount⟩ := requests_coherent none actions
  refine ⟨hrequests, (hanswers poked (hmem poked (by simp))).2.2.1, ?_, ?_, ?_, ?_⟩
  · exact ((hsame unset (hmem unset (by simp)) explicit (hmem explicit (by simp))).2 rfl rfl).1
  · exact (hsame poked (hmem poked (by simp)) fixed (hmem fixed (by simp))).1.mpr rfl
  · exact hkept explicit (hmem explicit (by simp))
  · rw [← hrequests]
    exact hcount

end Source
end SentinelQuoting
