import SentinelQuoting.Fault
import SentinelQuoting.Separators.Basic

/-! # Snapshots of the current separators

The value that gives the separators can be replaced at any time, and a growable one can be changed
in place. A pass must not see such a change half way, so it takes a *snapshot* first. Snapshots are
kept by the value they were taken of, so that equal values give one snapshot; being unset counts as
a value of its own. A snapshot never changes, and the number it carries is its place in the order
in which snapshots were made. -/

namespace SentinelQuoting
set_option autoImplicit false

/-- A set of separators that was current at some moment. -/
structure Snapshot where
  id : Nat
  separators : Separators
  deriving DecidableEq

/-- A snapshot with the value it was taken of. -/
structure Cached where
  key : Option Bytes
  snapshot : Snapshot
  deriving DecidableEq

/-- The current value, or none when it is unset, and the snapshots taken so far. -/
structure Source where
  value : Option Stored
  cache : List Cached

namespace Source

/-- A source with this value, of which no snapshot has been taken. -/
def ofValue (value : Option Stored) : Source := ⟨value, []⟩

/-- What snapshots are told apart by: the bytes of the value, however it is held. -/
def key (source : Source) : Option Bytes := source.value.map Stored.bytes

/-- The snapshot kept for a key. -/
def find? (source : Source) (key : Option Bytes) : Option Snapshot :=
  (source.cache.find? fun entry => entry.key == key).map Cached.snapshot

/-- The snapshot with this number. -/
def snapshot? (source : Source) (id : Nat) : Option Snapshot :=
  source.cache[id]?.map Cached.snapshot

/-- Replace the value. Snapshots stay. -/
def assign (source : Source) (value : Option Stored) : Source := { source with value }

/-- Change one byte of the value in place. Only a growable value allows it, and only inside. -/
def poke (source : Source) (index : Nat) (byte : UInt8) : Except Fault Source :=
  match source.value with
  | none => .error .unknownEntry
  | some ⟨.fixed, bytes⟩ => .error (.immutable bytes)
  | some ⟨.growable, bytes⟩ =>
    if index < bytes.length then
      .ok { source with value := some ⟨.growable, bytes.set index byte⟩ }
    else .error (.outOfRange .growable)

/-- The snapshot of the current value: the one kept for it, or else a new one, which is kept from
now on. -/
def current (source : Source) : Snapshot × Source :=
  match source.find? source.key with
  | some snapshot => (snapshot, source)
  | none =>
    let snapshot : Snapshot := ⟨source.cache.length, Separators.ofValue source.key⟩
    (snapshot, { source with cache := source.cache ++ [⟨source.key, snapshot⟩] })

end Source
end SentinelQuoting
