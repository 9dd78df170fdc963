import SentinelQuoting.Diagnostics.Call
import SentinelQuoting.Session.Command

/-! # Sessions

A session holds a pool of words, lists over it, buffers, the source of the separators and the sink
for diagnostics. Commands change it one after the other. A command that fails keeps what it did
before it failed, and the session goes on. -/

namespace SentinelQuoting
set_option autoImplicit false

/-- Everything that commands can see and change. -/
structure Session where
  pool : Pool
  lists : List (List Nat)
  buffers : List Bytes
  source : Source
  sink : Sink

/-- A step of a session, which may fail. What it did before it failed stays done. -/
abbrev Serving := EStateM Fault Session

namespace Session

/-! ## Looking things up -/

/-- The entry with this number. -/
def entry {α : Type} (entries : List α) (i : Nat) : Serving α :=
  match entries[i]? with
  | some x => pure x
  | none => throw .unknownEntry

/-- The word with this number. -/
def word (i : Nat) : Serving Word := do entry (← get).pool i

/-- The places in the list with this number. -/
def placesOf (list : Nat) : Serving (List Nat) := do entry (← get).lists list

/-- The buffer with this number. -/
def buffer (i : Nat) : Serving Bytes := do entry (← get).buffers i

/-- The separators of the snapshot with this number. -/
def separators (snapshot : Nat) : Serving Separators := do
  match (← get).source.snapshot? snapshot with
  | some taken => return taken.separators
  | none => throw .unknownEntry

/-! ## Changing things -/

/-- Replace the word with this number. -/
def putWord (i : Nat) (w : Word) : Serving Unit :=
  modify fun session => { session with pool := session.pool.set i w }

/-- Add a word to the pool. -/
def addWord (w : Word) : Serving Unit :=
  modify fun session => { session with pool := session.pool ++ [w] }

/-- Replace the content of the buffer with this number. -/
def putBuffer (i : Nat) (s : Bytes) : Serving Unit :=
  modify fun session => { session with buffers := session.buffers.set i s }

/-- Make a pass inside the buffer with this number. The answer is that it is still the same
buffer. -/
def passInBuffer (i : Nat) (pass : Pass) (ifs : Separators) : Serving Reply := do
  match (⟨.growable, ← buffer i⟩ : Stored).applyInPlace pass ifs with
  | .ok s =>
    putBuffer i s.bytes
    return .truth true
  | .error fault => throw fault

/-- Perform an operation on the pool, with reports to the sink of the session. -/
def perform (operation : Operation) : Serving Unit := fun session =>
  let after := session.pool.perform operation session.sink
  let session := { session with pool := after.pool, sink := after.sink }
  match after.fault with
  | none => .ok () session
  | some fault => .error (.writer fault) session

/-- Perform an operation on the pool without any reports. -/
def performSilently (operation : Operation) : Serving Unit :=
  modify fun session => { session with pool := (session.pool.perform operation .silent).pool }

/-- Make a pass over a list of words. The answer is the words in it, except that removing the null
marks answers nothing. -/
def passOverList (list : Nat) (pass : ListPass) : Serving Reply := do
  let places ← placesOf list
  match pass with
  | .encode => perform (.encode places)
  | .decode true => perform (.decode places)
  | .decode false => performSilently (.decode places)
  | .escape snapshot => perform (.escape (← separators snapshot) places)
  | .unescape snapshot => perform (.unescape (← separators snapshot) places)
  | .dropNulls => perform (.dropNulls places)
  return if pass = .dropNulls then .done else .words places

/-! ## Commands -/

/-- Carry out a command. -/
def step : Command → Serving Reply
  | .assign value => do
    modify fun session => { session with source := session.source.assign value }
    return .done
  | .poke index byte => do
    match (← get).source.poke index byte with
    | .ok source =>
      modify fun session => { session with source }
      return .done
    | .error fault => throw fault
  | .current => do
    let (taken, source) := (← get).source.current
    modify fun session => { session with source }
    return .snapshot taken source.cache.length
  | .describeSeparators snapshot => do
    return .text (← separators snapshot).describe
  | .isSeparator snapshot code => do
    return .truth ((← separators snapshot).containsCode code)
  | .onList list pass => passOverList list pass
  | .decodeWord i => do
    let _ ← word i
    perform (.decodeOne i)
    return .words [i]
  | .append list i => do
    let places ← placesOf list
    let _ ← word i
    modify fun session => { session with lists := session.lists.set list (places ++ [i]) }
    return .done
  | .newWord text flags => do
    addWord ⟨text, flags⟩
    return .done
  | .newByteWord code flags => do
    match Full.encodeCode code with
    | .ok text =>
      addWord ⟨text, flags⟩
      return .done
    | .error fault => throw fault
  | .hasFlag i mask => do
    return .truth ((← word i).hasFlag mask)
  | .setFlag i mask => do
    putWord i ((← word i).setFlag mask)
    return .done
  | .clearFlag i mask => do
    putWord i ((← word i).clearFlag mask)
    return .done
  | .describeWord i => do
    return .text (← word i).describe
  | .onText i pass snapshot => do
    putWord i ((← word i).apply pass (← separators snapshot))
    return .done
  | .extend i data => do
    putBuffer i ((← buffer i) ++ data)
    return .done
  | .compactBuffer i => passInBuffer i .dropNulls .standard
  | .unescapeBuffer i snapshot => do
    passInBuffer i .unescape (← separators snapshot)

/-! ## Runs -/

/-- What can be seen after a command: its answer or fault, all words and buffers, and what the sink
did. -/
structure Report where
  outcome : Except Fault Reply
  pool : Pool
  buffers : List Bytes
  events : List Event

/-- The answer or fault of a command, and the session after it. -/
def serve (command : Command) (session : Session) : Except Fault Reply × Session :=
  match step command session with
  | .ok reply after => (.ok reply, after)
  | .error fault after => (.error fault, after)

/-- Carry out commands in order, whether or not they fail. -/
def run : List Command → Session → List Report
  | [], _ => []
  | command :: rest, session =>
    let (outcome, after) := serve command session
    ⟨outcome, after.pool, after.buffers, after.sink.since session.sink⟩ :: run rest after

end Session
end SentinelQuoting
