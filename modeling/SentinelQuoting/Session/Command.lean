import SentinelQuoting.Separators.Source
import SentinelQuoting.Word.Pool

/-! # Commands of a session

Commands name words, lists, buffers and snapshots by their numbers, counted from 0. -/

namespace SentinelQuoting
set_option autoImplicit false

/-- A pass over a list of words, as a command asks for it. -/
inductive ListPass
  | encode
  /-- Decode, with reports to the sink of the session or to none. -/
  | decode (reported : Bool)
  | escape (snapshot : Nat)
  | unescape (snapshot : Nat)
  | dropNulls
  deriving DecidableEq

/-- Something that a session can be asked. -/
inductive Command
  /-- Replace the value that gives the separators. -/
  | assign (value : Option Stored)
  /-- Change one byte of that value in place. -/
  | poke (index : Nat) (byte : UInt8)
  /-- Take a snapshot of the separators. -/
  | current
  | describeSeparators (snapshot : Nat)
  | isSeparator (snapshot : Nat) (code : Int)
  /-- Make a pass over a list of words. -/
  | onList (list : Nat) (pass : ListPass)
  /-- Decode one word, with a report to the sink. -/
  | decodeWord (word : Nat)
  /-- Add a word of the pool to a list. -/
  | append (list word : Nat)
  /-- Add a word to the pool. -/
  | newWord (text : Bytes) (flags : Flags)
  /-- Add a word to the pool whose text is the full encoding of one byte. -/
  | newByteWord (code : Int) (flags : Flags)
  | hasFlag (word : Nat) (mask : Flags)
  | setFlag (word : Nat) (mask : Flags)
  | clearFlag (word : Nat) (mask : Flags)
  | describeWord (word : Nat)
  /-- Make a pass over the text of a word, and leave its flags. -/
  | onText (word : Nat) (pass : Pass) (snapshot : Nat)
  /-- Add bytes at the end of a buffer. -/
  | extend (buffer : Nat) (data : Bytes)
  /-- Remove the null marks inside a buffer. -/
  | compactBuffer (buffer : Nat)
  /-- Decode the selective encoding inside a buffer. -/
  | unescapeBuffer (buffer snapshot : Nat)
  deriving DecidableEq

/-- The answer to a command. -/
inductive Reply
  | done
  | truth (value : Bool)
  | text (value : String)
  /-- Words of the pool, by their numbers. -/
  | words (places : List Nat)
  /-- A snapshot, and how many are kept now. -/
  | snapshot (taken : Snapshot) (kept : Nat)
  deriving DecidableEq

end SentinelQuoting
