import SentinelQuoting.Word.Basic

/-! # Passes over lists of words

Words live in a *pool*, and a list of words is a list of places in the pool. A place may occur
several times, and then its word is visited several times: what an earlier visit did is what a
later one finds. A pass over a list changes words where they are, and never the list. -/

namespace SentinelQuoting
set_option autoImplicit false

/-- Words, each known by its place. -/
abbrev Pool := List Word

/-- What a pass over a list leaves: the words, the sink, and the fault that stopped it, if any. -/
structure Performance where
  pool : Pool
  sink : Sink
  fault : Option WriterFault

/-- A pass over the words at some places. -/
inductive Operation
  | encode (places : List Nat)
  | decode (places : List Nat)
  | decodeOne (place : Nat)
  | escape (ifs : Separators) (places : List Nat)
  | unescape (ifs : Separators) (places : List Nat)
  | dropNulls (places : List Nat)
  deriving DecidableEq

namespace Operation

/-- The places that an operation visits, in order. -/
def places : Operation → List Nat
  | .encode places => places
  | .decode places => places
  | .decodeOne place => [place]
  | .escape _ places => places
  | .unescape _ places => places
  | .dropNulls places => places

end Operation

namespace Pool

/-- Change the words at these places, one visit after the other. -/
def visit (f : Word → Word) (places : List Nat) (pool : Pool) : Pool :=
  places.foldl (fun words place => words.modify place f) pool

/-- Decode the words at these places, each with its report. A word changes once its report is made,
so a fault of the sink leaves it and all later visits undone. -/
def decode : List Nat → Pool → Sink → Performance
  | [], pool, sink => ⟨pool, sink, none⟩
  | place :: rest, pool, sink =>
    match pool[place]? with
    | none => decode rest pool sink
    | some w =>
      match w.decodeReporting sink with
      | .ok decoded sink => decode rest (pool.set place decoded) sink
      | .error fault sink => ⟨pool, sink, some fault⟩

/-- Perform an operation. Only decoding uses the sink. -/
def perform (operation : Operation) (pool : Pool) (sink : Sink) : Performance :=
  match operation with
  | .encode places => ⟨pool.visit Word.encode places, sink, none⟩
  | .decode places => pool.decode places sink
  | .decodeOne place => pool.decode [place] sink
  | .escape ifs places => ⟨pool.visit (Word.escape ifs) places, sink, none⟩
  | .unescape ifs places => ⟨pool.visit (Word.unescape ifs) places, sink, none⟩
  | .dropNulls places => ⟨pool.visit Word.dropNulls places, sink, none⟩

end Pool
end SentinelQuoting
