import IsaLogic.Engine.Basic

/-!
# What engines remember

Two things are remembered between questions. A cache belongs to one engine: it
keeps answers by the fingerprint of the formula asked about, and counts how often
it could help. Notes belong to a tree, that is, to a formula that a caller holds
on to, and outlast the engine that made them. A tree built anew has no notes,
whatever its formula, except that there is one tree for each register width.

Notes hold only what is the same for every engine, or what the first one chose.
-/

namespace IsaLogic

/-- The answers an engine has given, by fingerprint. -/
structure Cache where
  verdicts : List (Bytes × Bool) := []
  minimized : List ((Bytes × TwoLevel) × Formula) := []
  cores : List (Bytes × List Formula) := []
  hits : Nat := 0
  misses : Nat := 0
deriving Inhabited

namespace Cache

/-- The number of answers. -/
def entries (cache : Cache) : Nat :=
  cache.verdicts.length + cache.minimized.length + cache.cores.length

end Cache

/-- What the notes of a tree are found by. -/
inductive NoteKey where
  /-- A tree that a caller holds. -/
  | held (number : Nat)
  /-- The one tree of a register width. -/
  | xlen (width : Xlen)
deriving DecidableEq

/-- A formula that a caller may hold on to. Without a key, nothing is noted of it. -/
structure Tree where
  formula : Formula
  key : Option NoteKey

namespace Tree

/-- A tree that nobody holds on to. -/
def passing (formula : Formula) : Tree where
  formula
  key := match formula with
    | .atom (.xlen width) => some (.xlen width)
    | _ => none

end Tree

/-- What is noted of a tree. -/
structure Notes where
  /-- Whether it is satisfiable, found by enumeration. -/
  verdict : Option Bool := none
  /-- A conjunctive form that is satisfiable in the same cases. -/
  cnf : Option Tree := none

/-- Everything that is remembered. -/
structure Memory where
  cache : Cache := {}
  notes : List (NoteKey × Notes) := []
  /-- The number of the next synthetic variable. Numbers are given out one by one, so those of any
  run stay below `2 ^ 64` and never come round to zero. -/
  nextFree : Nat := 0
  /-- The number of the next tree to be held. -/
  nextTree : Nat := 0

/-- A question to an engine: it may fail, and it may remember something even then. -/
abbrev Query := ExceptT QueryError (StateM Memory)

namespace Query

/-- A synthetic-variable counter as part of the memory. -/
def numbering {α : Type} (build : Nat → α × Nat) : Query α :=
  modifyGet fun memory =>
    let (result, next) := build memory.nextFree
    (result, { memory with nextFree := next })

/-- Hold on to a formula. -/
def hold (formula : Formula) : Query Tree :=
  modifyGet fun memory =>
    match formula with
    | .atom (.xlen width) => ({ formula, key := some (.xlen width) }, memory)
    | _ =>
      ({ formula, key := some (.held memory.nextTree) },
        { memory with nextTree := memory.nextTree + 1 })

/-- What is noted of a tree. -/
def notes (tree : Tree) : Query Notes := do
  let memory ← get
  return (tree.key.bind fun key => lookup? key memory.notes).getD {}

/-- Change the notes of a tree. -/
def note (tree : Tree) (change : Notes → Notes) : Query Unit :=
  modify fun memory =>
    match tree.key with
    | none => memory
    | some key =>
      let old := (lookup? key memory.notes).getD {}
      { memory with notes := (key, change old) :: memory.notes.filter fun entry => entry.1 != key }

/-- Answer from the cache, or else find the answer and store it. Only an answer is
stored, never an error. -/
def remembering {κ α : Type} [BEq κ] (table : Cache → List (κ × α))
    (extend : Cache → κ × α → Cache) (key : κ) (find : Query α) : Query α := do
  match lookup? key (table (← get).cache) with
  | some answer =>
    modify fun memory =>
      { memory with cache := { memory.cache with hits := memory.cache.hits + 1 } }
    return answer
  | none =>
    modify fun memory =>
      { memory with cache := { memory.cache with misses := memory.cache.misses + 1 } }
    let answer ← find
    modify fun memory => { memory with cache := extend memory.cache (key, answer) }
    return answer

/-- Forget all answers and counts of the cache. -/
def reset : Query Unit := modify fun memory => { memory with cache := {} }

end Query

end IsaLogic
