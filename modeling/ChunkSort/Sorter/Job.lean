import ChunkSort.Sorter.Basic
import ChunkSort.Sorter.Engine
import ChunkSort.Window

/-!
Jobs of a sorter, up to the sorted chunks that a merge starts from. A job numbers the chunks that it makes,
counts its merges and leases from a window of its own.
-/

namespace ChunkSort

structure JobState where
  /-- The number of the next chunk. -/
  next : Nat
  window : Window
  merges : Nat := 0

/-- A step of a job. A failed one keeps the state as well, so numbers are never given twice. -/
abbrev Job := EStateM SortError JobState

namespace Job

def takeNumber : Job Nat := modifyGet fun s => (s.next, { s with next := s.next + 1 })

def countMerge : Job Unit := modify fun s => { s with merges := s.merges + 1 }

def ofAttempt {σ α : Type} (a : Attempt σ α) : Job (α × σ) := do return (← ofExcept a.result, a.state)

def lease (n : Nat) : Job Unit := do
  let s ← get
  let window ← ofExcept ((s.window.lease n).mapError .contractViolation)
  set { s with window }

def releasing {α : Type} (n : Nat) (action : Job α) : Job α := do
  try action finally modify fun s => { s with window := s.window.release n }

def withLease {α : Type} (n : Nat) (action : Job α) : Job α := do
  lease n
  releasing n action

end Job

namespace Sorter

def newChunk (s : Sorter) : Job Chunk := do return s.layout.chunk (← Job.takeNumber)

def newDestination (s : Sorter) : Job Chunk := do return s.layout.destination (← Job.takeNumber)

def park (s : Sorter) (e : Engine) (c : Chunk) : Job Handle := do
  if s.spills then
    let (head, next) := e.head c (← get).next
    modify ({ · with next })
    match head with
    | .ok head => return .spilled c.spill head
    | .error cause => throw (.fault c.id none cause)
  else
    return .resident c

def settle (s : Sorter) (e : Engine) (c : Chunk) : Job Handle := do
  let (_, c) ← Job.withLease 1 (Job.ofAttempt (e.sort c))
  s.park e c

/-- Loads a batch from `offset` on, settling each chunk that gets full. The next chunk is numbered before the
full one is settled. Gives the settled chunks and the one that is still being loaded. -/
def loadBatch (s : Sorter) (e : Engine) (b : Batch) (offset : Nat) (c : Chunk) : Job (List Handle × Chunk) :=
  let attempt := e.load c b s.projection offset
  match h : attempt.result with
  | .error error => throw error
  | .ok outcome =>
    if hs : outcome.status = .success then
      return ([], attempt.state)
    else if he : attempt.state.isEmpty then
      throw (.contractViolation (.oversizedRow (offset + outcome.consumed) b.id.toNat))
    else do
      have := e.load_progress h hs he
      let number ← Job.takeNumber
      let settled ← s.settle e attempt.state
      let (more, last) ← s.loadBatch e b (offset + outcome.consumed) (s.layout.chunk number)
      return (settled :: more, last)
termination_by 2 * (b.rows - offset) + min c.rows 1
decreasing_by simpa [Layout.chunk, Chunk.empty] using this

def loadBatches (s : Sorter) (e : Engine) : List Batch → Chunk → Job (List Handle × Chunk)
  | [], c => return ([], c)
  | b :: bs, c => do
    let (settled, c) ← s.loadBatch e b 0 c
    let (more, last) ← s.loadBatches e bs c
    return (settled ++ more, last)

def ingest (s : Sorter) (e : Engine) (batches : List Batch) : Job (List Handle) := do
  let (settled, last) ← s.loadBatches e batches (← s.newChunk)
  if last.isEmpty then
    return settled
  else
    return settled ++ [← s.settle e last]

def chunkViolation? (s : Sorter) (c : Chunk) : Option Violation :=
  if c.schema ≠ s.layout.schema ∨ s.layout.capacity < c.rows then
    some (.foreignLayout c.id)
  else if c.status = .fault then
    some (.faultedChunk c.id)
  else
    none

def adopt (s : Sorter) (e : Engine) (chunks : List Chunk) : Job (List Handle) :=
  chunks.mapM fun c =>
    match s.chunkViolation? c with
    | some violation => throw (.contractViolation violation)
    | none => s.park e c

end Sorter
end ChunkSort
