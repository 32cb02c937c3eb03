import ChunkSort.Chunk.Load
import ChunkSort.Chunk.Merge
import ChunkSort.Spill.SpilledChunk

/-!
The chunks of a job, and the operations of a job that read or write rows. All that a comparator can do to a
job goes through these operations.
-/

namespace ChunkSort

inductive Handle where
  | resident (chunk : Chunk)
  | spilled (file : SpilledChunk) (head : Option Chunk)

namespace Handle

def rows : Handle → Nat
  | resident chunk => chunk.rows
  | spilled file _ => file.rows

def isSpilled : Handle → Bool
  | resident _ => false
  | spilled _ _ => true

def chunkId : Handle → Nat
  | resident chunk => chunk.id
  | spilled file _ => file.id

def first? : Handle → Option Record
  | resident chunk => chunk.first?
  | spilled _ head => head.bind Chunk.first?

def load : Handle → Chunk
  | resident chunk => chunk
  | spilled file _ => file.restore

/-- The order of two chunks by their first records. The row slot of a copied record says nothing about its
chunk, so a fault leaves it out. -/
def compareFirst (cmp : Comparator) (a b : Handle) : Except SortError Ordering :=
  match a.first?, b.first? with
  | some ra, some rb =>
    (cmp ra rb).mapError fun cause =>
      let (handle, record) := if cmp.chargesRight ra rb then (b, rb) else (a, ra)
      .fault handle.chunkId (if handle.isSpilled then none else some record.slot) cause
  | _, _ => .ok .eq

end Handle

structure Engine where
  load : Chunk → Batch → Option (List Nat) → Nat → Attempt Chunk LoadOutcome
  /-- A load that runs out of space moves on in the batch, unless the chunk held rows before. -/
  load_progress : ∀ {c : Chunk} {b : Batch} {projection : Option (List Nat)} {offset : Nat} {o : LoadOutcome},
    (load c b projection offset).result = .ok o → o.status ≠ .success →
      ¬(load c b projection offset).state.isEmpty →
        2 * (b.rows - (offset + o.consumed)) < 2 * (b.rows - offset) + min c.rows 1
  head : Chunk → Nat → Except DataError (Option Chunk) × Nat
  sort : Chunk → Attempt Chunk Unit
  merge : MergeSet → Attempt MergeSet Unit
  compareFirst : Handle → Handle → Except SortError Ordering

def Comparator.engine (cmp : Comparator) (schedule : Schedule := {}) : Engine where
  load c b projection offset := c.load b projection offset schedule
  load_progress := Chunk.load_progress
  head := Chunk.head
  sort c := c.sort cmp schedule
  merge s := s.merge cmp schedule
  compareFirst := Handle.compareFirst cmp

end ChunkSort
