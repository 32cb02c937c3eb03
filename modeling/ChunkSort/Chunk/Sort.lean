import ChunkSort.Chunk.Basic
import ChunkSort.Comparator
import ChunkSort.Network.Run

/-!
Sorting a chunk: the network runs over its index, and comparisons look through the entries at the rows.
-/

namespace ChunkSort

/-- A failed comparison, charged to one of the two index entries. -/
structure EntryFault where
  entry : UInt32
  cause : DataError

/-- Whether two index entries are out of order. Padding stands behind every row without being compared, and
`ties` decides between records that compare equal. -/
def outOfOrder (cmp : Comparator) (record : UInt32 → Record) (ties : UInt32 → UInt32 → Ordering)
    (a b : UInt32) : Except EntryFault Bool :=
  if b = padding then
    .ok false
  else if a = padding then
    .ok true
  else
    match cmp (record a) (record b) with
    | .ok o => .ok (o.then (ties a b) == .gt)
    | .error cause => .error ⟨if cmp.chargesRight (record a) (record b) then b else a, cause⟩

namespace Chunk

def recordOf (c : Chunk) (entry : UInt32) : Record := c.recordAt entry.toNat

def stopError (c : Chunk) : Stop EntryFault → SortError
  | .failed f => .fault c.id (some f.entry.toNat) f.cause
  | .outOfBounds slot => .fault c.id none (.outOfBounds slot)

/-- What a run over the index makes of the chunk. A fault leaves the index as it was when the comparison failed. -/
def afterRun (c : Chunk) : Except (Halted UInt32 EntryFault) (Array UInt32) → Attempt Chunk Unit
  | .ok index => ⟨{ c with index, status := .success }, .ok ()⟩
  | .error ⟨index, stop⟩ => ⟨{ c with index, status := .fault }, .error (c.stopError stop)⟩

def sort (c : Chunk) (cmp : Comparator) (schedule : Schedule := {}) : Attempt Chunk Unit :=
  c.afterRun (runPasses (outOfOrder cmp c.recordOf fun _ _ => .eq) c.rows c.index (sortSchedule c.index.size)
    schedule.lanes)

end Chunk
end ChunkSort
