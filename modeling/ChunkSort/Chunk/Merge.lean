import ChunkSort.Chunk.Sort

/-!
Merging two sorted chunks into two empty ones. The entries of both inputs are numbered jointly: those of
the first input stay below `half`, those of the second one are shifted by it. The merge network orders the
joint entries, and the rows are then copied in that order, the low destination being filled first.
-/

namespace ChunkSort

structure MergeSet where
  x : Chunk
  y : Chunk
  low : Chunk
  high : Chunk

def resize (entries : List UInt32) (length : Nat) : Array UInt32 :=
  ((entries ++ List.replicate length padding).take length).toArray

def renumber (index : Array UInt32) (rows half : Nat) (offset : UInt32) : Array UInt32 :=
  (resize index.toList half).mapIdx fun i entry => if i < rows then entry + offset else padding

def restoreIndex (length : Nat) (merged : List UInt32) (start stop : Nat) : Array UInt32 :=
  resize ((merged.filter fun e => start ≤ e.toNat && e.toNat < stop).map (· - UInt32.ofNat start)) length

namespace MergeSet

def layoutViolation? (s : MergeSet) : Option Violation :=
  if [s.y, s.low, s.high].any (·.schema ≠ s.x.schema) then
    some (.mismatchingSchemas s.x.id s.y.id)
  else
    match [s.x, s.y].find? (·.status = .fault) with
    | some faulted => some (.faultedInput faulted.id)
    | none =>
      if !s.low.isEmpty || !s.high.isEmpty then
        some (.occupiedDestinations s.low.id s.high.id)
      else if s.low.capacity + s.high.capacity < s.x.rows + s.y.rows then
        some (.tooFewSlots s.low.capacity s.high.capacity s.x.rows s.y.rows)
      else
        none

/-- Where the joint numbering passes from the first input to the second one. -/
def half (s : MergeSet) : Nat := paddedSize (max s.x.rows s.y.rows)

def locate (s : MergeSet) (entry : UInt32) : Chunk × Nat :=
  if entry.toNat < s.half then (s.x, entry.toNat) else (s.y, entry.toNat - s.half)

def recordOf (s : MergeSet) (entry : UInt32) : Record :=
  let (chunk, slot) := s.locate entry
  chunk.recordAt slot

/-- Of two records that compare equal the one of the first input comes first. -/
def ties (s : MergeSet) (a b : UInt32) : Ordering := compare (s.half ≤ a.toNat : Bool) (s.half ≤ b.toNat : Bool)

/-- The joint entries of all rows in merged order. An input without rows leaves the other one as it is. -/
def order (s : MergeSet) (cmp : Comparator) (schedule : Schedule := {}) : Except (Stop EntryFault) (List UInt32) := do
  let x := renumber s.x.index s.x.rows s.half 0
  let y := renumber s.y.index s.y.rows s.half (UInt32.ofNat s.half)
  let (x, y) ←
    if s.x.isEmpty || s.y.isEmpty then pure (x, y)
    else mergeNetwork (outOfOrder cmp s.recordOf s.ties) x y schedule.lanes
  return (x.toList ++ y.toList).filter (· ≠ padding)

def payloadSizes (s : MergeSet) (merged : List UInt32) (schedule : Schedule := {}) : Except EntryFault (List Nat) :=
  collect schedule.rows (fun e => ((s.recordOf e).toSource.payloadSize s.low.schema).mapError (⟨e, ·⟩)) merged

def split (s : MergeSet) (merged : List UInt32) : Nat := min s.low.capacity merged.length

def shortfall? (s : MergeSet) (split : Nat) (sizes : List Nat) : Option Violation :=
  let shares := [(s.low, sizes.take split), (s.high, sizes.drop split)]
  shares.findSome? fun (c, share) =>
    let needed := share.foldr (· + ·) 0
    if SideBuffer.fits c.side.room needed then none else some (.tooFewBytes c.id c.side.reportedRoom needed)

def restored (s : MergeSet) (merged : List UInt32) : MergeSet :=
  { s with
    x := { s.x with index := restoreIndex s.x.index.size merged 0 s.half }
    y := { s.y with index := restoreIndex s.y.index.size merged s.half (2 * s.half) } }

/-- Gives up after a fault: the inputs are lost and all four chunks are flagged. -/
def abandoned (s : MergeSet) : MergeSet where
  x := s.x.clear.withStatus .fault
  y := s.y.clear.withStatus .fault
  low := s.low.withStatus .fault
  high := s.high.withStatus .fault

def faultAt (s : MergeSet) (f : EntryFault) : SortError :=
  let (chunk, slot) := s.locate f.entry
  .fault chunk.id (some slot) f.cause

def stopError (s : MergeSet) : Stop EntryFault → SortError
  | .failed f => s.faultAt f
  | .outOfBounds slot => .fault s.x.id none (.outOfBounds slot)

def copyInto (s : MergeSet) (c : Chunk) (entries : List UInt32) : Except SortError Chunk :=
  match c.append (entries.map fun e => (s.recordOf e).toSource) with
  | .ok c => .ok (c.withStatus .success)
  | .error cause => .error (.fault c.id none cause)

def copied (s : MergeSet) (merged : List UInt32) : Except SortError (Chunk × Chunk) := do
  let low ← s.copyInto s.low (merged.take (s.split merged))
  let high ← s.copyInto s.high (merged.drop (s.split merged))
  return (low, high)

def deliver (s : MergeSet) (merged : List UInt32) (schedule : Schedule := {}) : Attempt MergeSet Unit :=
  match s.payloadSizes merged schedule with
  | .error f => ⟨s.abandoned, .error (s.faultAt f)⟩
  | .ok sizes =>
    match s.shortfall? (s.split merged) sizes with
    | some violation => ⟨s.restored merged, .error (.contractViolation violation)⟩
    | none =>
      match s.copied merged with
      | .error error => ⟨s.abandoned, .error error⟩
      | .ok (low, high) =>
        ⟨⟨s.x.clear.withStatus .success, s.y.clear.withStatus .success, low, high⟩, .ok ()⟩

def afterOrder (s : MergeSet) (schedule : Schedule) : Except (Stop EntryFault) (List UInt32) → Attempt MergeSet Unit
  | .error stop => ⟨s.abandoned, .error (s.stopError stop)⟩
  | .ok merged => s.deliver merged schedule

/-- Merges the inputs into the destinations and leaves the inputs empty. A violation leaves the
destinations alone and both inputs usable. -/
def merge (s : MergeSet) (cmp : Comparator) (schedule : Schedule := {}) : Attempt MergeSet Unit :=
  match s.layoutViolation? with
  | some violation => ⟨s, .error (.contractViolation violation)⟩
  | none => s.afterOrder schedule (s.order cmp schedule)

end MergeSet
end ChunkSort
