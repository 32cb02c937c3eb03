import ChunkSort.Sorter.Job

/-!
The merge phase of a job. Runs of chunks are merged in pairs, round after round, until one run is left. Two
runs are merged chunk by chunk in the order of their first records: what a chunk adds is merged with a carry,
and the low half is given out once it is full. As many pairs as fit into the window are under way at once.
-/

namespace ChunkSort

/-- Chunks in order, each sorted by its index, and each but the last one full. -/
abbrev Run := List Handle

structure MergeStats where
  /-- Sorted chunks that were not empty at the start. -/
  chunks : Nat
  rounds : Nat
  merges : Nat
  /-- The largest number of chunks resident at once. -/
  peak : Nat
  deriving DecidableEq

structure SortedRun where
  chunks : List Handle
  stats : MergeStats

namespace SortedRun

def rows (r : SortedRun) : Nat := (r.chunks.map Handle.rows).foldr (· + ·) 0

def records (r : SortedRun) : List Record := r.chunks.flatMap (·.load.sortedRecords)

def ids (r : SortedRun) : Except DataError (List UInt64) := r.records.mapM Record.id

end SortedRun

namespace Sorter

def plan (e : Engine) : Run → Run → Except SortError Run
  | [], ys => .ok ys
  | xs, [] => .ok xs
  | x :: xs, y :: ys => do
    match ← e.compareFirst x y with
    | .gt => return y :: (← plan e (x :: xs) ys)
    | _ => return x :: (← plan e xs (y :: ys))

/-- Merges the carry with the next chunk: the rest to carry on, and the low half if it is full. -/
def mergeHeld (s : Sorter) (e : Engine) (carry : Chunk) (next : Handle) : Job (Chunk × Run) := do
  let low ← s.newDestination
  let high ← s.newDestination
  let (_, merged) ← Job.ofAttempt (e.merge ⟨carry, next.load, low, high⟩)
  Job.countMerge
  if merged.low.rows = s.layout.capacity then
    return (merged.high, [← s.park e merged.low])
  else
    return (merged.low, [])

def mergeStep (s : Sorter) (e : Engine) (carry : Chunk) (next : Handle) : Job (Chunk × Run) :=
  Job.withLease chunksPerMerge (s.mergeHeld e carry next)

def mergeInto (s : Sorter) (e : Engine) (carry : Chunk) : Run → Job Run
  | [] => if carry.isEmpty then return [] else return [← s.park e carry]
  | next :: rest => do
    let (carry, full) ← s.mergeStep e carry next
    return full ++ (← s.mergeInto e carry rest)

def mergeRuns (s : Sorter) (e : Engine) (x y : Run) : Job Run := do
  match ← ofExcept (plan e x y) with
  | [] => return []
  | first :: rest => s.mergeInto e first.load rest

end Sorter

inductive MergeTask where
  | dispatched (x y : Run)
  | folding (carry : Chunk) (rest out : Run)
  /-- The carry and the next chunk are merged under a lease. -/
  | holding (carry : Chunk) (next : Handle) (rest out : Run)
  | finished (run : Run)

namespace Sorter

def advance (s : Sorter) (e : Engine) : MergeTask → Job MergeTask
  | .dispatched x y => do
    match ← ofExcept (plan e x y) with
    | [] => return .finished []
    | first :: rest => return .folding first.load rest []
  | .folding carry [] out =>
    if carry.isEmpty then return .finished out else return .finished (out ++ [← s.park e carry])
  | .folding carry (next :: rest) out => do
    Job.lease chunksPerMerge
    return .holding carry next rest out
  | .holding carry next rest out => do
    let (carry, full) ← Job.releasing chunksPerMerge (s.mergeHeld e carry next)
    return .folding carry rest (out ++ full)
  | .finished run => return .finished run

def finish (s : Sorter) (e : Engine) : MergeTask → Job Run
  | .dispatched x y => s.mergeRuns e x y
  | .folding carry rest out => do return out ++ (← s.mergeInto e carry rest)
  | .holding carry next rest out => do
    let (carry, full) ← Job.releasing chunksPerMerge (s.mergeHeld e carry next)
    return out ++ (full ++ (← s.mergeInto e carry rest))
  | .finished run => return run

def finishAll (s : Sorter) (e : Engine) :
    (tasks : List MergeTask) → Job { runs : List Run // runs.length = tasks.length }
  | [] => return ⟨[], rfl⟩
  | task :: tasks => do
    let run ← s.finish e task
    let ⟨runs, h⟩ ← s.finishAll e tasks
    return ⟨run :: runs, congrArg (· + 1) h⟩

/-- Merges that are under way together. When the turns are over, the rest is done in order. The first step that
fails ends them all. -/
def interleave (s : Sorter) (e : Engine) (turns : Turns) (tasks : List MergeTask) :
    Job { runs : List Run // runs.length = tasks.length } :=
  match turns with
  | [] => s.finishAll e tasks
  | turn :: turns =>
    match tasks[turn]? with
    | some task => do
      let task ← s.advance e task
      let ⟨runs, h⟩ ← s.interleave e turns (tasks.set turn task)
      return ⟨runs, h.trans List.length_set⟩
    | none => s.interleave e turns tasks

/-- Does the merges in groups of as many as have room in the window, each group with turns of its own. -/
def mergeGroups (s : Sorter) (e : Engine) (slots : Nat) (turns : Nat → Turns) (tasks : List MergeTask) :
    Job { runs : List Run // runs.length = tasks.length } :=
  match tasks with
  | [] => return ⟨[], rfl⟩
  | task :: tasks => do
    let ⟨runs, h⟩ ← s.interleave e (turns 0) (task :: tasks.take (slots - 1))
    let ⟨more, h'⟩ ← s.mergeGroups e slots (fun group => turns (group + 1)) (tasks.drop (slots - 1))
    return ⟨runs ++ more, by
      rw [List.length_append, h, h', List.length_cons, List.length_cons, List.length_take, List.length_drop]
      omega⟩
termination_by tasks.length
decreasing_by exact Nat.lt_succ_of_le (List.length_drop ▸ Nat.sub_le ..)

def pairUp : List Run → List MergeTask × List Run
  | [] => ([], [])
  | [run] => ([], [run])
  | x :: y :: runs =>
    let (tasks, rest) := pairUp runs
    (.dispatched x y :: tasks, rest)

theorem length_pairUp (runs : List Run) : (pairUp runs).1.length + (pairUp runs).2.length = (runs.length + 1) / 2 := by
  induction runs using pairUp.induct with
  | case1 => simp [pairUp]
  | case2 run => simp [pairUp]
  | case3 x y runs ih =>
    simp only [pairUp, List.length_cons] at ih ⊢
    omega

def mergeRound (s : Sorter) (e : Engine) (round : Nat) (runs : List Run) :
    Job { merged : List Run // merged.length = (runs.length + 1) / 2 } := do
  let slots := (← get).window.mergeSlots
  let ⟨merged, h⟩ ← s.mergeGroups e slots (s.schedule.tasks round) (pairUp runs).1
  return ⟨merged ++ (pairUp runs).2, by rw [List.length_append, h, length_pairUp]⟩

/-- Merges runs until one is left. `round` rounds are over so far. -/
def mergeRounds (s : Sorter) (e : Engine) (round : Nat) (runs : List Run) : Job (Run × Nat) :=
  match runs with
  | [] => return ([], round)
  | [run] => return (run, round)
  | x :: y :: rest => do
    let ⟨merged, h⟩ ← s.mergeRound e round (x :: y :: rest)
    have : merged.length < (x :: y :: rest).length := by
      rw [h, List.length_cons, List.length_cons]
      omega
    s.mergeRounds e (round + 1) merged
termination_by runs.length
decreasing_by exact this

def merge (s : Sorter) (e : Engine) (chunks : List Handle) : Job SortedRun := do
  let runs := (chunks.filter (0 < ·.rows)).map ([·])
  let (run, rounds) ← s.mergeRounds e 0 runs
  let state ← get
  return ⟨run, ⟨runs.length, rounds, state.merges, state.window.peak⟩⟩

def runJob (s : Sorter) (next : Nat) (job : Job SortedRun) : Attempt Nat SortedRun :=
  match job.run ⟨next, { limit := s.window }, 0⟩ with
  | .ok run state => ⟨state.next, .ok run⟩
  | .error error state => ⟨state.next, .error error⟩

def sortWith (s : Sorter) (e : Engine) (batches : List Batch) (next : Nat) : Attempt Nat SortedRun :=
  s.runJob next do s.merge e (← s.ingest e batches)

def sortBy (s : Sorter) (cmp : Comparator) (batches : List Batch) (next : Nat) : Attempt Nat SortedRun :=
  s.sortWith (cmp.engine s.schedule) batches next

def mergeWith (s : Sorter) (e : Engine) (chunks : List Chunk) (next : Nat) : Attempt Nat SortedRun :=
  s.runJob next do s.merge e (← s.adopt e chunks)

def mergeBy (s : Sorter) (cmp : Comparator) (chunks : List Chunk) (next : Nat) : Attempt Nat SortedRun :=
  s.mergeWith (cmp.engine s.schedule) chunks next

end Sorter
end ChunkSort
