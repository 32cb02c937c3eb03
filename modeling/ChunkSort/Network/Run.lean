import ChunkSort.Network.Pass
import ChunkSort.Schedule

/-!
Running passes over an array of slots. A lane exchanges its two entries when asked to; the first lane that
fails stops the run, and the array keeps the effect of the lanes before it.
-/

namespace ChunkSort

inductive Stop (ε : Type) where
  | failed (error : ε)
  /-- A slot was addressed that is not there. -/
  | outOfBounds (slot : Nat)

/-- A run that was stopped: the slots as they were then, and why. -/
structure Halted (α ε : Type) where
  slots : Array α
  stop : Stop ε

variable {α ε : Type}

def exchangeLane (exchange : α → α → Except ε Bool) (slots : Array α) (lane : Nat × Nat) :
    Except (Halted α ε) (Array α) :=
  if h : lane.1 < slots.size ∧ lane.2 < slots.size then
    match exchange slots[lane.1] slots[lane.2] with
    | .ok true => .ok (slots.swap lane.1 lane.2 h.1 h.2)
    | .ok false => .ok slots
    | .error error => .error ⟨slots, .failed error⟩
  else
    .error ⟨slots, .outOfBounds (max lane.1 lane.2)⟩

def Pass.run (exchange : α → α → Except ε Bool) (live : Nat) (slots : Array α) (p : Pass) (turns : Turns := []) :
    Except (Halted α ε) (Array α) :=
  (turns.arrange (p.lanes slots.size live)).foldlM (exchangeLane exchange) slots

def runPasses (exchange : α → α → Except ε Bool) (live : Nat) (slots : Array α) (passes : List Pass)
    (turns : Nat → Turns := inTurn) : Except (Halted α ε) (Array α) :=
  match passes with
  | [] => .ok slots
  | p :: passes => do
    let slots ← p.run exchange live slots (turns 0)
    runPasses exchange live slots passes fun pass => turns (pass + 1)

def exchangeAcross (exchange : α → α → Except ε Bool) (halves : Array α × Array α) (i : Nat) :
    Except (Stop ε) (Array α × Array α) :=
  let (x, y) := halves
  let j := y.size - 1 - i
  if h : i < x.size ∧ j < y.size then
    match exchange x[i] y[j] with
    | .ok true => .ok (x.set i y[j] h.1, y.set j x[i] h.2)
    | .ok false => .ok (x, y)
    | .error error => .error (.failed error)
  else
    .error (.outOfBounds (max i j))

/-- Runs a pass over both arrays, which are under way at once. If both fail then the first one's failure counts. -/
def Pass.runInside (exchange : α → α → Except ε Bool) (halves : Array α × Array α) (p : Pass)
    (turns turns' : Turns := []) : Except (Stop ε) (Array α × Array α) := do
  let x ← (p.run exchange halves.1.size halves.1 turns).mapError Halted.stop
  let y ← (p.run exchange halves.1.size halves.2 turns').mapError Halted.stop
  return (x, y)

def runHalves (exchange : α → α → Except ε Bool) (halves : Array α × Array α) (passes : List Pass)
    (turns : Nat → Turns := inTurn) : Except (Stop ε) (Array α × Array α) :=
  match passes with
  | [] => .ok halves
  | p :: passes => do
    let halves ← p.runInside exchange halves (turns 0) (turns 1)
    runHalves exchange halves passes fun run => turns (run + 2)

/-- Runs the merge network over two ascending arrays of one length, a power of two. Its first pass goes
across the arrays, the others stay inside them. -/
def mergeNetwork (exchange : α → α → Except ε Bool) (x y : Array α) (turns : Nat → Turns := inTurn) :
    Except (Stop ε) (Array α × Array α) := do
  let across ← ((turns 0).arrange (List.range x.size)).foldlM (exchangeAcross exchange) (x, y)
  runHalves exchange across (mergeSchedule (2 * x.size)).tail fun run => turns (run + 1)

end ChunkSort
