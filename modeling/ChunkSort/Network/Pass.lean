/-!
Passes of a bitonic network. A pass splits the slots into blocks of `unit` and pairs each slot of the
lower half of a block with one of the upper half: the one at the same place, or for a flip the one that is
as far from the end of the block as the slot is from its start.
-/

namespace ChunkSort

def trailingZeros (n : Nat) : Nat := if 0 < n ∧ n % 2 = 0 then trailingZeros (n / 2) + 1 else 0

structure Pass where
  unit : Nat
  flip : Bool
  deriving DecidableEq

namespace Pass

/-- The binary logarithm of the unit, negative for a flip. An empty unit counts as the 64 zero
bits of its word. -/
def encode (p : Pass) : Int :=
  let shift : Nat := if p.unit = 0 then 64 else trailingZeros p.unit
  if p.flip then -shift else shift

def decode (param : Int) : Pass := ⟨1 <<< param.natAbs, param < 0⟩

/-- The pair of slots that a lane handles. A unit below two has no lanes. -/
def partner? (p : Pass) (lane : Nat) : Option (Nat × Nat) :=
  let half := p.unit / 2
  if half = 0 then
    none
  else
    let lower := lane / half * p.unit + lane % half
    some (lower, if p.flip then lower ^^^ (p.unit - 1) else lower + half)

def blockLanes (p : Pass) (base : Nat) : List (Nat × Nat) :=
  let half := p.unit / 2
  let upper := List.range' (base + half) half
  (List.range' base half).zip (if p.flip then upper.reverse else upper)

/-- The pairs of slots, from left to right, for which the upper slot is below `live`. Blocks that have no
such pair are left out at once. -/
def lanes (p : Pass) (length live : Nat) : List (Nat × Nat) :=
  (List.range (length / p.unit)).flatMap fun block =>
    let base := block * p.unit
    if live ≤ base + p.unit / 2 then [] else (p.blockLanes base).filter (·.2 < live)

end Pass

/-- The passes that sort `length` slots, a power of two. -/
def sortSchedule (length : Nat) : List Pass :=
  (List.range' 1 (trailingZeros length)).flatMap fun stage =>
    ⟨1 <<< stage, true⟩ :: (List.range' 1 (stage - 1)).reverse.map fun step => ⟨1 <<< step, false⟩

/-- The passes that merge two ascending halves of `length` slots, a power of two. -/
def mergeSchedule (length : Nat) : List Pass :=
  if length < 2 then
    []
  else
    ⟨length, true⟩ :: (List.range' 1 (trailingZeros length - 1)).reverse.map fun step => ⟨1 <<< step, false⟩

end ChunkSort
