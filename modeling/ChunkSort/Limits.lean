/-!
The bounds that the engine is built on.
-/

namespace ChunkSort

/-- A merge addresses two chunks through one range of 32-bit entries, so twice the padded
capacity stays below the padding entry. -/
def maxCapacity : Nat := 0x40000000

def maxBatchRows : Nat := 0x100000000

/-- A merge step holds two inputs and two destinations. -/
def chunksPerMerge : Nat := 4

def unlimitedBytes : Nat := 0xFFFFFFFFFFFFFFFF

/-- The smallest power of two that is not below `n`: the slots of an index over `n` rows. -/
def paddedSize (n : Nat) : Nat := if n ≤ 1 then 1 else 1 <<< ((n - 1).log2 + 1)

end ChunkSort
