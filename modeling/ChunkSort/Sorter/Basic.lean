import ChunkSort.Chunk.Basic
import ChunkSort.Schedule

/-!
Sorters: what the jobs of one sorter have in common, and the configurations that are accepted.
-/

namespace ChunkSort

inductive Storage where
  | memory
  | directory
  /-- A directory in which no file can be made. -/
  | unavailable (reason : String)

structure SorterConfig where
  schema : List ColumnType := []
  capacity : Nat := 65536
  sideLimit : Option Nat := none
  window : Nat := chunksPerMerge
  projection : Option (List Nat) := none
  storage : Storage := .memory
  schedule : Schedule := {}

structure Sorter where
  layout : Layout
  window : Nat
  /-- The batch column that feeds each chunk column; all columns in order if not set. -/
  projection : Option (List Nat)
  spills : Bool
  /-- What the threads of the sorter come to do first in a job. -/
  schedule : Schedule := {}
  window_ge : chunksPerMerge ≤ window
  projection_length : ∀ selected ∈ projection, selected.length = layout.schema.length

namespace SorterConfig

/-- Accepts a configuration. The first of its defects is reported. -/
def build (config : SorterConfig) : Except SortError Sorter := do
  let layout ← Layout.build config.schema config.capacity config.sideLimit
  if hw : chunksPerMerge ≤ config.window then
    if hp : ∀ selected ∈ config.projection, selected.length = layout.schema.length then
      match config.storage with
      | .memory => return ⟨layout, config.window, config.projection, false, config.schedule, hw, hp⟩
      | .directory => return ⟨layout, config.window, config.projection, true, config.schedule, hw, hp⟩
      | .unavailable reason => throw (.spillDirectory reason)
    else
      let selected := (config.projection.map List.length).getD 0
      throw (.contractViolation (.projectionWidth selected layout.schema.length))
  else
    throw (.contractViolation (.windowTooSmall config.window))

end SorterConfig
end ChunkSort
