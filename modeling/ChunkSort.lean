import ChunkSort.Main
import ChunkSort.Proofs.Network.Halves
import ChunkSort.Proofs.Network.Sorting
import ChunkSort.Proofs.Network.Partner
import ChunkSort.Proofs.Chunk.WellFormed
import ChunkSort.Proofs.Chunk.Append
import ChunkSort.Proofs.Chunk.Load
import ChunkSort.Proofs.Comparator
import ChunkSort.Proofs.Chunk.Sort
import ChunkSort.Proofs.Chunk.Merge
import ChunkSort.Proofs.Chunk.MergeOutcomes
import ChunkSort.Proofs.Session
import ChunkSort.Proofs.Sorter.Correctness
import ChunkSort.Proofs.Spill.RoundTrip
import ChunkSort.Proofs.Sorter.Spilling
import ChunkSort.Proofs.Sorter.Backpressure
import ChunkSort.Proofs.Sorter.Screening
import ChunkSort.Proofs.Sorter.Admission
import ChunkSort.Proofs.Sorter.Shape
import ChunkSort.Proofs.Sorter.Spending
import ChunkSort.Proofs.Sorter.Rounds
import ChunkSort.Proofs.Window
import ChunkSort.Proofs.Sorter.Pool
import ChunkSort.Proofs.Sorter.Dispatch
import ChunkSort.Proofs.Sorter.Unseen
import ChunkSort.Proofs.Sorter.CarrySteps
import ChunkSort.Proofs.Chunk.WriteOnce
import ChunkSort.Proofs.Chunk.Leftovers
import ChunkSort.Proofs.KeyOrder
import ChunkSort.Proofs.Reuse
import ChunkSort.Proofs.CommandLine.Program
import ChunkSort.Proofs.Chunk.LoadOutcomes
import ChunkSort.Proofs.Chunk.Charging
import ChunkSort.Proofs.SideBuffer
import ChunkSort.Proofs.Chunk.Slots
import ChunkSort.Proofs.Chunk.Numbering
import ChunkSort.Proofs.Network.DeadLanes
