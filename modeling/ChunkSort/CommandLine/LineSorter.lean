import ChunkSort.CommandLine.Arguments
import ChunkSort.Sorter.Tournament

/-!
Sorting the lines of a file: lines become the rows of batches with one column of bytes.
-/

namespace ChunkSort.CommandLine

def newline : UInt8 := 0x0a

/-- The pieces between newline bytes, without an empty one at the end. -/
def splitLines (input : List UInt8) : List (List UInt8) :=
  input.foldr (fun b lines =>
    if b = newline then
      [] :: lines
    else
      match lines with
      | [] => [[b]]
      | line :: rest => (b :: line) :: rest) []

def joinLines (lines : List (List UInt8)) : List UInt8 := lines.flatMap (· ++ [newline])

def batchLines : Nat := 4096

def lineBatches (id : UInt32) (lines : List (List UInt8)) : List Batch :=
  if h : lines = [] then
    []
  else
    .ofRows id 1 ((lines.take batchLines).map fun line => #[.bytes line]).toArray none ::
      lineBatches (id + 1) (lines.drop batchLines)
termination_by lines.length
decreasing_by
  have := List.length_pos_iff.2 h
  simp [batchLines]
  omega

def recordLine (r : Record) : Except DataError (List UInt8) := do
  match ← r.value 0 with
  | .bytes line => return line
  | _ => return []

inductive Failure where
  | sorting (error : SortError)
  | reading (error : DataError)

namespace Failure

def context : Failure → String
  | sorting _ => "line sorting error"
  | reading _ => "sorted line reading error"

def message : Failure → String
  | sorting error => error.message
  | reading error => error.message

end Failure

namespace Settings

def sorterConfig (s : Settings) (storage : Storage) (schedule : Schedule) : SorterConfig where
  schema := [.varLen]
  capacity := s.chunkRows
  sideLimit := s.sideBytes
  window := s.window
  storage := storage
  schedule := schedule

def comparator (s : Settings) : Comparator := .byKeys [{ column := 0, descending := s.descending }]

def sortLines (s : Settings) (sorter : Sorter) (input : List UInt8) : Except Failure (List UInt8) := do
  let run ← (sorter.sortBy s.comparator (lineBatches 0 (splitLines input)) 0).result.mapError .sorting
  let lines ← (run.records.mapM recordLine).mapError .reading
  return joinLines lines

end Settings
end ChunkSort.CommandLine
