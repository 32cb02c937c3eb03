import ChunkSort.Limits
import ChunkSort.Value

/-!
What can go wrong, as causes. Each family of causes has one function that gives the wording.
-/

namespace ChunkSort

inductive DataError where
  | columnOutOfRange (column columns : Nat)
  | rowOutOfRange (row rows : Nat)
  | typeMismatch (column : Nat) (expected : ColumnType) (found : Kind)
  | sideBufferOutOfRange (offset length size : Nat)
  | sideBufferFull (needed remaining : Nat)
  | comparator (text : String)
  /-- A slot was addressed that is not there. The program stops at once. -/
  | outOfBounds (slot : Nat)
  deriving DecidableEq

def DataError.message : DataError → String
  | columnOutOfRange column columns => s!"column {column} out of range (columns: {columns})"
  | rowOutOfRange row rows => s!"row {row} out of range (rows: {rows})"
  | typeMismatch column expected found => s!"column {column} expects {expected.name}, found {found.name}"
  | sideBufferOutOfRange offset length size =>
    s!"side buffer reference {offset}+{length} out of range (size: {size})"
  | sideBufferFull needed remaining => s!"side buffer full (needed: {needed}, remaining: {remaining})"
  | comparator text => s!"comparator failure: {text}"
  | outOfBounds slot => s!"no slot {slot}"

inductive Violation where
  | capacityOutOfRange (capacity : Nat)
  | windowTooSmall (window : Nat)
  | projectionWidth (selected columns : Nat)
  | offsetPastEnd (offset batch rows : Nat)
  | batchTooLong (batch rows : Nat)
  | oversizedRow (row batch : Nat)
  | foreignLayout (chunk : Nat)
  | faultedChunk (chunk : Nat)
  | mismatchingSchemas (x y : Nat)
  | faultedInput (chunk : Nat)
  | occupiedDestinations (low high : Nat)
  | tooFewSlots (low high x y : Nat)
  | tooFewBytes (chunk free needed : Nat)
  | windowExceeded (limit resident requested : Nat)
  | stated (text : String)
  deriving DecidableEq

def Violation.message : Violation → String
  | capacityOutOfRange capacity => s!"chunk capacity must be within 1..={maxCapacity} (got {capacity})"
  | windowTooSmall window => s!"window must hold at least {chunksPerMerge} chunks (got {window})"
  | projectionWidth selected columns => s!"projection selects {selected} columns, schema has {columns}"
  | offsetPastEnd offset batch rows => s!"load offset {offset} past the end of batch {batch} ({rows} rows)"
  | batchTooLong batch rows =>
    s!"batch {batch} has {rows} rows, at most {maxBatchRows} rows fit into row identifiers"
  | oversizedRow row batch => s!"row {row} of batch {batch} does not fit into an empty chunk"
  | foreignLayout chunk => s!"chunk#{chunk} does not match the sorter chunk layout"
  | faultedChunk chunk => s!"chunk#{chunk} is faulted"
  | mismatchingSchemas x y => s!"merge of chunk#{x} and chunk#{y} over mismatching schemas"
  | faultedInput chunk => s!"chunk#{chunk} is faulted and cannot be merged"
  | occupiedDestinations low high => s!"merge destinations chunk#{low} and chunk#{high} must be empty"
  | tooFewSlots low high x y => s!"merge destinations hold {low} + {high} rows, inputs have {x} + {y} rows"
  | tooFewBytes chunk free needed =>
    s!"merge destination chunk#{chunk} has {free} free side buffer bytes, {needed} needed"
  | windowExceeded limit resident requested =>
    s!"window of {limit} chunks exceeded ({resident} resident, {requested} requested)"
  | stated text => text

/-- The failure of an operation on chunks. A fault names the chunk and, where it is known, the row slot
that it is charged to. -/
inductive SortError where
  | fault (chunk : Nat) (row : Option Nat) (cause : DataError)
  | contractViolation (violation : Violation)
  | spillDirectory (reason : String)
  | inputOutput (reason : String)
  | encoding (reason : String)
  | decoding (reason : String)
  deriving DecidableEq

namespace SortError

def context : SortError → String
  | fault chunk (some row) _ => s!"chunk#{chunk} faulted at row {row}"
  | fault chunk none _ => s!"chunk#{chunk} faulted"
  | contractViolation _ => "contract violation"
  | spillDirectory _ => "spill directory or file not created"
  | inputOutput _ => "I/O operation failed"
  | encoding _ => "chunk serialization error"
  | decoding _ => "chunk deserialization error"

def reason : SortError → String
  | fault _ _ cause => cause.message
  | contractViolation violation => violation.message
  | spillDirectory reason | inputOutput reason | encoding reason | decoding reason => reason

def message (e : SortError) : String := s!"{e.context}: {e.reason}"

def source? : SortError → Option String
  | contractViolation _ => none
  | e => some e.reason

theorem message_of_source? {e : SortError} {text : String} (h : e.source? = some text) :
    e.message = s!"{e.context}: {text}" := by
  cases e with
  | contractViolation => cases h
  | _ =>
    cases h
    rfl

end SortError

structure Attempt (σ α : Type) where
  state : σ
  result : Except SortError α

end ChunkSort
