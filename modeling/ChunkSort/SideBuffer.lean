import ChunkSort.Error

/-!
The side buffer of a chunk: an append-only byte store for payloads of variable length. Payloads are
addressed by their offset from its start, so a reference outlives every later push.
-/

namespace ChunkSort

structure PayloadRef where
  offset : Nat
  length : Nat
  deriving DecidableEq

/-- Without a limit every payload is accepted. -/
structure SideBuffer where
  limit : Option Nat := none
  bytes : Array UInt8 := #[]

namespace SideBuffer

def used (b : SideBuffer) : Nat := b.bytes.size

def room (b : SideBuffer) : Option Nat := b.limit.map (· - b.used)

/-- Whether `length` bytes fit into a budget, `none` being an unlimited one. -/
def fits (room : Option Nat) (length : Nat) : Bool := room.all (length ≤ ·)

def reportedLimit (b : SideBuffer) : Nat := b.limit.getD unlimitedBytes

def reportedRoom (b : SideBuffer) : Nat := b.reportedLimit - b.used

def push (b : SideBuffer) (payload : List UInt8) : Option (PayloadRef × SideBuffer) :=
  if fits b.room payload.length then
    some (⟨b.used, payload.length⟩, { b with bytes := b.bytes ++ payload })
  else
    none

def get (b : SideBuffer) (ref : PayloadRef) : Except DataError (List UInt8) :=
  if ref.offset + ref.length ≤ b.used then
    .ok (b.bytes.extract ref.offset (ref.offset + ref.length)).toList
  else
    .error (.sideBufferOutOfRange ref.offset ref.length b.used)

def clear (b : SideBuffer) : SideBuffer := { b with bytes := #[] }

end SideBuffer
end ChunkSort
