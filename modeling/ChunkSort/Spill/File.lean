import ChunkSort.Spill.SpilledChunk

/-!
Reading spill files. All readers of a file share its position, so every section is looked up from the start of
the file.
-/

namespace ChunkSort.Spill

open MessagePack (bigEndianValue)

structure File where
  bytes : List UInt8
  position : Nat := 0

/-- The limit of the side buffer. The largest number stands for none. -/
def Descriptor.limit? (d : Descriptor) : Option Nat :=
  if d.sideLimit = unlimitedBytes then none else some d.sideLimit

abbrev Reading := StateT File (Except SortError)

namespace Reading

def seek (offset : Nat) : Reading Unit := modify ({ · with position := offset })

def take (length : Nat) : Reading (List UInt8) := do
  let file ← get
  let bytes := (file.bytes.drop file.position).take length
  set { file with position := file.position + bytes.length }
  return bytes

def bytesAt (offset length : Nat) : Reading (List UInt8) := do
  seek offset
  let bytes ← take length
  if bytes.length = length then
    return bytes
  else
    throw (.inputOutput s!"spill section at {offset} truncated ({bytes.length} of {length} bytes)")

def decoded {α : Type} (r : Except String α) : Reading α := liftM (r.mapError SortError.decoding)

def sections (body : Nat) (d : Descriptor) : Reading Sections := do
  let store ← bytesAt (body + d.storeOffset) d.storeLength
  let index ← bytesAt (body + d.indexOffset) d.indexLength
  let status ← bytesAt (body + d.statusOffset) d.statusLength
  let side ← bytesAt (body + d.sideOffset) d.sideLength
  return ⟨store, index, status, side⟩

/-- Reads a chunk. Where its sections are follows from the header that the file starts with. -/
def chunk (codec : Codec) : Reading Chunk := do
  let length := bigEndianValue (← bytesAt 0 4)
  let d ← decoded (codec.descriptor.decode (← bytesAt 4 length))
  let s ← sections (align (4 + length)) d
  let store ← decoded (codec.store.decode s.store)
  let index ← decoded (codec.index.decode s.index)
  let status ← decoded (codec.status.decode s.status)
  return ⟨d.chunk, store, ⟨d.limit?, s.side.toArray⟩, index, d.rows, d.capacity, status⟩

def chunks (codec : Codec) : (times : Nat) → Reading (List Chunk)
  | 0 => return []
  | times + 1 => do
    let c ← chunk codec
    return c :: (← chunks codec times)

end Reading
end ChunkSort.Spill
