import ChunkSort.Spill.Codec

/-!
Chunks outside of memory: what of a chunk a spill file holds, and the bytes of that file.
-/

namespace ChunkSort

/-- The content of a spill file: the chunk number and the sizes from the header, and the four sections. -/
structure SpilledChunk where
  id : Nat
  rows : Nat
  capacity : Nat
  sideLimit : Option Nat
  store : ColumnStore
  index : Array UInt32
  status : Status
  payload : Array UInt8

def Chunk.spill (c : Chunk) : SpilledChunk :=
  ⟨c.id, c.rows, c.capacity, c.side.limit, c.store, c.index, c.status, c.side.bytes⟩

namespace SpilledChunk

def restore (s : SpilledChunk) : Chunk where
  id := s.id
  store := s.store
  side := ⟨s.sideLimit, s.payload⟩
  index := s.index
  rows := s.rows
  capacity := s.capacity
  status := s.status

def sections (codec : Spill.Codec) (s : SpilledChunk) : Spill.Sections where
  store := codec.store.encode s.store
  index := codec.index.encode s.index
  status := codec.status.encode s.status
  side := s.payload.toList

def descriptor (codec : Spill.Codec) (s : SpilledChunk) : Spill.Descriptor where
  chunk := s.id
  rows := s.rows
  capacity := s.capacity
  sideLimit := s.sideLimit.getD unlimitedBytes
  storeLength := (s.sections codec).store.length
  indexLength := (s.sections codec).index.length
  statusLength := (s.sections codec).status.length
  sideLength := (s.sections codec).side.length

def image (codec : Spill.Codec) (s : SpilledChunk) : List UInt8 :=
  Spill.image (codec.descriptor.encode (s.descriptor codec)) (s.sections codec)

end SpilledChunk
end ChunkSort
