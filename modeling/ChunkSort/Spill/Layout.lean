import ChunkSort.Spill.MessagePack

/-!
The layout of a spill file: the length of the header in four bytes, the header, and four sections. Every
section starts at a multiple of eight bytes, and where it starts is computed from the section lengths in
the header. Section offsets count from the body, the first aligned byte after the header.
-/

namespace ChunkSort.Spill

open MessagePack (bigEndian bigEndianValue)

def align (n : Nat) : Nat := (n + 7) / 8 * 8

structure Descriptor where
  chunk : Nat
  rows : Nat
  capacity : Nat
  sideLimit : Nat
  storeLength : Nat
  indexLength : Nat
  statusLength : Nat
  sideLength : Nat
  deriving DecidableEq

namespace Descriptor

def storeOffset (_ : Descriptor) : Nat := 0

def indexOffset (d : Descriptor) : Nat := d.storeOffset + align d.storeLength

def statusOffset (d : Descriptor) : Nat := d.indexOffset + align d.indexLength

def sideOffset (d : Descriptor) : Nat := d.statusOffset + align d.statusLength

def bodyLength (d : Descriptor) : Nat := d.sideOffset + d.sideLength

end Descriptor

structure Sections where
  store : List UInt8
  index : List UInt8
  status : List UInt8
  side : List UInt8
  deriving DecidableEq

def padded (bytes : List UInt8) : List UInt8 :=
  bytes ++ List.replicate (align bytes.length - bytes.length) 0

/-- The bytes of a file. The last section is not padded. -/
def image (header : List UInt8) (s : Sections) : List UInt8 :=
  padded (bigEndian 4 header.length ++ header) ++ padded s.store ++ padded s.index ++
    padded s.status ++ s.side

def slice? (file : List UInt8) (offset length : Nat) : Option (List UInt8) :=
  let bytes := (file.drop offset).take length
  if bytes.length = length then some bytes else none

def header? (file : List UInt8) : Option (List UInt8) := do
  slice? file 4 (bigEndianValue (← slice? file 0 4))

def sections? (file : List UInt8) (d : Descriptor) : Option Sections := do
  let header ← header? file
  let body := align (4 + header.length)
  let store ← slice? file (body + d.storeOffset) d.storeLength
  let index ← slice? file (body + d.indexOffset) d.indexLength
  let status ← slice? file (body + d.statusOffset) d.statusLength
  let side ← slice? file (body + d.sideOffset) d.sideLength
  return ⟨store, index, status, side⟩

end ChunkSort.Spill
