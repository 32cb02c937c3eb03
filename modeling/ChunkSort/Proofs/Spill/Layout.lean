import ChunkSort.Proofs.Spill.MessagePack

/-!
Where the sections of a spill file are. The file is written front to back, each part filled up behind the last,
and read at offsets that are computed from lengths alone: both come to the same places.
-/

namespace ChunkSort.Spill

open MessagePack (bigEndian bigEndianValue length_bigEndian bigEndianValue_bigEndian)

theorem align_mod (n : Nat) : align n % 8 = 0 := Nat.mul_mod_left _ _

theorem le_align (n : Nat) : n ≤ align n := by
  unfold align
  omega

@[simp] theorem length_padded (bytes : List UInt8) : (padded bytes).length = align bytes.length := by
  have := le_align bytes.length
  rw [padded, List.length_append, List.length_replicate]
  omega

theorem slice?_append (before bytes after : List UInt8) :
    slice? (before ++ (bytes ++ after)) before.length bytes.length = some bytes := by
  simp [slice?]

theorem slice?_padded (before bytes after : List UInt8) :
    slice? (before ++ (padded bytes ++ after)) before.length bytes.length = some bytes := by
  rw [padded, List.append_assoc]
  exact slice?_append before bytes _

namespace Descriptor

/-- The header has an entry for each section: its length. -/
structure Describes (d : Descriptor) (s : Sections) : Prop where
  store : d.storeLength = s.store.length
  index : d.indexLength = s.index.length
  status : d.statusLength = s.status.length
  side : d.sideLength = s.side.length

structure Placed (d : Descriptor) (body : Nat) : Prop where
  aligned : ∀ offset ∈ [d.storeOffset, d.indexOffset, d.statusOffset, d.sideOffset], (body + offset) % 8 = 0
  store : d.storeOffset + d.storeLength ≤ d.indexOffset
  index : d.indexOffset + d.indexLength ≤ d.statusOffset
  status : d.statusOffset + d.statusLength ≤ d.sideOffset
  side : d.sideOffset + d.sideLength = d.bodyLength

theorem placed (d : Descriptor) {body : Nat} (h : body % 8 = 0) : d.Placed body where
  aligned offset hoffset := by
    have hstore := align_mod d.storeLength
    have hindex := align_mod d.indexLength
    have hstatus := align_mod d.statusLength
    simp only [List.mem_cons, List.not_mem_nil, or_false] at hoffset
    rcases hoffset with rfl | rfl | rfl | rfl <;>
      simp only [storeOffset, indexOffset, statusOffset, sideOffset] <;> omega
  store := Nat.add_le_add_left (le_align _) _
  index := Nat.add_le_add_left (le_align _) _
  status := Nat.add_le_add_left (le_align _) _
  side := rfl

end Descriptor

section Image

variable {header : List UInt8} {s : Sections} {d : Descriptor}

theorem length_prefix (header : List UInt8) :
    (padded (bigEndian 4 header.length ++ header)).length = align (4 + header.length) := by
  simp

theorem length_image (header : List UInt8) (hd : d.Describes s) :
    (image header s).length = align (4 + header.length) + d.bodyLength := by
  simp only [image, List.length_append, length_padded, length_bigEndian, Descriptor.bodyLength, Descriptor.sideOffset,
    Descriptor.statusOffset, Descriptor.indexOffset, Descriptor.storeOffset, hd.store, hd.index, hd.status, hd.side]
  omega

theorem slice?_image_length (header : List UInt8) (s : Sections) :
    slice? (image header s) 0 4 = some (bigEndian 4 header.length) := by
  have key := slice?_append [] (bigEndian 4 header.length)
  rw [length_bigEndian] at key
  simp only [image, padded, List.append_assoc]
  exact key _

theorem slice?_image_header (header : List UInt8) (s : Sections) :
    slice? (image header s) 4 header.length = some header := by
  have key := slice?_append (bigEndian 4 header.length) header
  rw [length_bigEndian] at key
  simp only [image, padded, List.append_assoc]
  exact key _

theorem headerLength_image (h : header.length < 0x100000000) :
    bigEndianValue (bigEndian 4 header.length) = header.length := bigEndianValue_bigEndian h

theorem header?_image (s : Sections) (h : header.length < 0x100000000) :
    header? (image header s) = some header := by
  simp only [header?, slice?_image_length, Option.bind_eq_bind, Option.bind_some, headerLength_image h,
    slice?_image_header]

theorem slices_image (header : List UInt8) (hd : d.Describes s) :
    let body := align (4 + header.length)
    slice? (image header s) (body + d.storeOffset) d.storeLength = some s.store ∧
      slice? (image header s) (body + d.indexOffset) d.indexLength = some s.index ∧
      slice? (image header s) (body + d.statusOffset) d.statusLength = some s.status ∧
      slice? (image header s) (body + d.sideOffset) d.sideLength = some s.side := by
  -- Each section is looked for behind all that stands in front of it.
  intro body
  let start := padded (bigEndian 4 header.length ++ header)
  have hstart : start.length = body := length_prefix header
  have hstore := slice?_padded start s.store (padded s.index ++ padded s.status ++ s.side)
  have hindex := slice?_padded (start ++ padded s.store) s.index (padded s.status ++ s.side)
  have hstatus := slice?_padded (start ++ padded s.store ++ padded s.index) s.status s.side
  have hside := slice?_append (start ++ padded s.store ++ padded s.index ++ padded s.status) s.side []
  simp only [List.append_assoc, List.append_nil, List.length_append, hstart, length_padded] at hstore hindex hstatus hside
  simp only [image, List.append_assoc, Descriptor.sideOffset, Descriptor.statusOffset, Descriptor.indexOffset,
    Descriptor.storeOffset, Nat.zero_add, Nat.add_zero, hd.store, hd.index, hd.status, hd.side, ← Nat.add_assoc]
  refine ⟨hstore, hindex, ?_, ?_⟩
  · simpa only [← Nat.add_assoc] using hstatus
  · simpa only [← Nat.add_assoc] using hside

theorem sections?_image (hd : d.Describes s) (h : header.length < 0x100000000) :
    sections? (image header s) d = some s := by
  obtain ⟨hstore, hindex, hstatus, hside⟩ := slices_image header hd
  simp only [sections?, header?_image s h, Option.bind_eq_bind, Option.bind_some, hstore, hindex, hstatus, hside]
  rfl

end Image
end ChunkSort.Spill
