import ChunkSort.Chunk.Load
import ChunkSort.Spill.File
import ChunkSort.Proofs.Spill.Layout

/-!
A chunk that is read from its spill file is the chunk that was written, however often it is read and wherever
earlier reads left the file.
-/

namespace ChunkSort

/-- What is encoded is decoded again, whatever it is. -/
def Format.Lawful {α : Type} (f : Format α) : Prop := ∀ a, f.Fits a → f.decode (f.encode a) = .ok a

namespace Spill

namespace Codec

structure Lawful (codec : Codec) : Prop where
  descriptor : codec.descriptor.Lawful
  store : codec.store.Lawful
  index : codec.index.Lawful
  status : codec.status.Lawful
  /-- The length of a header is written in four bytes. -/
  header : ∀ d, (codec.descriptor.encode d).length < 0x100000000

structure Fits (codec : Codec) (s : SpilledChunk) : Prop where
  descriptor : codec.descriptor.Fits (s.descriptor codec)
  store : codec.store.Fits s.store
  index : codec.index.Fits s.index
  status : codec.status.Fits s.status

end Codec

theorem messagePack_lawful : MessagePack.codec.Lawful where
  descriptor _ h := (MessagePack.reads_descriptor h).decode
  store _ h := (MessagePack.reads_store h).decode
  index _ h := (MessagePack.reads_index h).decode
  status status _ := (MessagePack.reads_status status).decode
  header d := Nat.lt_of_le_of_lt (MessagePack.length_encodeDescriptor_le d) (by decide)

theorem descriptor_describes (codec : Codec) (s : SpilledChunk) : (s.descriptor codec).Describes (s.sections codec) :=
  ⟨rfl, rfl, rfl, rfl⟩

/-- Only a limit that is the largest number does not come back as it was: it comes back as none. -/
theorem limit?_descriptor (codec : Codec) {s : SpilledChunk} (h : s.sideLimit ≠ some unlimitedBytes) :
    (s.descriptor codec).limit? = s.sideLimit := by
  cases hl : s.sideLimit with
  | none => simp [Descriptor.limit?, SpilledChunk.descriptor, hl]
  | some limit =>
    have hne : limit ≠ unlimitedBytes := fun heq => h (by rw [hl, heq])
    simp [Descriptor.limit?, SpilledChunk.descriptor, hl, hne]

theorem reportedLimit_descriptor (codec : Codec) (s : SpilledChunk) (bytes : Array UInt8) :
    (SideBuffer.mk (s.descriptor codec).limit? bytes).reportedLimit = s.sideLimit.getD unlimitedBytes := by
  by_cases h : s.sideLimit = some unlimitedBytes
  · simp [SideBuffer.reportedLimit, Descriptor.limit?, SpilledChunk.descriptor, h]
  · rw [SideBuffer.reportedLimit, limit?_descriptor codec h]

namespace Reading

theorem bytesAt_eq {bytes part : List UInt8} {offset length : Nat} (h : slice? bytes offset length = some part)
    (position : Nat) : bytesAt offset length ⟨bytes, position⟩ = .ok (part, ⟨bytes, offset + length⟩) := by
  simp only [slice?] at h
  split at h
  next hlength =>
    cases h
    change (if ((bytes.drop offset).take length).length = length then pure _ else throw _ : Reading _)
      ⟨bytes, offset + ((bytes.drop offset).take length).length⟩ = _
    rw [if_pos hlength, hlength]
    rfl
  next => contradiction

theorem decoded_eq {α : Type} {r : Except String α} {a : α} (h : r = .ok a) (file : File) :
    decoded r file = .ok (a, file) := by
  subst h
  rfl

theorem sections_eq {header : List UInt8} {s : Sections} {d : Descriptor} (hd : d.Describes s) (position : Nat) :
    sections (align (4 + header.length)) d ⟨image header s, position⟩ =
      .ok (s, ⟨image header s, (image header s).length⟩) := by
  obtain ⟨hstore, hindex, hstatus, hside⟩ := slices_image header hd
  simp only [sections, bind, StateT.bind, Except.bind, bytesAt_eq hstore, bytesAt_eq hindex, bytesAt_eq hstatus,
    bytesAt_eq hside, length_image header hd, Descriptor.bodyLength, Nat.add_assoc]
  rfl

def restored (codec : Codec) (s : SpilledChunk) : Chunk :=
  { s.restore with side := ⟨(s.descriptor codec).limit?, s.payload⟩ }

variable {codec : Codec} (hcodec : codec.Lawful) {s : SpilledChunk} (h : codec.Fits s)
include hcodec h

theorem chunk_eq (position : Nat) :
    chunk codec ⟨s.image codec, position⟩ = .ok (restored codec s, ⟨s.image codec, (s.image codec).length⟩) := by
  have hlength := headerLength_image (hcodec.header (s.descriptor codec))
  have hheader := slice?_image_header (codec.descriptor.encode (s.descriptor codec)) (s.sections codec)
  have hdescriptor := hcodec.descriptor _ h.descriptor
  have hstore : codec.store.decode (s.sections codec).store = .ok s.store := hcodec.store _ h.store
  have hindex : codec.index.decode (s.sections codec).index = .ok s.index := hcodec.index _ h.index
  have hstatus : codec.status.decode (s.sections codec).status = .ok s.status := hcodec.status _ h.status
  simp only [chunk, bind, StateT.bind, Except.bind, SpilledChunk.image, bytesAt_eq (slice?_image_length _ _), hlength,
    bytesAt_eq hheader, decoded_eq hdescriptor, sections_eq (descriptor_describes codec s), decoded_eq hstore,
    decoded_eq hindex, decoded_eq hstatus]
  rfl

theorem chunks_eq (times position : Nat) : ∃ last, chunks codec times ⟨s.image codec, position⟩ =
    .ok (List.replicate times (restored codec s), ⟨s.image codec, last⟩) := by
  -- Reading moves the position only, so the induction is for every position.
  induction times generalizing position with
  | zero => exact ⟨position, rfl⟩
  | succ times ih =>
    obtain ⟨last, hrest⟩ := ih (s.image codec).length
    refine ⟨last, ?_⟩
    simp only [chunks, bind, StateT.bind, Except.bind, chunk_eq hcodec h, hrest]
    rfl

end Reading

/-- A chunk comes back from its file in every field, and any header with any four sections is read back at the
offsets that the lengths give. -/
theorem roundTrip {codec : Codec} (hcodec : codec.Lawful) {c : Chunk} (h : codec.Fits c.spill) :
    c.spill.restore = c ∧
      (∃ r : Chunk, ({ r with side.limit := c.side.limit } = c ∧ r.side.reportedLimit = c.side.reportedLimit) ∧
        (c.side.limit ≠ some unlimitedBytes → r = c) ∧
        ∀ times position, ∃ last, Reading.chunks codec times ⟨c.spill.image codec, position⟩ =
          .ok (List.replicate times r, ⟨c.spill.image codec, last⟩)) ∧
      MessagePack.codec.Lawful ∧
      ∀ (header : List UInt8) (s : Sections) (d : Descriptor), header.length < 0x100000000 → d.Describes s →
        header? (image header s) = some header ∧ sections? (image header s) d = some s ∧
          4 + header.length ≤ align (4 + header.length) ∧ d.Placed (align (4 + header.length)) ∧
          (image header s).length = align (4 + header.length) + d.bodyLength := by
  refine ⟨rfl, ⟨Reading.restored codec c.spill, ⟨rfl, reportedLimit_descriptor codec c.spill _⟩, fun hlimit => ?_,
    fun times position => ?_⟩, messagePack_lawful, fun header s d hheader hd => ?_⟩
  · rw [Reading.restored, limit?_descriptor codec hlimit]
    rfl
  · exact Reading.chunks_eq hcodec h times position
  · exact ⟨header?_image s hheader, sections?_image hd hheader, le_align _, d.placed (align_mod _),
      length_image header hd⟩

def mixedChunk : Chunk :=
  ((Chunk.empty 7 [.varLen, .float64] 3 (some 8)).load
    (.ofRows 5 2 #[#[.bytes [1, 2, 3], .null], #[.bytes [], .float64 0x7FF8000000000001]] none) none 0).state

theorem mixedChunk_fits : MessagePack.codec.Fits mixedChunk.spill := by
  have hstore : mixedChunk.store = ⟨[⟨.varLen, #[some ⟨0, 3⟩, some ⟨3, 0⟩, none]⟩,
    ⟨.float64, #[none, some 0x7FF8000000000001, none]⟩], #[rowId 5 0, rowId 5 1, 0]⟩ := by rfl
  constructor
  · show ∀ n ∈ MessagePack.fields (mixedChunk.spill.descriptor MessagePack.codec), MessagePack.IsWord n
    decide +kernel
  · show MessagePack.storeFormat.Fits mixedChunk.store
    rw [hstore]
    simp [MessagePack.storeFormat, MessagePack.CellFits]
  · show mixedChunk.index.size < 0x100000000
    decide +kernel
  · trivial

theorem roundTrip_mixedChunk :
    mixedChunk.rows = 2 ∧ MessagePack.codec.Lawful ∧ MessagePack.codec.Fits mixedChunk.spill ∧
      ∃ r, r = mixedChunk ∧ ∃ last, Reading.chunks MessagePack.codec 2 ⟨mixedChunk.spill.image MessagePack.codec, 1⟩ =
        .ok ([r, r], ⟨mixedChunk.spill.image MessagePack.codec, last⟩) := by
  obtain ⟨-, ⟨r, -, hr, hread⟩, hcodec, -⟩ := roundTrip messagePack_lawful mixedChunk_fits
  exact ⟨by decide +kernel, hcodec, mixedChunk_fits, r, hr (by decide), hread 2 1⟩

end Spill
end ChunkSort
