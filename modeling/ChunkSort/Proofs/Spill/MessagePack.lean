import ChunkSort.Spill.Codec
import ChunkSort.Proofs.PowerOfTwo

/-!
What is encoded is decoded again. A reader takes exactly the bytes of a value off the front, whatever comes behind
them, so the readers of parts compose to those of a whole.
-/

namespace ChunkSort.MessagePack

/-- The reader takes these bytes off the front and no more. -/
def Reads {α : Type} (r : Reader α) (bytes : List UInt8) (a : α) : Prop := ∀ rest, r (bytes ++ rest) = .ok (a, rest)

namespace Reads

variable {α β : Type} {r : Reader α} {bytes bytes' : List UInt8} {a : α}

theorem pure (a : α) : Reads (Pure.pure a) [] a := fun _ => rfl

theorem bind {f : α → Reader β} {b : β} (h : Reads r bytes a) (hf : Reads (f a) bytes' b) :
    Reads (r >>= f) (bytes ++ bytes') b := by
  intro rest
  show Except.bind (r _) _ = _
  rw [List.append_assoc, h]
  exact hf rest

theorem bind_pure {f : α → Reader β} {b : β} (h : Reads r bytes a) (hf : f a = Pure.pure b) : Reads (r >>= f) bytes b := by
  have hlast : Reads (f a) [] b := by
    rw [hf]
    exact .pure b
  have key := h.bind hlast
  rwa [List.append_nil] at key

theorem decode (h : Reads r bytes a) : r.decode bytes = .ok a := by
  have key := h []
  rw [List.append_nil] at key
  rw [Reader.decode, key]
  rfl

theorem byte (b : UInt8) : Reads Reader.byte [b] b := fun _ => rfl

theorem cons {f : UInt8 → Reader β} {b : UInt8} {v : β} (h : Reads (f b) bytes v) :
    Reads (Reader.byte >>= f) (b :: bytes) v := (byte b).bind h

theorem expect (b : UInt8) : Reads (Reader.expect b) [b] () := cons (by rw [if_pos rfl]; exact .pure ())

theorem expect_bind {f : Unit → Reader β} {b : UInt8} {v : β} (h : Reads (f ()) bytes v) :
    Reads (Reader.expect b >>= f) (b :: bytes) v := (expect b).bind h

end Reads

/-! ### Numbers -/

@[simp] theorem length_bigEndian (width n : Nat) : (bigEndian width n).length = width := by
  induction width generalizing n with
  | zero => rfl
  | succ width ih => rw [bigEndian, List.length_append, ih, List.length_singleton]

theorem bigEndianValue_concat (bytes : List UInt8) (b : UInt8) :
    bigEndianValue (bytes ++ [b]) = 256 * bigEndianValue bytes + b.toNat := by
  rw [bigEndianValue, List.foldl_append]
  rfl

theorem bigEndianValue_bigEndian {width n : Nat} (h : n < 1 <<< (8 * width)) :
    bigEndianValue (bigEndian width n) = n := by
  induction width generalizing n with
  | zero =>
    have : n = 0 := by simpa using h
    subst this
    rfl
  | succ width ih =>
    have hdiv : n / 0x100 < 1 <<< (8 * width) := by
      rw [Nat.mul_succ, Nat.shiftLeft_add] at h
      omega
    rw [bigEndian, bigEndianValue_concat, ih hdiv, UInt8.toNat_ofNat']
    omega

theorem Reads.digits (width : Nat) {n : Nat} (h : n < 1 <<< (8 * width)) : Reads (Reader.digits width) (bigEndian width n) n := by
  intro rest
  have hlength := length_bigEndian width n
  show (if ((bigEndian width n ++ rest).take width).length < width then throw _ else _ : Reader Nat)
    (bigEndian width n ++ rest) = _
  rw [List.take_left' hlength, if_neg (by omega)]
  show Except.ok (bigEndianValue (bigEndian width n), (bigEndian width n ++ rest).drop width) = _
  rw [List.drop_left' hlength, bigEndianValue_bigEndian h]

theorem nat_spec {n : Nat} (h : IsWord n) : ∃ b bytes, nat n = b :: bytes ∧
    (b.toNat < 0x80 ∨ 0xcc ≤ b.toNat ∧ b.toNat ≤ 0xcf) ∧ Reads (Reader.natFrom b) bytes n := by
  unfold nat
  split
  next hn =>
    have hb : (UInt8.ofNat n).toNat = n := by
      rw [UInt8.toNat_ofNat']
      omega
    refine ⟨_, _, rfl, .inl (hb.symm ▸ hn), ?_⟩
    rw [Reader.natFrom, hb, if_pos hn]
    exact .pure n
  next =>
    split
    next hn => exact ⟨_, _, rfl, .inr ⟨by decide, by decide⟩, .digits 1 hn⟩
    next =>
      split
      next hn => exact ⟨_, _, rfl, .inr ⟨by decide, by decide⟩, .digits 2 hn⟩
      next =>
        split
        next hn => exact ⟨_, _, rfl, .inr ⟨by decide, by decide⟩, .digits 4 hn⟩
        next => exact ⟨_, _, rfl, .inr ⟨by decide, by decide⟩, .digits 8 h⟩

theorem Reads.nat {n : Nat} (h : IsWord n) : Reads Reader.nat (nat n) n := by
  obtain ⟨b, bytes, heq, -, hread⟩ := nat_spec h
  rw [heq]
  exact .cons hread

theorem length_nat_le (n : Nat) : (nat n).length ≤ 9 := by
  unfold nat
  repeat' split
  all_goals simp

theorem Reads.signedDigits (width : Nat) {i : Int} (hneg : i < 0) (hlow : -((1 <<< (8 * width) : Nat) : Int) ≤ 2 * i) :
    Reads (Reader.signedDigits width) (bigEndian width (i + (1 <<< (8 * width) : Nat)).toNat) i := by
  refine (Reads.digits width (by omega)).bind_pure ?_
  rw [if_neg (by omega)]
  congr 1
  omega

theorem int_spec {i : Int} (hlow : -0x8000000000000000 ≤ i) (hhigh : i < 0x8000000000000000) :
    ∃ b bytes, int i = b :: bytes ∧ b ≠ 0xc0 ∧ Reads (Reader.intFrom b) bytes i := by
  unfold int
  split
  next hpos =>
    obtain ⟨b, bytes, heq, hb, hread⟩ := nat_spec (n := i.toNat) (by omega)
    refine ⟨b, bytes, heq, by rintro rfl; revert hb; decide, ?_⟩
    rw [Reader.intFrom, if_pos (by omega)]
    refine hread.bind_pure ?_
    rw [Int.toNat_of_nonneg hpos]
  next hneg =>
    have hlt : i < 0 := Int.not_le.mp hneg
    split
    next hi =>
      have hb : (UInt8.ofNat (i + 0x100).toNat).toNat = (i + 0x100).toNat := by
        rw [UInt8.toNat_ofNat']
        omega
      refine ⟨_, _, rfl, fun heq => ?_, ?_⟩
      · rw [heq] at hb
        have : (0xc0 : UInt8).toNat = 192 := rfl
        omega
      · rw [Reader.intFrom, hb, if_neg (by omega), if_pos (by omega)]
        have : ((i + 0x100).toNat : Int) - 0x100 = i := by omega
        rw [this]
        exact .pure i
    next =>
      split
      next hi => exact ⟨_, _, rfl, by decide, .signedDigits 1 hlt (by simpa using by omega)⟩
      next =>
        split
        next hi => exact ⟨_, _, rfl, by decide, .signedDigits 2 hlt (by simpa using by omega)⟩
        next =>
          split
          next hi => exact ⟨_, _, rfl, by decide, .signedDigits 4 hlt (by simpa using by omega)⟩
          next => exact ⟨_, _, rfl, by decide, .signedDigits 8 hlt (by simpa using by omega)⟩

/-! ### Arrays, alternatives and optional values -/

section

variable {α : Type} {item : Reader α} {encode : α → List UInt8}

theorem arrayHeader_spec {length : Nat} (h : IsLength length) : ∃ b bytes, arrayHeader length = b :: bytes ∧ b ≠ 0xc0 ∧
    Reads Reader.arrayHeader (b :: bytes) length := by
  unfold arrayHeader
  split
  next hlength =>
    have hb : (UInt8.ofNat (0x90 + length)).toNat = 0x90 + length := by
      rw [UInt8.toNat_ofNat']
      omega
    refine ⟨_, _, rfl, fun heq => ?_, .cons ?_⟩
    · rw [heq] at hb
      have : (0xc0 : UInt8).toNat = 192 := rfl
      omega
    · rw [hb, if_pos (by omega), Nat.add_sub_cancel_left]
      exact .pure length
  next =>
    split
    next hlength => exact ⟨_, _, rfl, by decide, .cons (.digits 2 hlength)⟩
    next => exact ⟨_, _, rfl, by decide, .cons (.digits 4 h)⟩

theorem Reads.arrayHeader {length : Nat} (h : IsLength length) : Reads Reader.arrayHeader (arrayHeader length) length := by
  obtain ⟨b, bytes, heq, -, hread⟩ := arrayHeader_spec h
  rwa [heq]

theorem Reads.items {l : List α} (h : ∀ a ∈ l, Reads item (encode a) a) :
    Reads (Reader.items item l.length) (l.map encode).flatten l := by
  induction l with
  | nil => exact .pure []
  | cons a l ih =>
    obtain ⟨ha, hl⟩ := List.forall_mem_cons.mp h
    exact ha.bind ((ih hl).bind_pure rfl)

theorem Reads.array {l : List α} (hlength : IsLength l.length) (h : ∀ a ∈ l, Reads item (encode a) a) :
    Reads (Reader.array item) (array (l.map encode)) l := by
  rw [MessagePack.array, List.length_map]
  exact (Reads.arrayHeader hlength).bind (.items h)

theorem Reads.tuple {length : Nat} (h : IsLength length) : Reads (Reader.tuple length) (MessagePack.arrayHeader length) () :=
  (Reads.arrayHeader h).bind_pure (if_pos rfl)

theorem Reads.variant {number : Nat} (h : IsWord number) : Reads Reader.variant (0x81 :: MessagePack.nat number) number :=
  .expect_bind (.nat h)

theorem Reads.optional {o : Option α} (h : ∀ a, o = some a → Reads item (encode a) a)
    (hhead : ∀ a, o = some a → ∃ b bytes, encode a = b :: bytes ∧ b ≠ 0xc0) :
    Reads (Reader.optional item) (optional encode o) o := by
  cases o with
  | none => exact fun _ => rfl
  | some a =>
    intro rest
    obtain ⟨b, bytes, heq, hb⟩ := hhead a rfl
    have hne : ¬(encode a ++ rest).head? = some 0xc0 := by simpa [heq] using hb
    have hread := (h a rfl).bind_pure (f := fun a => Pure.pure (some a)) rfl rest
    show (if (encode a ++ rest).head? = some 0xc0 then _ else _ : Reader (Option α)) (encode a ++ rest) = _
    rw [if_neg hne]
    exact hread

end

/-! ### The parts of a chunk -/

theorem typeNumber_isWord (type : ColumnType) : IsWord (typeNumber type) := by
  cases type <;> decide

theorem reads_numberedType (type : ColumnType) : Reads Reader.numberedType (0x81 :: nat (typeNumber type)) type := by
  refine (Reads.variant (typeNumber_isWord type)).bind_pure ?_
  cases type <;> rfl

theorem reads_type (type : ColumnType) : Reads Reader.type (encodeType type) type :=
  (reads_numberedType type).bind ((Reads.expect 0xc0).bind_pure rfl)

theorem reads_cell {type : ColumnType} {cell : type.Cell} (h : CellFits type cell) :
    (∃ b bytes, encodeCell type cell = b :: bytes ∧ b ≠ 0xc0) ∧ Reads (Reader.cell type) (encodeCell type cell) cell := by
  cases type with
  | int64 =>
    obtain ⟨b, bytes, heq, hb, hread⟩ := int_spec (Int64.le_toInt cell) (Int64.toInt_lt cell)
    refine ⟨⟨b, bytes, heq, hb⟩, ?_⟩
    rw [encodeCell, heq]
    refine (Reads.cons hread).bind_pure ?_
    rw [Int64.ofInt_toInt]
  | float64 =>
    refine ⟨⟨_, _, rfl, by decide⟩, .expect_bind ?_⟩
    refine (Reads.digits 8 cell.toNat_lt).bind_pure ?_
    rw [UInt64.ofNat_toNat]
  | varLen =>
    refine ⟨⟨0x92, _, rfl, by decide⟩, ?_⟩
    have hread := (Reads.nat h.1).bind
      (f := fun offset => do return PayloadRef.mk offset (← Reader.nat)) ((Reads.nat h.2).bind_pure rfl)
    have hbytes : encodeCell .varLen cell = arrayHeader 2 ++ (nat cell.offset ++ nat cell.length) := by
      simp [encodeCell, array]
    rw [hbytes]
    exact (Reads.tuple (by decide)).bind hread

theorem reads_column {c : Column} (h : IsLength c.cells.size ∧ ∀ cell, some cell ∈ c.cells → CellFits c.type cell) :
    Reads Reader.column (encodeColumn c) c := by
  have hcells : Reads (Reader.array (Reader.optional (Reader.cell c.type)))
      (array (c.cells.toList.map (optional (encodeCell c.type)))) c.cells.toList := by
    refine .array (by simpa using h.1) fun o ho => .optional (fun cell hcell => ?_) fun cell hcell => ?_
    · exact (reads_cell (h.2 cell (by simpa [← hcell] using ho))).2
    · exact (reads_cell (h.2 cell (by simpa [← hcell] using ho))).1
  exact (reads_numberedType c.type).bind (hcells.bind_pure rfl)

theorem reads_store {s : ColumnStore} (h : storeFormat.Fits s) : Reads Reader.store (encodeStore s) s := by
  obtain ⟨hcolumns, hids, hfits⟩ := h
  have htypes : Reads (Reader.array Reader.type) (array (s.schema.map encodeType)) s.schema :=
    .array (by simpa [ColumnStore.schema] using hcolumns) fun type _ => reads_type type
  have hcols : Reads (Reader.array Reader.column) (array (s.columns.map encodeColumn)) s.columns :=
    .array hcolumns fun c hc => reads_column (hfits c hc)
  have hnumbers : Reads (Reader.array Reader.nat) (array ((s.ids.toList.map UInt64.toNat).map nat))
      (s.ids.toList.map UInt64.toNat) := by
    refine .array (by simpa using hids) fun n hn => .nat ?_
    obtain ⟨id, -, rfl⟩ := List.mem_map.mp hn
    exact id.toNat_lt
  have hbytes : encodeStore s = arrayHeader 3 ++ (array (s.schema.map encodeType) ++
      (array (s.columns.map encodeColumn) ++ array ((s.ids.toList.map UInt64.toNat).map nat))) := by
    simp [encodeStore, array, Function.comp_def]
  rw [hbytes]
  refine (Reads.tuple (by decide)).bind (htypes.bind (hcols.bind (hnumbers.bind_pure ?_)))
  simp [Function.comp_def]

theorem reads_index {index : Array UInt32} (h : IsLength index.size) : Reads Reader.index (encodeIndex index) index := by
  have hnumbers : Reads (Reader.array Reader.nat) (array ((index.toList.map UInt32.toNat).map nat))
      (index.toList.map UInt32.toNat) := by
    refine .array (by simpa using h) fun n hn => .nat ?_
    obtain ⟨e, -, rfl⟩ := List.mem_map.mp hn
    exact Nat.lt_trans e.toNat_lt (by decide)
  have hbytes : encodeIndex index = array ((index.toList.map UInt32.toNat).map nat) := by
    simp [encodeIndex, Function.comp_def]
  rw [hbytes]
  refine hnumbers.bind_pure ?_
  simp [Function.comp_def]

theorem reads_status (status : Status) : Reads Reader.status (encodeStatus status) status := by
  have hnumber : IsWord (statusNumber status) := by
    cases status <;> decide
  refine (Reads.variant hnumber).bind ((Reads.expect 0xc0).bind_pure ?_)
  cases status <;> rfl

theorem reads_descriptor {d : Spill.Descriptor} (h : ∀ n ∈ fields d, IsWord n) :
    Reads Reader.descriptor (encodeDescriptor d) d :=
  (Reads.array (by simp [fields]) fun n hn => .nat (h n hn)).bind_pure rfl

theorem length_encodeDescriptor_le (d : Spill.Descriptor) : (encodeDescriptor d).length ≤ 73 := by
  have hflatten (l : List Nat) : (l.map nat).flatten.length ≤ 9 * l.length := by
    induction l with
    | nil => exact Nat.zero_le _
    | cons n l ih =>
      have := length_nat_le n
      rw [List.map_cons, List.flatten_cons, List.length_append, List.length_cons]
      omega
  have hheader : (arrayHeader ((fields d).map nat).length).length = 1 := rfl
  rw [encodeDescriptor, array, List.length_append, hheader]
  exact Nat.add_le_add_left (hflatten (fields d)) 1

end ChunkSort.MessagePack
