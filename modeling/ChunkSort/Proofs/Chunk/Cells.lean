import ChunkSort.Chunk.Basic
import ChunkSort.Proofs.Row

/-!
Cells and what they read as. A value that a cell showed once stays the same when payloads are pushed behind it.
-/

namespace ChunkSort

namespace SideBuffer

def Takes (b : SideBuffer) (n : Nat) : Prop := ∀ limit ∈ b.limit, b.used + n ≤ limit

theorem get_eq_ok_iff {b : SideBuffer} {ref : PayloadRef} {payload : List UInt8} :
    b.get ref = .ok payload ↔
      ref.offset + ref.length ≤ b.used ∧ (b.bytes.toList.drop ref.offset).take ref.length = payload := by
  unfold get
  split
  next hle => simp [hle, List.extract_eq_take_drop]
  next hlt => simp [hlt]

structure Grows (b : SideBuffer) (n : Nat) (b' : SideBuffer) : Prop where
  limit : b'.limit = b.limit
  used : b'.used = b.used + n
  bytes : b.bytes.toList <+: b'.bytes.toList

theorem fits_room_iff {b : SideBuffer} {n : Nat} (h : b.Takes 0) : fits b.room n = true ↔ b.Takes n := by
  unfold fits room Takes at *
  cases hl : b.limit with
  | none => simp
  | some limit =>
    have := h limit (by rw [hl]; rfl)
    simp
    omega

theorem Takes.mono {b : SideBuffer} {m n : Nat} (h : b.Takes n) (hmn : m ≤ n) : b.Takes m :=
  fun limit hl => Nat.le_trans (Nat.add_le_add_left hmn _) (h limit hl)

namespace Grows

theorem refl (b : SideBuffer) : b.Grows 0 b := ⟨rfl, rfl, List.prefix_rfl⟩

theorem trans {b b' b'' : SideBuffer} {m n : Nat} (h : b.Grows m b') (h' : b'.Grows n b'') : b.Grows (m + n) b'' :=
  ⟨h'.limit.trans h.limit, by rw [h'.used, h.used, Nat.add_assoc], h.bytes.trans h'.bytes⟩

theorem takes {b b' : SideBuffer} {m n : Nat} (h : b.Grows m b') (ht : b.Takes (m + n)) : b'.Takes n := by
  intro limit hl
  rw [h.limit] at hl
  have := ht limit hl
  rw [h.used]
  omega

theorem get {b b' : SideBuffer} {n : Nat} (h : b.Grows n b') {ref : PayloadRef} {payload : List UInt8}
    (hg : b.get ref = .ok payload) : b'.get ref = .ok payload := by
  obtain ⟨hle, rfl⟩ := get_eq_ok_iff.mp hg
  obtain ⟨more, hmore⟩ := h.bytes
  have hlen : ref.offset + ref.length ≤ b.bytes.toList.length := by rwa [Array.length_toList]
  rw [get_eq_ok_iff, h.used]
  refine ⟨by omega, ?_⟩
  rw [← hmore, List.drop_append_of_le_length (by omega), List.take_append_of_le_length (by rw [List.length_drop]; omega)]

end Grows

theorem push_of_takes {b : SideBuffer} {payload : List UInt8} (h : b.Takes payload.length) :
    ∃ ref b', b.push payload = some (ref, b') :=
  ⟨_, _, if_pos ((fits_room_iff (h.mono (Nat.zero_le _))).mpr h)⟩

theorem push_grows {b b' : SideBuffer} {payload : List UInt8} {ref : PayloadRef} (h : b.push payload = some (ref, b')) :
    b.Grows payload.length b' ∧ b'.get ref = .ok payload := by
  have hsize : (b.bytes ++ payload).size = b.bytes.size + payload.length := by
    rw [← Array.length_toList, Array.toList_appendList, List.length_append, Array.length_toList]
  unfold push at h
  split at h
  · cases h
    refine ⟨⟨rfl, hsize, payload, Array.toList_appendList.symm⟩, get_eq_ok_iff.mpr ⟨Nat.le_of_eq hsize.symm, ?_⟩⟩
    simp only [used, Array.toList_appendList, List.drop_left' (Array.length_toList ..), List.take_length]
  · cases h

end SideBuffer

namespace ColumnType

theorem decode_grows {side side' : SideBuffer} {n : Nat} (h : side.Grows n side') {type : ColumnType}
    {cell : Option type.Cell} {v : Value} (hd : type.decode side cell = .ok v) :
    type.decode side' cell = .ok v := by
  cases cell with
  | none => cases type <;> exact hd
  | some c =>
    cases type with
    | int64 | float64 => exact hd
    | varLen =>
      change (side.get c).map Value.bytes = _ at hd
      change (side'.get c).map Value.bytes = _
      cases hg : side.get c with
      | error e =>
        rw [hg] at hd
        cases hd
      | ok payload =>
        rw [hg] at hd
        rw [h.get hg]
        exact hd

theorem accepts_of_decode {side : SideBuffer} {type : ColumnType} {cell : Option type.Cell} {v : Value}
    (h : type.decode side cell = .ok v) : type.Accepts v := by
  cases cell with
  | none =>
    cases type <;> cases h <;> trivial
  | some c =>
    cases type with
    | int64 | float64 =>
      cases h
      trivial
    | varLen =>
      change (side.get c).map Value.bytes = _ at h
      cases hg : side.get c <;> rw [hg] at h <;> cases h
      trivial

theorem encode_of_accepts {type : ColumnType} {v : Value} (ha : type.Accepts v) {side : SideBuffer}
    (ht : side.Takes v.payloadLength) (column : Nat) : ∃ cell side', type.encode column side v = .ok (cell, side') := by
  cases v with
  | null => exact ⟨none, side, by cases type <;> rfl⟩
  | int64 n =>
    cases type with
    | int64 => exact ⟨_, _, rfl⟩
    | float64 | varLen => cases ha
  | float64 bits =>
    cases type with
    | float64 => exact ⟨_, _, rfl⟩
    | int64 | varLen => cases ha
  | bytes payload =>
    cases type with
    | int64 | float64 => cases ha
    | varLen =>
      obtain ⟨ref, side', hp⟩ := SideBuffer.push_of_takes ht
      exact ⟨some ref, side', by simp only [encode, hp]⟩

theorem encode_grows {type : ColumnType} {column : Nat} {side side' : SideBuffer} {v : Value} {cell : Option type.Cell}
    (h : type.encode column side v = .ok (cell, side')) :
    side.Grows v.payloadLength side' ∧ type.decode side' cell = .ok v := by
  cases v with
  | null => cases type <;> cases h <;> exact ⟨.refl _, rfl⟩
  | int64 n =>
    cases type with
    | int64 =>
      cases h
      exact ⟨.refl _, rfl⟩
    | float64 | varLen => cases h
  | float64 bits =>
    cases type with
    | float64 =>
      cases h
      exact ⟨.refl _, rfl⟩
    | int64 | varLen => cases h
  | bytes payload =>
    cases type with
    | int64 | float64 => cases h
    | varLen =>
      simp only [encode] at h
      split at h
      next ref side₁ hp =>
        cases h
        obtain ⟨hg, hread⟩ := SideBuffer.push_grows hp
        exact ⟨hg, congrArg (Except.map Value.bytes) hread⟩
      next => cases h

end ColumnType

namespace Column

def ref? : Column → Nat → Option PayloadRef
  | ⟨.varLen, cells⟩, slot => cells[slot]?.join
  | _, _ => none

def Shows (c : Column) (side : SideBuffer) (slot : Nat) (v : Value) : Prop :=
  ∃ cell, c.cells[slot]? = some cell ∧ c.type.decode side cell = .ok v

def valueAt (c : Column) (side : SideBuffer) (slot : Nat) : Value :=
  match c.cells[slot]? with
  | none => .null
  | some cell => (c.type.decode side cell).toOption.getD .null

theorem Shows.valueAt_eq {c : Column} {side : SideBuffer} {slot : Nat} {v : Value} (h : c.Shows side slot v) :
    c.valueAt side slot = v := by
  obtain ⟨cell, hc, hd⟩ := h
  simp only [valueAt, hc, hd, Except.toOption, Option.getD_some]

theorem Shows.accepts {c : Column} {side : SideBuffer} {slot : Nat} {v : Value} (h : c.Shows side slot v) :
    c.type.Accepts v := by
  obtain ⟨cell, _, hd⟩ := h
  exact ColumnType.accepts_of_decode hd

theorem Shows.grows {c : Column} {side side' : SideBuffer} {slot n : Nat} {v : Value} (h : c.Shows side slot v)
    (hg : side.Grows n side') : c.Shows side' slot v := by
  obtain ⟨cell, hc, hd⟩ := h
  exact ⟨cell, hc, ColumnType.decode_grows hg hd⟩

theorem Shows.resolves {c : Column} {side : SideBuffer} {slot : Nat} {v : Value} (h : c.Shows side slot v) :
    ∀ ref ∈ c.ref? slot, ref.offset + ref.length ≤ side.used := by
  obtain ⟨type, cells⟩ := c
  obtain ⟨cell, hc, hd⟩ := h
  intro ref href
  cases type with
  | int64 | float64 => cases href
  | varLen =>
    simp only at hc hd
    simp only [ref?, hc, Option.join_some] at href
    cases href
    by_contra hlt
    simp only [ColumnType.decode, SideBuffer.get, if_neg hlt, Except.map, reduceCtorEq] at hd

theorem shows_valueAt {c : Column} {side : SideBuffer} {slot : Nat} (hs : slot < c.cells.size)
    (href : ∀ ref ∈ c.ref? slot, ref.offset + ref.length ≤ side.used) : c.Shows side slot (c.valueAt side slot) := by
  suffices h : ∃ v, c.Shows side slot v by
    obtain ⟨v, hv⟩ := h
    rwa [hv.valueAt_eq]
  obtain ⟨type, cells⟩ := c
  simp only at hs
  have hc := Array.getElem?_eq_getElem hs
  cases hcell : cells[slot] with
  | none =>
    refine ⟨.null, none, hcell ▸ hc, ?_⟩
    cases type <;> rfl
  | some cell =>
    rw [hcell] at hc
    cases type with
    | int64 => exact ⟨.int64 cell, some cell, hc, rfl⟩
    | float64 => exact ⟨.float64 cell, some cell, hc, rfl⟩
    | varLen =>
      have hle := href cell (by simp only [ref?, hc, Option.join_some]; rfl)
      have hg := SideBuffer.get_eq_ok_iff.mpr ⟨hle, rfl⟩
      exact ⟨.bytes _, some cell, hc, congrArg (Except.map Value.bytes) hg⟩

/-- `c'` is `c` with other cells in the `n` slots from `start` on. -/
structure Rewritten (start n : Nat) (c c' : Column) : Prop where
  cells : ∃ cells : Array (Option c.type.Cell), c' = ⟨c.type, cells⟩ ∧ cells.size = c.cells.size ∧
    ∀ slot, slot < start ∨ start + n ≤ slot → cells[slot]? = c.cells[slot]?

namespace Rewritten

variable {start n : Nat} {c c' : Column} (h : Rewritten start n c c')
include h

theorem type_eq : c'.type = c.type := by
  obtain ⟨cells, rfl, _, _⟩ := h.cells
  rfl

theorem size_eq : c'.cells.size = c.cells.size := by
  obtain ⟨cells, rfl, hs, _⟩ := h.cells
  exact hs

theorem ref?_eq {slot : Nat} (hs : slot < start ∨ start + n ≤ slot) : c'.ref? slot = c.ref? slot := by
  obtain ⟨cells, rfl, _, he⟩ := h.cells
  obtain ⟨type, old⟩ := c
  cases type with
  | int64 | float64 => rfl
  | varLen => exact congrArg Option.join (he slot hs)

theorem shows_iff {side : SideBuffer} {slot : Nat} {v : Value} (hs : slot < start ∨ start + n ≤ slot) :
    c'.Shows side slot v ↔ c.Shows side slot v := by
  obtain ⟨cells, rfl, _, he⟩ := h.cells
  simp only [Shows, he slot hs]

end Rewritten
end Column
end ChunkSort
