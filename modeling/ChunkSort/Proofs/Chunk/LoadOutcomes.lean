import Mathlib
import ChunkSort.Proofs.Chunk.WriteOnce

/-!
What loads leave behind. A load that succeeds has taken the longest run of visible rows that fits, and stands in front
of the next one. A load that fails has taken nothing: every candidate is checked before slots are reserved, and after
that nothing can fail any more, so it does not matter what a copy that stops half way would leave of the chunk.
-/

namespace ChunkSort

namespace Batch

theorem visibleRows_eq_append (b : Batch) {offset n : Nat} (h : offset + n ≤ b.rows) :
    b.visibleRows offset = b.visibleAmong n offset ++ b.visibleRows (offset + n) := by
  have hsplit : b.rows - offset = n + (b.rows - (offset + n)) := by omega
  rw [visibleRows, visibleRows, visibleAmong, visibleAmong, visibleAmong, hsplit, ← List.range'_append_1,
    List.filter_append]

/-- The answer of a load accounts for the batch rows from `offset` on, if it placed the first visible ones. -/
structure Accounts (b : Batch) (offset : Nat) (o : LoadOutcome) : Prop where
  inside : offset ≤ b.rows
  count : o.loaded + o.skipped + o.remaining = b.rows - offset
  skipped : (List.range' offset o.consumed).countP (!b.visible ·) = o.skipped
  next : (b.visibleRows offset)[o.loaded]?.getD b.rows = offset + o.consumed
  status : o.status = if o.remaining = 0 then .success else .noSpace

theorem outcome_accounts (b : Batch) {offset wanted loaded : Nat} (ho : offset ≤ b.rows)
    (hl : loaded ≤ ((b.visibleRows offset).take wanted).length) :
    b.Accounts offset (b.outcome offset wanted loaded) := by
  obtain ⟨hlow, hhigh, hvisible⟩ := b.stop_bounds ho hl
  have hsplit := b.visibleRows_stop ho hl
  have htaken : ((b.visibleRows offset).take loaded).length = loaded :=
    List.length_take_of_le (Nat.le_trans hl (List.length_take_le' ..))
  have hconsumed := b.outcome_consumed ho hl
  have hstatus : (b.outcome offset wanted loaded).status =
      if b.stop offset wanted loaded = b.rows then .success else .noSpace := rfl
  have hskipped : (b.outcome offset wanted loaded).skipped = b.stop offset wanted loaded - offset - loaded := rfl
  have hremaining : (b.outcome offset wanted loaded).remaining = b.rows - b.stop offset wanted loaded := rfl
  have hloaded : (b.outcome offset wanted loaded).loaded = loaded := rfl
  generalize b.outcome offset wanted loaded = o at *
  generalize b.stop offset wanted loaded = stop at *
  refine ⟨ho, by omega, ?skipped, ?next, ?status⟩
  case skipped =>
    have hpassed := b.visibleRows_eq_append (hconsumed.symm ▸ hhigh)
    rw [hconsumed, hsplit] at hpassed
    have hcount := congrArg List.length (List.append_cancel_right hpassed)
    have hsum : (List.range' offset o.consumed).length = _ := List.length_eq_countP_add_countP b.visible
    rw [htaken, visibleAmong, ← List.countP_eq_length_filter] at hcount
    simp only [List.length_range', ← hcount, decide_not, Bool.decide_eq_true] at hsum
    have hparts : o.consumed = o.loaded + o.skipped := rfl
    omega
  case next =>
    rw [hloaded, hsplit, List.getElem?_append_right htaken.le, htaken, Nat.sub_self, hconsumed]
    rcases Nat.lt_or_eq_of_le hhigh with hlt | rfl
    · rw [b.visibleRows_of_visible hlt (hvisible hlt)]
      rfl
    · rw [visibleRows_rows]
      rfl
  case status =>
    rw [hstatus]
    exact if_congr (by omega) rfl rfl

end Batch

theorem SourceRow.Gives.value_eq {source source' : SourceRow} {schema : List ColumnType} {row : Row}
    (h : source.Gives schema row) (h' : source'.Gives schema row) {column : Nat} (hc : column < schema.length) :
    source.value column = source'.value column := by
  have hlt : column < row.values.length := h.fits.length_eq ▸ hc
  have hv := h.values column _ (List.getElem?_eq_getElem hlt)
  have hv' := h'.values column _ (List.getElem?_eq_getElem hlt)
  rw [Nat.zero_add] at hv hv'
  exact hv.trans hv'.symm

namespace Chunk

/-! ### Reserved slots are written -/

theorem holds_of_gives {c : Chunk} {slot : Nat} {source : SourceRow} {content : Row} (hs : slot < c.rows)
    (h : (c.recordAt slot).toSource.Gives c.schema content) (h' : source.Gives c.schema content) :
    c.Holds slot source := by
  refine ⟨c.recordAt slot, content.id, if_pos hs, h.id, h'.id, fun column hcolumn => ?_⟩
  have hlt : column < content.values.length := h.fits.length_eq ▸ hcolumn
  have hv := h.values column _ (List.getElem?_eq_getElem hlt)
  rw [Nat.zero_add] at hv
  exact ⟨content.values[column], hv, (if_pos hs).trans hv, (h'.value_eq h hcolumn).trans hv⟩

theorem Holds.id_eq {c : Chunk} {slot : Nat} {source : SourceRow} {id : UInt64} (h : c.Holds slot source)
    (hid : source.id = .ok id) : (c.recordAt slot).id = .ok id := by
  obtain ⟨_, id', hr, hrid, hsource, _⟩ := h
  simp only [record?, Option.ite_none_right_eq_some, Option.some.injEq] at hr
  obtain ⟨_, rfl⟩ := hr
  exact hrid.trans (hsource.symm.trans hid)

structure Reservation.Written (r : Reservation) (filled : Chunk) : Prop where
  fill : r.chunk.fill r.slots.start r.rows = .ok filled
  reserved : r.chunk.rows = r.slots.stop
  rows : filled.rows = r.slots.stop
  length : r.slots.start + r.rows.length = r.slots.stop
  holds : ∀ i source, r.rows[i]? = some source → filled.Holds (r.slots.start + i) source

namespace Reserves

variable {c filled : Chunk} {b : Batch} {projection : Option (List Nat)} {offset taken : Nat} {r : Reservation}
  {contents : List Row} (h : c.Reserves b projection offset r contents taken filled)
include h

theorem holds {i row : Nat} (hi : ((b.visibleRows offset).take taken)[i]? = some row) :
    filled.Holds (c.rows + i) (b.source projection row) := by
  obtain ⟨hlt, rfl⟩ := List.getElem?_eq_some_iff.mp hi
  have hlt' : i < (contents.take taken).length := h.placed.length_eq ▸ hlt
  have hslot : c.rows + i < filled.rows := h.appended.rows ▸ Nat.add_lt_add_left hlt' _
  have hgives := h.appended.wellFormed.gives hslot
  have hsource := h.placed.get hlt hlt'
  simp only [List.get_eq_getElem, ← h.appended.schema] at hsource
  rw [h.appended.rowAt_added i _ (List.getElem?_eq_getElem hlt')] at hgives
  exact holds_of_gives hslot hgives hsource

theorem written : r.Written filled := by
  have hlength : (contents.take taken).length = taken := List.length_take_of_le h.taken_le_contents
  refine ⟨h.fill, ?_, ?_, ?_, fun i source hi => ?_⟩
  · rw [h.chunk, h.slots]
  · rw [h.appended.rows, hlength, h.slots]
  · rw [h.rows, List.length_map, h.placed.length_eq, hlength, h.slots]
  · rw [h.rows, List.getElem?_map, Option.map_eq_some_iff] at hi
    obtain ⟨row, hrow, rfl⟩ := hi
    rw [h.slots]
    exact h.holds hrow

end Reserves

/-- A load that changes the chunk step by step: its slots stay reserved when a row cannot be written. What a copy that
stops half way leaves of the chunk is up to `torn`. -/
def loadInPlace (torn : Chunk → Chunk) (c : Chunk) (b : Batch) (projection : Option (List Nat)) (offset : Nat)
    (schedule : Schedule := {}) : Attempt Chunk LoadOutcome :=
  match loadViolation? b offset with
  | some violation => ⟨c, .error (.contractViolation violation)⟩
  | none =>
    match (c.widthError? b projection).elim (c.reservation b projection offset schedule) .error with
    | .error cause => ⟨c.withStatus .fault, .error (.fault c.id none cause)⟩
    | .ok r =>
      match r.chunk.fill r.slots.start r.rows with
      | .error cause => ⟨(torn r.chunk).withStatus .fault, .error (.fault c.id none cause)⟩
      | .ok filled =>
        let o := b.outcome offset c.freeRows (r.slots.stop - r.slots.start)
        ⟨filled.withStatus o.status, .ok o⟩

inductive LoadEnd (c : Chunk) (b : Batch) (projection : Option (List Nat)) (offset : Nat) :
    Attempt Chunk LoadOutcome → Prop where
  | refused (violation : Violation) : LoadEnd c b projection offset ⟨c, .error (.contractViolation violation)⟩
  | fault (cause : DataError) : LoadEnd c b projection offset ⟨c.withStatus .fault, .error (.fault c.id none cause)⟩
  | filled {r : Reservation} {contents : List Row} {taken : Nat} {filled : Chunk} (inside : offset ≤ b.rows)
      (reserved : c.Reserves b projection offset r contents taken filled) :
      LoadEnd c b projection offset
        ⟨filled.withStatus (b.outcome offset c.freeRows taken).status, .ok (b.outcome offset c.freeRows taken)⟩

theorem loadInPlace_end {c : Chunk} (hc : c.WellFormed) (torn : Chunk → Chunk) (b : Batch)
    (projection : Option (List Nat)) (offset : Nat) (schedule : Schedule) :
    c.LoadEnd b projection offset (c.loadInPlace torn b projection offset schedule) := by
  unfold loadInPlace
  cases hviolation : loadViolation? b offset with
  | some violation => exact .refused violation
  | none =>
    cases c.widthError? b projection with
    | some cause => exact .fault cause
    | none =>
      have hspec := reservation_spec hc b projection offset schedule
      simp only [Option.elim]
      cases hr : c.reservation b projection offset schedule with
      | error cause => exact .fault cause
      | ok r =>
        obtain ⟨contents, taken, filled, hreserves⟩ := hspec.of_ok hr
        have hstop : r.slots.stop - r.slots.start = taken := by rw [hreserves.slots, Nat.add_sub_cancel_left]
        simp only [hreserves.fill, hstop]
        exact .filled (le_rows_of_loadViolation hviolation) hreserves

theorem loadInPlace_eq_load {c : Chunk} (hc : c.WellFormed) (torn : Chunk → Chunk) (b : Batch)
    (projection : Option (List Nat)) (offset : Nat) (schedule : Schedule) :
    c.loadInPlace torn b projection offset schedule = c.load b projection offset schedule := by
  unfold loadInPlace load
  cases loadViolation? b offset with
  | some violation => rfl
  | none =>
    cases c.widthError? b projection with
    | some cause => rfl
    | none =>
      have hspec := reservation_spec hc b projection offset schedule
      simp only [Option.elim, place_eq_reservation]
      cases hr : c.reservation b projection offset schedule with
      | error cause => rfl
      | ok r =>
        obtain ⟨contents, taken, filled, hreserves⟩ := hspec.of_ok hr
        simp only [Except.bind, hreserves.fill, Except.map]

theorem load_end {c : Chunk} (hc : c.WellFormed) (b : Batch) (projection : Option (List Nat)) (offset : Nat)
    (schedule : Schedule) : c.LoadEnd b projection offset (c.load b projection offset schedule) := by
  rw [← loadInPlace_eq_load hc clear]
  exact loadInPlace_end hc clear b projection offset schedule

/-! ### What a load leaves and answers -/

theorem getElem?_entries {c : Chunk} {position : Nat} (h : position < c.rows) :
    c.entries[position]? = c.index[position]? := by
  rw [entries, List.getElem?_take_of_lt h, Array.getElem?_toList]

theorem Appended.index_below {c c' : Chunk} {contents : List Row} (h : c.Appended contents c') (hc : c.WellFormed)
    {position : Nat} (hp : position < c.rows) : c'.index[position]? = c.index[position]? := by
  have hp' : position < c'.rows := h.rows ▸ Nat.lt_add_right _ hp
  rw [← getElem?_entries hp', h.entries, List.getElem?_append_left (by rwa [hc.length_entries]), getElem?_entries hp]

theorem Appended.index_added {c c' : Chunk} {contents : List Row} (h : c.Appended contents c') (hc : c.WellFormed)
    {i : Nat} (hi : i < contents.length) : c'.index[c.rows + i]? = some (UInt32.ofNat (c.rows + i)) := by
  have hp' : c.rows + i < c'.rows := h.rows ▸ Nat.add_lt_add_left hi _
  rw [← getElem?_entries hp', h.entries, List.getElem?_append_right (by rw [hc.length_entries]; omega),
    hc.length_entries, Nat.add_sub_cancel_left, List.getElem?_map, List.getElem?_range' hi, Nat.one_mul, Option.map_some]

theorem recordAt_value_outside (c : Chunk) {slot column : Nat} (h : c.schema.length ≤ column) :
    (c.recordAt slot).value column = .error (.columnOutOfRange column c.schema.length) := by
  have hlength : c.store.columns.length = c.schema.length := by
    rw [Chunk.schema, ColumnStore.schema, List.length_map]
  rw [Record.value, recordAt, ColumnStore.value, List.getElem?_eq_none (hlength ▸ h)]
  dsimp only
  rw [hlength]

theorem Appended.record_below {c c' : Chunk} {contents : List Row} (h : c.Appended contents c') (hc : c.WellFormed)
    {slot : Nat} (hs : slot < c.rows) : (c'.recordAt slot).id = (c.recordAt slot).id ∧
      ∀ column, (c'.recordAt slot).value column = (c.recordAt slot).value column := by
  have hgives := hc.gives hs
  have hgives' := h.wellFormed.gives (h.rows ▸ Nat.lt_add_right _ hs : slot < c'.rows)
  rw [h.rowAt_below slot hs, h.schema] at hgives'
  refine ⟨hgives'.id.trans hgives.id.symm, fun column => ?_⟩
  rcases Nat.lt_or_ge column c.schema.length with hcolumn | hcolumn
  · exact hgives'.value_eq hgives hcolumn
  · rw [recordAt_value_outside c' (h.schema.symm ▸ hcolumn), recordAt_value_outside c hcolumn, h.schema]

structure TakesLongest (c : Chunk) (b : Batch) (projection : Option (List Nat)) (offset : Nat) (c' : Chunk)
    (o : LoadOutcome) : Prop where
  checked : ∀ row ∈ (b.visibleRows offset).take c.freeRows, ∃ content, (b.source projection row).Gives c.schema content
  longest : IsGreatest {k | c.Fitting b projection offset k} o.loaded
  wellFormed : c'.WellFormed
  rows : c'.rows = c.rows + o.loaded
  placed : ∀ i row, ((b.visibleRows offset).take o.loaded)[i]? = some row →
    (c'.recordAt (c.rows + i)).id = .ok (rowId b.id row) ∧ c'.Holds (c.rows + i) (b.source projection row) ∧
      c'.index[c.rows + i]? = some (UInt32.ofNat (c.rows + i))
  kept : ∀ slot < c.rows, (c'.recordAt slot).id = (c.recordAt slot).id ∧
    (∀ column, (c'.recordAt slot).value column = (c.recordAt slot).value column) ∧ c'.index[slot]? = c.index[slot]?
  accounts : b.Accounts offset o
  status : c'.status = o.status

theorem Reserves.takesLongest {c filled : Chunk} {b : Batch} {projection : Option (List Nat)} {offset taken : Nat}
    {r : Reservation} {contents : List Row} (h : c.Reserves b projection offset r contents taken filled)
    (hc : c.WellFormed) (ho : offset ≤ b.rows) :
    let o := b.outcome offset c.freeRows taken
    c.TakesLongest b projection offset (filled.withStatus o.status) o := by
  have happended := h.appended
  have hlength : (contents.take taken).length = taken := List.length_take_of_le h.taken_le_contents
  have hrows := hlength ▸ happended.rows
  refine ⟨fun row hrow => ?checked, h.isGreatest hc, happended.wellFormed.withStatus _, hrows, fun i row hi => ?placed,
    fun slot hs => ?kept, b.outcome_accounts ho h.taken_le, rfl⟩
  case checked =>
    obtain ⟨content, _, hgives⟩ := exists_right_of_forall₂ h.checked hrow
    exact ⟨content, hgives⟩
  case placed =>
    change ((b.visibleRows offset).take taken)[i]? = some row at hi
    have hholds := h.holds hi
    have hlt : i < (contents.take taken).length := h.placed.length_eq ▸ (List.getElem?_eq_some_iff.mp hi).1
    exact ⟨hholds.id_eq rfl, hholds, happended.index_added hc hlt⟩
  case kept =>
    obtain ⟨hid, hvalues⟩ := happended.record_below hc hs
    exact ⟨hid, hvalues, happended.index_below hc hs⟩

/-- A load that succeeds has placed the longest run of visible rows that fits, has left everything before as it was,
and its answer accounts for the rest of the batch. -/
theorem load_takesLongest {c : Chunk} (hc : c.WellFormed) {b : Batch} {projection : Option (List Nat)} {offset : Nat}
    {schedule : Schedule} {o : LoadOutcome} (h : (c.load b projection offset schedule).result = .ok o) :
    c.TakesLongest b projection offset (c.load b projection offset schedule).state o := by
  have hend := load_end hc b projection offset schedule
  generalize c.load b projection offset schedule = attempt at h hend
  cases hend with
  | refused | fault => cases h
  | filled ho hreserves =>
    cases h
    exact hreserves.takesLongest hc ho

def swapped : Chunk :=
  (((Chunk.empty 0 [.int64, .varLen] 5 (some 6)).load (labelled 1) none 0).state.sort (.reversed .byId)).state

theorem swapped_wellFormed : swapped.WellFormed :=
  (sort_reordered ((wellFormed_empty 0 _ (by decide) _).load _ _ _ {}).1 _ {}).1.wellFormed

def sparse : Batch :=
  .ofColumns 7 #[#[.bytes [9], .bytes [8, 8], .null, .bytes [7, 7, 7], .null], #[.null, .null, .null, .null, .null],
    #[.int64 1, .int64 2, .bytes [1], .int64 4, .int64 5]] (some #[true, true, false, true, false])

theorem load_takesLongest_swapped :
    (swapped.load sparse (some [2, 0]) 1).result = .ok ⟨.noSpace, 1, 1, 2⟩ ∧
      swapped.TakesLongest sparse (some [2, 0]) 1 (swapped.load sparse (some [2, 0]) 1).state ⟨.noSpace, 1, 1, 2⟩ := by
  have hresult : (swapped.load sparse (some [2, 0]) 1).result = .ok ⟨.noSpace, 1, 1, 2⟩ := by cbv
  exact ⟨hresult, load_takesLongest swapped_wellFormed hresult⟩

/-- A load that fails leaves the chunk as it was, up to its status after a fault, even if a copy that stops half way
would leave anything in place of the chunk. That is because slots that were reserved can always be filled. -/
theorem load_atomic {c : Chunk} (hc : c.WellFormed) (b : Batch) (projection : Option (List Nat)) (offset : Nat)
    (torn : Chunk → Chunk) (schedule : Schedule) :
    c.loadInPlace torn b projection offset schedule = c.load b projection offset schedule ∧
      (∀ e, (c.load b projection offset schedule).result = .error e →
        (∃ violation, e = .contractViolation violation ∧ (c.load b projection offset schedule).state = c) ∨
          ∃ cause, e = .fault c.id none cause ∧ (c.load b projection offset schedule).state = c.withStatus .fault) ∧
      ∀ r, c.reservation b projection offset schedule = .ok r →
        r.slots.start = c.rows ∧ ∃ filled, r.Written filled := by
  refine ⟨loadInPlace_eq_load hc torn b projection offset schedule, fun e he => ?_, fun r hr => ?_⟩
  · have hend := load_end hc b projection offset schedule
    generalize c.load b projection offset schedule = attempt at he hend
    cases hend with
    | refused violation =>
      cases he
      exact .inl ⟨violation, rfl, rfl⟩
    | fault cause =>
      cases he
      exact .inr ⟨cause, rfl, rfl⟩
    | filled => cases he
  · obtain ⟨contents, taken, filled, hreserves⟩ := (reservation_spec hc b projection offset schedule).of_ok hr
    exact ⟨by rw [hreserves.slots], filled, hreserves.written⟩

theorem load_atomic_swapped :
    let unmasked := { sparse with visible := fun _ => true }
    (swapped.load unmasked (some [2, 0]) 1).result = .error (.fault 0 none (.typeMismatch 0 .int64 .bytes)) ∧
      (swapped.load unmasked (some [2, 0]) 1).state = swapped.withStatus .fault ∧
      ∃ r, swapped.reservation sparse (some [2, 0]) 1 = .ok r ∧ r.slots.stop = 3 ∧ ∃ filled, r.Written filled := by
  intro unmasked
  have hresult : (swapped.load unmasked (some [2, 0]) 1).result =
      .error (.fault 0 none (.typeMismatch 0 .int64 .bytes)) := by cbv
  have hreserved : ((swapped.reservation sparse (some [2, 0]) 1).map (·.slots.stop)) = .ok 3 := by cbv
  obtain ⟨r, hr, hstop⟩ := map_eq_ok_iff.mp hreserved
  obtain ⟨_, hfailed, _⟩ := load_atomic swapped_wellFormed unmasked (some [2, 0]) 1 clear {}
  obtain ⟨_, _, hwritten⟩ := load_atomic swapped_wellFormed sparse (some [2, 0]) 1 clear {}
  refine ⟨hresult, ?_, r, hr, hstop, (hwritten r hr).2⟩
  rcases hfailed _ hresult with ⟨violation, he, _⟩ | ⟨cause, _, hs⟩
  · cases he
  · exact hs

end Chunk
end ChunkSort
