import Mathlib.Order.Bounds.Basic
import ChunkSort.Chunk.Load
import ChunkSort.Proofs.Chunk.Append
import ChunkSort.Proofs.Schedule

/-!
Loads against the visible rows of a batch: a load takes the next ones, in order and as they are, and stands
at the next visible one or at the end of the batch afterwards.
-/

namespace ChunkSort
namespace Batch

def visibleAmong (b : Batch) (left row : Nat) : List Nat := (List.range' row left).filter b.visible

def visibleRows (b : Batch) (offset : Nat) : List Nat := b.visibleAmong (b.rows - offset) offset

theorem mem_visibleRows {b : Batch} {offset row : Nat} :
    row ∈ b.visibleRows offset ↔ (offset ≤ row ∧ row < offset + (b.rows - offset)) ∧ b.visible row = true := by
  rw [visibleRows, visibleAmong, List.mem_filter, List.mem_range'_1]

theorem visibleRows_rows (b : Batch) : b.visibleRows b.rows = [] := by
  rw [visibleRows, Nat.sub_self]
  rfl

theorem visibleAmong_succ (b : Batch) (left row : Nat) :
    b.visibleAmong (left + 1) row = (if b.visible row then [row] else []) ++ b.visibleAmong left (row + 1) := by
  rw [visibleAmong, List.range'_succ, List.filter_cons]
  split <;> rfl

theorem visibleAmong_pick (b : Batch) (left row wanted k : Nat) :
    b.visibleAmong left row =
      let start := (b.pick left row wanted).1[k]?.getD (b.pick left row wanted).2
      (b.pick left row wanted).1.take k ++ b.visibleAmong (row + left - start) start := by
  -- The others start at the next one of the picked rows, whatever number of these is taken.
  fun_induction b.pick left row wanted generalizing k with
  | case1 row wanted => simp
  | case2 left row => simp
  | case3 left row wanted hv picked stop hp ih =>
    cases k with
    | zero => simp
    | succ k =>
      have := ih k
      rw [hp] at this
      rw [visibleAmong_succ, if_pos hv, this, Nat.add_right_comm]
      rfl
  | case4 left row wanted hv ih =>
    rw [visibleAmong_succ, if_neg hv, ih k, Nat.add_right_comm]
    rfl

theorem visibleAmong_nextVisible (b : Batch) (left row : Nat) :
    b.visibleAmong left row = b.visibleAmong (row + left - b.nextVisible left row) (b.nextVisible left row) := by
  fun_induction b.nextVisible left row with
  | case1 row => simp
  | case2 left row hv => rw [Nat.add_sub_cancel_left]
  | case3 left row hv ih =>
    rw [visibleAmong_succ, if_neg hv, List.nil_append, ih]
    congr 1
    omega

theorem pick_eq_take (b : Batch) (left row wanted : Nat) :
    (b.pick left row wanted).1 = (b.visibleAmong left row).take wanted := by
  fun_induction b.pick left row wanted with
  | case1 => exact List.take_nil.symm
  | case2 => exact List.take_zero.symm
  | case3 left row wanted hv picked stop hp ih =>
    rw [hp] at ih
    rw [visibleAmong_succ, if_pos hv, List.singleton_append, List.take_succ_cons, ← ih]
  | case4 left row wanted hv ih => rw [visibleAmong_succ, if_neg hv, List.nil_append, ih]

theorem start_bounds (b : Batch) (left row wanted k : Nat) (hk : k ≤ (b.pick left row wanted).1.length) :
    row + k ≤ (b.pick left row wanted).1[k]?.getD (b.pick left row wanted).2 ∧
      (b.pick left row wanted).1[k]?.getD (b.pick left row wanted).2 ≤ row + left := by
  have hstop := b.pick_bounds left row wanted
  cases hr : (b.pick left row wanted).1[k]? with
  | none =>
    rw [Option.getD_none]
    omega
  | some r =>
    have := b.le_of_mem_pick left row wanted k r hr
    rw [Option.getD_some]
    omega

theorem length_pick_le (b : Batch) (left row wanted : Nat) : (b.pick left row wanted).1.length ≤ wanted := by
  fun_induction b.pick left row wanted <;> simp_all

theorem visible_of_mem_pick (b : Batch) (left row wanted : Nat) {r : Nat} (h : r ∈ (b.pick left row wanted).1) :
    b.visible r = true := by
  fun_induction b.pick left row wanted with
  | case1 | case2 => simp at h
  | case3 left row wanted hv picked stop hp ih =>
    rcases List.mem_cons.mp h with rfl | h
    · exact hv
    · exact ih (by rwa [hp])
  | case4 left row wanted hv ih => exact ih h

theorem visible_nextVisible (b : Batch) {left row : Nat} (h : b.nextVisible left row < row + left) :
    b.visible (b.nextVisible left row) = true := by
  fun_induction b.nextVisible left row with
  | case1 => omega
  | case2 left row hv => exact hv
  | case3 left row hv ih => exact ih (by omega)

theorem visibleRows_of_visible (b : Batch) {row : Nat} (hr : row < b.rows) (hv : b.visible row = true) :
    b.visibleRows row = row :: b.visibleRows (row + 1) := by
  rw [visibleRows, visibleRows, show b.rows - row = b.rows - (row + 1) + 1 by omega, visibleAmong_succ, if_pos hv]
  rfl

/-- The row in front of which a load stops that looked for `wanted` rows from `offset` on, and placed the first `loaded`
of those. -/
def stop (b : Batch) (offset wanted loaded : Nat) : Nat :=
  let found := b.pick (b.rows - offset) offset wanted
  let start := found.1[loaded]?.getD found.2
  b.nextVisible (b.rows - start) start

def outcome (b : Batch) (offset wanted loaded : Nat) : LoadOutcome :=
  let next := b.stop offset wanted loaded
  ⟨if next = b.rows then .success else .noSpace, loaded, next - offset - loaded, b.rows - next⟩

section

variable (b : Batch) {offset wanted loaded : Nat} (ho : offset ≤ b.rows)
  (hl : loaded ≤ ((b.visibleRows offset).take wanted).length)
include ho hl

theorem exists_start : ∃ start, b.stop offset wanted loaded = b.nextVisible (b.rows - start) start ∧
    offset + loaded ≤ start ∧ start ≤ b.rows ∧
      b.visibleRows offset = (b.visibleRows offset).take loaded ++ b.visibleRows start := by
  -- The search starts at the first row that was found and not placed, or where the search for rows ended.
  have hpick := b.pick_eq_take (b.rows - offset) offset wanted
  have hsplit := b.visibleAmong_pick (b.rows - offset) offset wanted loaded
  have hstart := b.start_bounds (b.rows - offset) offset wanted loaded (by rwa [hpick])
  have htake : (b.pick (b.rows - offset) offset wanted).1.take loaded = (b.visibleRows offset).take loaded := by
    rw [List.length_take] at hl
    rw [hpick, List.take_take, Nat.min_eq_left (Nat.le_trans hl (Nat.min_le_left ..)), visibleRows]
  have hrest : offset + (b.rows - offset) = b.rows := Nat.add_sub_cancel' ho
  rw [htake, hrest] at hsplit
  rw [hrest] at hstart
  exact ⟨_, rfl, hstart.1, hstart.2, hsplit⟩

theorem stop_bounds : offset + loaded ≤ b.stop offset wanted loaded ∧ b.stop offset wanted loaded ≤ b.rows ∧
    (b.stop offset wanted loaded < b.rows → b.visible (b.stop offset wanted loaded) = true) := by
  obtain ⟨start, hstop, hlow, hhigh, _⟩ := b.exists_start ho hl
  have hnext := b.nextVisible_bounds (b.rows - start) start
  rw [← hstop] at hnext
  refine ⟨by omega, by omega, fun hlt => ?_⟩
  rw [hstop] at hlt ⊢
  exact b.visible_nextVisible (by omega)

theorem visibleRows_stop :
    b.visibleRows offset = (b.visibleRows offset).take loaded ++ b.visibleRows (b.stop offset wanted loaded) := by
  obtain ⟨start, hstop, _, hhigh, hsplit⟩ := b.exists_start ho hl
  have hskip := b.visibleAmong_nextVisible (b.rows - start) start
  rw [← hstop, Nat.add_sub_cancel' hhigh] at hskip
  rw [visibleRows, visibleRows, ← hskip]
  exact hsplit

theorem outcome_consumed :
    offset + (b.outcome offset wanted loaded).consumed = b.stop offset wanted loaded := by
  obtain ⟨hlow, _⟩ := b.stop_bounds ho hl
  simp only [outcome, LoadOutcome.consumed]
  omega

end

end Batch

theorem fittingCount_le (room : Option Nat) (sizes : List Nat) : fittingCount room sizes ≤ sizes.length := by
  fun_induction fittingCount room sizes <;> simp_all

theorem sum_take_fittingCount_le (room : Nat) (sizes : List Nat) :
    totalLength (sizes.take (fittingCount (some room) sizes)) ≤ room := by
  induction sizes generalizing room with
  | nil => exact Nat.zero_le _
  | cons size sizes ih =>
    rw [fittingCount]
    split
    next hf =>
      have hle : size ≤ room := by simpa [SideBuffer.fits] using hf
      rw [List.take_succ_cons, totalLength_cons]
      exact Nat.add_le_of_le_sub' hle (ih (room - size))
    · exact Nat.zero_le _

theorem SideBuffer.takes_fittingCount {b : SideBuffer} (hb : ∀ limit ∈ b.limit, b.used ≤ limit) (sizes : List Nat) :
    b.Takes (totalLength (sizes.take (fittingCount b.room sizes))) := by
  intro limit hl
  have hroom : b.room = some (limit - b.used) := by rw [room, hl, Option.map_some]
  have := sum_take_fittingCount_le (limit - b.used) sizes
  have := hb limit hl
  rw [hroom]
  omega

theorem lt_sum_take_fittingCount (room : Nat) (sizes : List Nat) (h : fittingCount (some room) sizes < sizes.length) :
    room < totalLength (sizes.take (fittingCount (some room) sizes + 1)) := by
  -- The induction takes what fits off the room.
  induction sizes generalizing room with
  | nil => exact absurd h (Nat.not_lt_zero _)
  | cons size sizes ih =>
    rw [fittingCount] at h ⊢
    split at h
    next hf =>
      have hle : size ≤ room := by simpa [SideBuffer.fits] using hf
      have := ih (room - size) (Nat.lt_of_succ_lt_succ h)
      rw [if_pos hf, List.take_succ_cons, totalLength_cons]
      change room < size + totalLength (sizes.take (fittingCount (some (room - size)) sizes + 1))
      omega
    next hf =>
      have hlt : room < size := by simpa [SideBuffer.fits] using hf
      rw [if_neg hf, List.take_succ_cons, totalLength_cons]
      exact Nat.lt_add_right _ hlt

theorem fittingCount_unlimited (sizes : List Nat) : fittingCount none sizes = sizes.length := by
  induction sizes with
  | nil => rfl
  | cons size sizes ih =>
    rw [fittingCount, if_pos (by rfl), Option.map_none, ih]
    rfl

theorem SideBuffer.not_takes_fittingCount {b : SideBuffer} {sizes : List Nat}
    (h : fittingCount b.room sizes < sizes.length) :
    ¬b.Takes (totalLength (sizes.take (fittingCount b.room sizes + 1))) := by
  intro ht
  cases hl : b.limit with
  | none =>
    rw [room, hl, Option.map_none, fittingCount_unlimited] at h
    exact absurd h (Nat.lt_irrefl _)
  | some limit =>
    have hroom : b.room = some (limit - b.used) := by rw [room, hl, Option.map_some]
    rw [hroom] at h ht
    have := lt_sum_take_fittingCount _ _ h
    have := ht limit hl
    omega

theorem SideBuffer.isGreatest_fittingCount {b : SideBuffer} (hb : ∀ limit ∈ b.limit, b.used ≤ limit)
    (sizes : List Nat) :
    IsGreatest {k | k ≤ sizes.length ∧ b.Takes (totalLength (sizes.take k))} (fittingCount b.room sizes) := by
  refine ⟨⟨fittingCount_le _ _, takes_fittingCount hb sizes⟩, fun k hk => ?_⟩
  obtain ⟨hk, ht⟩ := hk
  by_contra hlt
  have hsucc : fittingCount b.room sizes + 1 ≤ k := Nat.lt_of_not_le hlt
  exact not_takes_fittingCount (Nat.lt_of_lt_of_le hsucc hk)
    (ht.mono (totalLength_le_of_sublist (List.take_sublist_take_left hsucc)))

namespace Chunk

def HasRoom (c : Chunk) (row : Row) : Prop := 0 < c.freeRows ∧ c.side.Takes row.payloadLength

/-- What a load that succeeds does: `placed` are the rows it takes, `contents` what they hold. -/
structure Loaded (c : Chunk) (b : Batch) (projection : Option (List Nat)) (offset : Nat) (c' : Chunk)
    (o : LoadOutcome) (placed : List Nat) (contents : List Row) : Prop where
  appended : c.Appended contents c'
  status : c'.status = o.status
  reads : List.Forall₂ (fun r row => (b.source projection r).Gives c.schema row) placed contents
  loaded : o.loaded = placed.length
  visible : b.visibleRows offset = placed ++ b.visibleRows (offset + o.consumed)
  le_rows : offset + o.consumed ≤ b.rows
  outcome : o.status = if offset + o.consumed = b.rows then .success else .noSpace
  full : offset + o.consumed ≠ b.rows → ∃ next rest, b.visibleRows (offset + o.consumed) = next :: rest ∧
    ∀ row, (b.source projection next).Gives c.schema row → ¬c'.HasRoom row

theorem exists_contents {b : Batch} {projection : Option (List Nat)} {schema : List ColumnType} {candidates : List Nat}
    {sizes : List Nat} (h : (candidates.map (b.source projection)).mapM (·.payloadSize schema) = .ok sizes) :
    ∃ contents, List.Forall₂ (fun r row => (b.source projection r).Gives schema row) candidates contents ∧
      contents.map Row.payloadLength = sizes := by
  rw [mapM_eq_ok_iff, List.forall₂_map_left_iff] at h
  induction h with
  | nil => exact ⟨[], .nil, rfl⟩
  | @cons r n _ _ hr _ ih =>
    obtain ⟨row, hg, _, hn⟩ := SourceRow.exists_gives_of_payloadSize rfl hr
    obtain ⟨contents, hgs, hns⟩ := ih
    exact ⟨row :: contents, .cons hg hgs, by rw [List.map_cons, hn, hns]⟩

/-! ### Reserved slots -/

structure Reservation where
  slots : SlotRange
  chunk : Chunk
  rows : List SourceRow

/-- Takes slots for the longest run of visible rows from `offset` on that fits. All candidates are checked before. -/
def reservation (c : Chunk) (b : Batch) (projection : Option (List Nat)) (offset : Nat) (schedule : Schedule := {}) :
    Except DataError Reservation := do
  let sources := (b.pick (b.rows - offset) offset c.freeRows).1.map (b.source projection)
  let sizes ← collect schedule.rows (·.payloadSize c.schema) sources
  let (slots, chunk) := c.reserve (fittingCount c.side.room sizes)
  return ⟨slots, chunk, sources.take (slots.stop - slots.start)⟩

theorem map_pick_eq (c : Chunk) (b : Batch) (projection : Option (List Nat)) (offset : Nat) :
    (b.pick (b.rows - offset) offset c.freeRows).1.map (b.source projection) =
      ((b.visibleRows offset).take c.freeRows).map (b.source projection) := by
  rw [Batch.pick_eq_take, Batch.visibleRows]

theorem place_eq_reservation (c : Chunk) (b : Batch) (projection : Option (List Nat)) (offset : Nat)
    (schedule : Schedule) :
    c.place b projection offset schedule = (c.reservation b projection offset schedule).bind fun r =>
      (r.chunk.fill r.slots.start r.rows).map fun filled =>
        let o := b.outcome offset c.freeRows (r.slots.stop - r.slots.start)
        (filled.withStatus o.status, o) := by
  obtain ⟨candidates, stop, hp⟩ : ∃ l n, b.pick (b.rows - offset) offset c.freeRows = (l, n) := ⟨_, _, rfl⟩
  have hlen := b.length_pick_le (b.rows - offset) offset c.freeRows
  simp only [place, reservation, hp, bind, Except.bind, pure, Except.pure] at hlen ⊢
  cases hsizes : collect schedule.rows (·.payloadSize c.schema) (candidates.map (b.source projection)) with
  | error e => rfl
  | ok sizes =>
    have hcount := (mapM_eq_ok_iff.mp (collect_eq_ok_iff.mp hsizes)).length_eq
    have hk := fittingCount_le c.side.room sizes
    rw [List.length_map] at hcount
    dsimp only
    generalize fittingCount c.side.room sizes = k at hk ⊢
    have htaken : ((candidates.map (b.source projection)).take k).length = k := by
      rw [List.length_take, List.length_map]
      omega
    have hslots : c.rows + min k c.freeRows - c.rows = k := by omega
    simp only [append, reserve, htaken, hslots, List.take_take, Nat.min_self, Batch.outcome, Batch.stop, hp]
    cases fill { c with rows := c.rows + min k c.freeRows } c.rows ((candidates.map (b.source projection)).take k) with
    | error cause => rfl
    | ok filled => rfl

structure Fitting (c : Chunk) (b : Batch) (projection : Option (List Nat)) (offset k : Nat) : Prop where
  le_visible : k ≤ (b.visibleRows offset).length
  le_free : k ≤ c.freeRows
  takes : ∃ contents, List.Forall₂ (fun row content => (b.source projection row).Gives c.schema content)
    ((b.visibleRows offset).take k) contents ∧ c.side.Takes (totalLength (contents.map Row.payloadLength))

/-- The slots are those of the longest run of candidates that fits: `contents` are the candidates as they were read by
the check. -/
structure Reserves (c : Chunk) (b : Batch) (projection : Option (List Nat)) (offset : Nat) (r : Reservation)
    (contents : List Row) (taken : Nat) (filled : Chunk) : Prop where
  checked : List.Forall₂ (fun row content => (b.source projection row).Gives c.schema content)
    ((b.visibleRows offset).take c.freeRows) contents
  taken_eq : taken = fittingCount c.side.room (contents.map Row.payloadLength)
  slots : r.slots = ⟨c.rows, c.rows + taken⟩
  chunk : r.chunk = { c with rows := c.rows + taken }
  rows : r.rows = ((b.visibleRows offset).take taken).map (b.source projection)
  fill : r.chunk.fill r.slots.start r.rows = .ok filled
  appended : c.Appended (contents.take taken) filled

namespace Reserves

variable {c filled : Chunk} {b : Batch} {projection : Option (List Nat)} {offset taken : Nat} {r : Reservation}
  {contents : List Row} (h : c.Reserves b projection offset r contents taken filled)
include h

theorem taken_le_contents : taken ≤ contents.length := by
  have hk := fittingCount_le c.side.room (contents.map Row.payloadLength)
  rwa [← h.taken_eq, List.length_map] at hk

theorem taken_le : taken ≤ ((b.visibleRows offset).take c.freeRows).length :=
  h.checked.length_eq ▸ h.taken_le_contents

theorem take_taken : ((b.visibleRows offset).take c.freeRows).take taken = (b.visibleRows offset).take taken := by
  have hle := h.taken_le
  rw [List.length_take] at hle
  rw [List.take_take, Nat.min_eq_left (Nat.le_trans hle (Nat.min_le_left ..))]

theorem placed : List.Forall₂ (fun row content => (b.source projection row).Gives c.schema content)
    ((b.visibleRows offset).take taken) (contents.take taken) := by
  rw [← h.take_taken]
  exact List.forall₂_take taken h.checked

theorem isGreatest (hc : c.WellFormed) : IsGreatest {k | c.Fitting b projection offset k} taken := by
  have hgreatest := SideBuffer.isGreatest_fittingCount hc.side_le (contents.map Row.payloadLength)
  rw [← h.taken_eq] at hgreatest
  obtain ⟨⟨_, htakes⟩, hmax⟩ := hgreatest
  have hle := h.taken_le
  have hcount := h.checked.length_eq
  rw [List.length_take] at hle hcount
  rw [← List.map_take] at htakes
  refine ⟨⟨by omega, by omega, _, h.placed, htakes⟩, fun k ⟨hvisible, hfree, contents', hreads, htakes'⟩ => ?_⟩
  have hplaced := List.forall₂_take k h.checked
  rw [List.take_take, Nat.min_eq_left hfree] at hplaced
  have hunique : Relator.RightUnique fun row content => (b.source projection row).Gives c.schema content :=
    fun _ _ _ h h' => h.unique h'
  obtain rfl := List.right_unique_forall₂' hunique hreads hplaced
  refine hmax ⟨?_, by rwa [← List.map_take]⟩
  rw [List.length_map]
  omega

theorem full (hc : c.WellFormed) {next : Nat} {rest : List Nat}
    (hnext : b.visibleRows offset = (b.visibleRows offset).take taken ++ next :: rest) {row : Row}
    (hrow : (b.source projection next).Gives c.schema row) : ¬filled.HasRoom row := by
  rintro ⟨hfree, htakes⟩
  have hgrows := h.appended.side
  have hplaced := h.placed.length_eq
  have hlength : (contents.take taken).length = taken := List.length_take_of_le h.taken_le_contents
  have htake : (b.visibleRows offset).take (taken + 1) = (b.visibleRows offset).take taken ++ [next] := by
    have hget := congrArg (·[taken]?) hnext
    rw [List.getElem?_append_right (by omega), hplaced, hlength, Nat.sub_self] at hget
    rw [List.take_add_one, hget]
    rfl
  have hcount := congrArg List.length hnext
  rw [List.length_append, hplaced, hlength, List.length_cons] at hcount
  rw [freeRows, h.appended.rows, h.appended.capacity, hlength] at hfree
  have hmore : c.Fitting b projection offset (taken + 1) := by
    refine ⟨by omega, by rw [freeRows]; omega, contents.take taken ++ [row], ?_, fun limit hlimit => ?_⟩
    · rw [htake]
      exact List.rel_append h.placed (.cons hrow .nil)
    · have hle := htakes limit (hgrows.limit.trans hlimit)
      rw [hgrows.used] at hle
      simp only [List.map_append, totalLength_append, List.map_singleton, totalLength_cons, totalLength_nil]
      omega
  exact Nat.not_succ_le_self taken ((h.isGreatest hc).2 hmore)

end Reserves

theorem reservation_spec {c : Chunk} (hc : c.WellFormed) (b : Batch) (projection : Option (List Nat)) (offset : Nat)
    (schedule : Schedule) :
    Outcome (fun r => ∃ contents taken filled, c.Reserves b projection offset r contents taken filled)
      (fun e => ∃ row ∈ b.visibleRows offset, (b.source projection row).payloadSize c.schema = .error e)
      (c.reservation b projection offset schedule) := by
  simp only [reservation, map_pick_eq, bind, Except.bind, pure, Except.pure]
  cases hsizes : collect schedule.rows (·.payloadSize c.schema)
      (((b.visibleRows offset).take c.freeRows).map (b.source projection)) with
  | error e =>
    obtain ⟨_, hmem, he⟩ := exists_error_of_collect hsizes
    obtain ⟨row, hrow, rfl⟩ := List.mem_map.mp hmem
    exact ⟨row, List.mem_of_mem_take hrow, he⟩
  | ok sizes =>
    obtain ⟨contents, hchecked, rfl⟩ := exists_contents (collect_eq_ok_iff.mp hsizes)
    have htakes := SideBuffer.takes_fittingCount hc.side_le (contents.map Row.payloadLength)
    have hk := fittingCount_le c.side.room (contents.map Row.payloadLength)
    have hcount := hchecked.length_eq
    dsimp only
    generalize htaken : fittingCount c.side.room (contents.map Row.payloadLength) = taken at htakes hk ⊢
    rw [← List.map_take] at htakes
    rw [List.length_map] at hk
    rw [List.length_take] at hcount
    have hfree : taken ≤ c.freeRows := by omega
    have hslots : min taken c.freeRows = taken := Nat.min_eq_left hfree
    have hrows : ((b.visibleRows offset).take c.freeRows).take taken = (b.visibleRows offset).take taken := by
      rw [List.take_take, hslots]
    have hplaced : List.Forall₂ (fun row content => SourceRow.Gives row c.schema content)
        (((b.visibleRows offset).take taken).map (b.source projection)) (contents.take taken) := by
      rw [← hrows, List.forall₂_map_left_iff]
      exact List.forall₂_take taken hchecked
    have hlength : (((b.visibleRows offset).take taken).map (b.source projection)).length = taken := by
      rw [hplaced.length_eq, List.length_take_of_le hk]
    obtain ⟨filled, hfill, happended⟩ := append_spec hc hplaced (by rwa [List.length_take_of_le hk]) htakes
    simp only [append, reserve, hlength, hslots, Nat.add_sub_cancel_left, List.take_of_length_le hlength.le] at hfill
    refine ⟨contents, taken, filled, hchecked, htaken.symm, ?_, ?_, ?_, ?_, happended⟩
    · simp only [reserve, hslots]
    · simp only [reserve, hslots]
    · simp only [reserve, hslots, Nat.add_sub_cancel_left, ← List.map_take, hrows]
    · simp only [reserve, hslots, Nat.add_sub_cancel_left, ← List.map_take, hrows]
      exact hfill

theorem place_spec {c : Chunk} (hc : c.WellFormed) (b : Batch) (projection : Option (List Nat)) {offset : Nat}
    (ho : offset ≤ b.rows) (schedule : Schedule) :
    Outcome (fun p => ∃ placed contents, c.Loaded b projection offset p.1 p.2 placed contents)
      (fun e => ∃ row ∈ b.visibleRows offset, (b.source projection row).payloadSize c.schema = .error e)
      (c.place b projection offset schedule) := by
  have hspec := reservation_spec hc b projection offset schedule
  rw [place_eq_reservation]
  cases hr : c.reservation b projection offset schedule with
  | error e => exact hspec.of_error hr
  | ok r =>
    obtain ⟨contents, taken, filled, h⟩ := hspec.of_ok hr
    obtain ⟨hlow, hhigh, hvisible⟩ := b.stop_bounds ho h.taken_le
    have hsplit := b.visibleRows_stop ho h.taken_le
    have hconsumed := b.outcome_consumed ho h.taken_le
    have htaken : r.slots.stop - r.slots.start = taken := by rw [h.slots, Nat.add_sub_cancel_left]
    have hlength : ((b.visibleRows offset).take taken).length = taken :=
      List.length_take_of_le (Nat.le_trans h.taken_le (List.length_take_le' ..))
    simp only [Except.bind, h.fill, Except.map, htaken]
    refine ⟨(b.visibleRows offset).take taken, contents.take taken, h.appended.withStatus _, rfl, h.placed,
      hlength.symm, ?visible, ?le_rows, ?outcome, ?full⟩
    all_goals rw [hconsumed]
    case visible => exact hsplit
    case le_rows => exact hhigh
    case outcome => rfl
    case full =>
      intro hne
      have hnext := b.visibleRows_of_visible (by omega) (hvisible (by omega))
      rw [hnext] at hsplit
      exact ⟨_, _, hnext, fun row hrow => h.full hc hsplit hrow⟩

/-- Why a load fails: it was asked for wrongly, or a cell cannot be read or does not fit its column. -/
def LoadCause (c : Chunk) (b : Batch) (projection : Option (List Nat)) (offset : Nat) (error : SortError) : Prop :=
  (∃ v, loadViolation? b offset = some v ∧ error = .contractViolation v) ∨
    ∃ cause, error = .fault c.id none cause ∧ (c.widthError? b projection = some cause ∨
      ∃ row, (b.source projection row).payloadSize c.schema = .error cause)

structure Admits (c : Chunk) (b : Batch) (projection : Option (List Nat)) (offset : Nat) : Prop where
  violation : loadViolation? b offset = none
  width : c.widthError? b projection = none

theorem load_spec {c : Chunk} (hc : c.WellFormed) (b : Batch) (projection : Option (List Nat)) (offset : Nat)
    (schedule : Schedule) :
    match (c.load b projection offset schedule).result with
    | .ok o => c.Admits b projection offset ∧
        ∃ placed contents, c.Loaded b projection offset (c.load b projection offset schedule).state o placed contents
    | .error e => c.LoadCause b projection offset e ∧
        (c.Admits b projection offset → ∃ row ∈ b.visibleRows offset, ∀ content,
          ¬(b.source projection row).Gives c.schema content) ∧
        ∃ status, (c.load b projection offset schedule).state = c.withStatus status := by
  unfold load
  cases hv : loadViolation? b offset with
  | some v => exact ⟨.inl ⟨v, hv, rfl⟩, fun ha => (nomatch hv.symm.trans ha.violation), c.status, rfl⟩
  | none =>
    have ho := le_rows_of_loadViolation hv
    cases hw : c.widthError? b projection with
    | some e => exact ⟨.inr ⟨e, rfl, .inl hw⟩, fun ha => (nomatch hw.symm.trans ha.width), .fault, rfl⟩
    | none =>
      have hplace := place_spec hc b projection ho schedule
      simp only [Option.elim]
      cases hp : c.place b projection offset schedule with
      | error e =>
        rw [hp] at hplace
        obtain ⟨row, hmem, hrow⟩ := hplace
        refine ⟨.inr ⟨e, rfl, .inr ⟨row, hrow⟩⟩, fun _ => ⟨row, hmem, fun content hg => ?_⟩, .fault, rfl⟩
        cases hrow.symm.trans hg.payloadSize
      | ok p =>
        rw [hp] at hplace
        exact ⟨⟨hv, hw⟩, hplace⟩

theorem WellFormed.load {c : Chunk} (hc : c.WellFormed) (b : Batch) (projection : Option (List Nat)) (offset : Nat)
    (schedule : Schedule) :
    (c.load b projection offset schedule).state.WellFormed ∧ (c.load b projection offset schedule).state.shape = c.shape := by
  have h := load_spec hc b projection offset schedule
  split at h
  · obtain ⟨_, _, _, hl⟩ := h
    exact ⟨hl.appended.wellFormed, hl.appended.shape⟩
  · obtain ⟨_, _, status, hs⟩ := h
    rw [hs]
    exact ⟨hc.withStatus status, rfl⟩

end Chunk
end ChunkSort
