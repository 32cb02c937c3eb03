import ChunkSort.Batch
import ChunkSort.Chunk.Basic
import ChunkSort.Schedule

/-!
Loading batch rows into a chunk. A load takes the longest run of visible rows that fits the free slots and
the free side buffer bytes; whatever is left of the batch is for another chunk.
-/

namespace ChunkSort

structure LoadOutcome where
  status : Status
  /-- Rows placed. -/
  loaded : Nat
  /-- Invisible rows passed over. -/
  skipped : Nat
  /-- Batch rows left. -/
  remaining : Nat

def LoadOutcome.consumed (o : LoadOutcome) : Nat := o.loaded + o.skipped

def fittingCount : Option Nat → List Nat → Nat
  | _, [] => 0
  | room, size :: sizes =>
    if SideBuffer.fits room size then fittingCount (room.map (· - size)) sizes + 1 else 0

namespace Chunk

def loadViolation? (b : Batch) (offset : Nat) : Option Violation :=
  if b.rows < offset then
    some (.offsetPastEnd offset b.id.toNat b.rows)
  else if maxBatchRows < b.rows then
    some (.batchTooLong b.id.toNat b.rows)
  else
    none

theorem le_rows_of_loadViolation {b : Batch} {offset : Nat} (h : loadViolation? b offset = none) : offset ≤ b.rows := by
  unfold loadViolation? at h
  split at h
  · cases h
  next hlt => exact Nat.le_of_not_lt hlt

def widthError? (c : Chunk) (b : Batch) (projection : Option (List Nat)) : Option DataError :=
  match projection.bind (·.find? (b.columns ≤ ·)) with
  | some column => some (.columnOutOfRange column b.columns)
  | none =>
    let width := (projection.map List.length).getD b.columns
    if width = c.schema.length then none else some (.columnOutOfRange c.schema.length width)

/-- Places the longest run of visible rows from `offset` on that fits. All candidates are checked before any
of them is placed. -/
def place (c : Chunk) (b : Batch) (projection : Option (List Nat)) (offset : Nat) (schedule : Schedule := {}) :
    Except DataError (Chunk × LoadOutcome) := do
  let (candidates, stop) := b.pick (b.rows - offset) offset c.freeRows
  let sources := candidates.map (b.source projection)
  let sizes ← collect schedule.rows (·.payloadSize c.schema) sources
  let placed := sources.take (fittingCount c.side.room sizes)
  let filled ← c.append placed
  let start := candidates[placed.length]?.getD stop
  let next := b.nextVisible (b.rows - start) start
  let status := if next = b.rows then .success else .noSpace
  return (filled.withStatus status, ⟨status, placed.length, next - offset - placed.length, b.rows - next⟩)

/-- Loads the batch rows from `offset` on. A fault leaves the rows of the chunk alone. -/
def load (c : Chunk) (b : Batch) (projection : Option (List Nat)) (offset : Nat) (schedule : Schedule := {}) :
    Attempt Chunk LoadOutcome :=
  match loadViolation? b offset with
  | some violation => ⟨c, .error (.contractViolation violation)⟩
  | none =>
    match (c.widthError? b projection).elim (c.place b projection offset schedule) .error with
    | .ok (c, outcome) => ⟨c, .ok outcome⟩
    | .error cause => ⟨c.withStatus .fault, .error (.fault c.id none cause)⟩

theorem place_bounds {c c' : Chunk} {b : Batch} {projection : Option (List Nat)} {offset : Nat}
    {schedule : Schedule} {o : LoadOutcome}
    (ho : offset ≤ b.rows) (h : c.place b projection offset schedule = .ok (c', o)) :
    offset + o.consumed ≤ b.rows ∧ (o.status ≠ .success → offset + o.consumed ≠ b.rows) ∧
      c'.rows ≤ c.rows + o.loaded := by
  obtain ⟨candidates, stop, hp⟩ : ∃ l n, b.pick (b.rows - offset) offset c.freeRows = (l, n) := ⟨_, _, rfl⟩
  have hstop := b.pick_bounds (b.rows - offset) offset c.freeRows
  have hmem := b.le_of_mem_pick (b.rows - offset) offset c.freeRows
  simp only [place, hp, bind, Except.bind] at h hstop hmem
  split at h
  · contradiction
  rename_i sizes _
  split at h
  · contradiction
  rename_i filled hf
  have hrows := rows_append_le hf
  simp only [pure, Except.pure, Except.ok.injEq, Prod.mk.injEq] at h
  obtain ⟨rfl, rfl⟩ := h
  simp only [LoadOutcome.consumed, withStatus]
  generalize hk : (List.take (fittingCount c.side.room sizes) (candidates.map (b.source projection))) = placed at *
  have hlen : placed.length ≤ candidates.length := by
    rw [← hk, List.length_take, List.length_map]
    exact Nat.min_le_right _ _
  have hstart : offset + placed.length ≤ candidates[placed.length]?.getD stop ∧
      candidates[placed.length]?.getD stop ≤ b.rows := by
    cases hc : candidates[placed.length]? with
    | none => simp; omega
    | some r => have := hmem _ _ hc; simp; omega
  have hnext := b.nextVisible_bounds (b.rows - candidates[placed.length]?.getD stop)
    (candidates[placed.length]?.getD stop)
  refine ⟨by omega, fun hs hn => hs (if_pos ?_), by simpa using hrows⟩
  omega

theorem load_bounds {c : Chunk} {b : Batch} {projection : Option (List Nat)} {offset : Nat}
    {schedule : Schedule} {o : LoadOutcome}
    (h : (c.load b projection offset schedule).result = .ok o) :
    offset + o.consumed ≤ b.rows ∧ (o.status ≠ .success → offset + o.consumed ≠ b.rows) ∧
      (c.load b projection offset schedule).state.rows ≤ c.rows + o.loaded := by
  unfold load at h ⊢
  split at h
  · cases h
  next hv =>
  have ho := le_rows_of_loadViolation hv
  split at h
  next c' o' hc =>
    cases h
    cases hw : c.widthError? b projection <;> simp only [hw, Option.elim] at hc
    · exact place_bounds ho hc
    · cases hc
  · cases h

/-- A load that runs out of space moves on in the batch, unless the chunk held rows before. -/
theorem load_progress {c : Chunk} {b : Batch} {projection : Option (List Nat)} {offset : Nat}
    {schedule : Schedule} {o : LoadOutcome}
    (h : (c.load b projection offset schedule).result = .ok o) (hs : o.status ≠ .success)
    (he : ¬(c.load b projection offset schedule).state.isEmpty) :
    2 * (b.rows - (offset + o.consumed)) < 2 * (b.rows - offset) + min c.rows 1 := by
  obtain ⟨hle, hne, hrows⟩ := load_bounds h
  have hlt := hne hs
  have hloaded : o.loaded ≤ o.consumed := Nat.le_add_right _ _
  simp only [isEmpty, decide_eq_true_eq] at he
  omega

end Chunk
end ChunkSort
