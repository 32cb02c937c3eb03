import ChunkSort.Proofs.Chunk.WellFormed
import ChunkSort.Proofs.Comparator

/-!
Sorting a chunk. Whatever the comparator answers, a sort permutes the index entries of the rows and does
nothing else; under a total preorder it leaves them in order.
-/

namespace ChunkSort
namespace Chunk

/-- The same rows in the same slots, perhaps in another order of the index. -/
structure Reordered (c c' : Chunk) : Prop where
  wellFormed : c'.WellFormed
  id : c'.id = c.id
  store : c'.store = c.store
  side : c'.side = c.side
  rows : c'.rows = c.rows
  capacity : c'.capacity = c.capacity
  entries : c'.entries.Perm c.entries

namespace Reordered

variable {c c' : Chunk} (h : c.Reordered c')
include h

theorem schema : c'.schema = c.schema := congrArg ColumnStore.schema h.store

theorem shape : c'.shape = c.shape := by rw [Chunk.shape, h.schema, h.capacity, h.side, Chunk.shape]

theorem rowAt (slot : Nat) : c'.rowAt slot = c.rowAt slot := by rw [Chunk.rowAt, h.store, h.side, Chunk.rowAt]

theorem sortedRows_perm : c'.sortedRows.Perm c.sortedRows := by
  rw [sortedRows, sortedRows]
  simp only [h.rowAt]
  exact h.entries.map _

end Reordered

theorem WellFormed.reads {c : Chunk} (hc : c.WellFormed) {slot : Nat} (hs : slot < c.rows) :
    (c.recordAt slot).Reads c.schema (c.rowAt slot) := ⟨rfl, hc.gives hs⟩

theorem Indexed.live_recordOf {c : Chunk} (hc : c.Indexed) {e : UInt32} (he : e ∈ c.entries) :
    c.Live (c.recordOf e) := ⟨e.toNat, hc.lt_of_mem_entries he, rfl⟩

theorem Live.exists_reads {c : Chunk} (hc : c.WellFormed) {r : Record} (hr : c.Live r) :
    ∃ row, r.Reads c.schema row := by
  obtain ⟨slot, hs, rfl⟩ := hr
  exact ⟨_, hc.reads hs⟩

theorem WellFormed.reordered {c : Chunk} (hc : c.WellFormed) {index : Array UInt32}
    (hs : Shuffled c.rows c.index index) (status : Status) : c.Reordered { c with index, status } where
  wellFormed := hc.reindex hs.size_eq hs.perm (fun e he => hc.index_padding e (hs.drop ▸ he)) status
  id := rfl
  store := rfl
  side := rfl
  rows := rfl
  capacity := rfl
  entries := hs.perm

def SortFault (c : Chunk) (cmp : Comparator) (error : SortError) : Prop :=
  ∃ f : EntryFault, f.Arises cmp c.recordOf c.entries ∧ error = .fault c.id (some f.entry.toNat) f.cause

theorem sort_reordered {c : Chunk} (hc : c.WellFormed) (cmp : Comparator) (schedule : Schedule) :
    c.Reordered (c.sort cmp schedule).state ∧
      match (c.sort cmp schedule).result with
      | .ok _ => (c.sort cmp schedule).state.status = .success
      | .error e => (c.sort cmp schedule).state.status = .fault ∧ c.SortFault cmp e := by
  have hrun := runPasses_outcome (outOfOrder cmp c.recordOf fun _ _ => .eq) c.rows c.index (sortSchedule c.index.size)
    schedule.lanes
  rw [sort]
  cases hr : runPasses (outOfOrder cmp c.recordOf fun _ _ => .eq) c.rows c.index (sortSchedule c.index.size)
      schedule.lanes with
  | ok index =>
    rw [hr] at hrun
    exact ⟨hc.reordered hrun .success, rfl⟩
  | error h =>
    rw [hr] at hrun
    obtain ⟨a, b, f, hab, he, hstop⟩ := hrun.failed
    obtain ⟨_, _, hcmp, hf⟩ := outOfOrder_error he
    refine ⟨hc.reordered hrun.shuffled .fault, rfl, f, ⟨a, b, hab, hcmp, hf⟩, ?_⟩
    rw [hstop]
    rfl

theorem sort_eq_ok_iff_runPasses {c c' : Chunk} {cmp : Comparator} {schedule : Schedule} :
    c.sort cmp schedule = ⟨c', .ok ()⟩ ↔ ∃ index, runPasses (outOfOrder cmp c.recordOf fun _ _ => .eq) c.rows c.index
      (sortSchedule c.index.size) schedule.lanes = .ok index ∧ { c with index, status := .success } = c' := by
  unfold sort afterRun
  cases runPasses (outOfOrder cmp c.recordOf fun _ _ => .eq) c.rows c.index (sortSchedule c.index.size)
      schedule.lanes with
  | ok index => simp
  | error h => simp

theorem sort_eq_ok_iff {c c' : Chunk} {cmp : Comparator} {schedule : Schedule} :
    c.sort cmp schedule = ⟨c', .ok ()⟩ ↔ c.sort cmp = ⟨c', .ok ()⟩ := by
  rw [sort_eq_ok_iff_runPasses, sort_eq_ok_iff_runPasses]
  simp only [runPasses_eq_ok_iff]

instance : Std.TransCmp fun (_ _ : UInt32) => Ordering.eq where
  eq_swap := rfl
  isLE_trans _ _ := rfl

theorem WellFormed.sortedRecords_reads {c : Chunk} (hc : c.WellFormed) :
    List.Forall₂ (fun r row => Record.Reads r c.schema row) c.sortedRecords c.sortedRows := by
  rw [sortedRecords_eq, sortedRows, List.forall₂_map_left_iff, List.forall₂_map_right_iff,
    List.forall₂_same]
  exact fun e he => hc.reads (hc.lt_of_mem_entries he)

theorem WellFormed.slotRecords_reads {c : Chunk} (hc : c.WellFormed) :
    List.Forall₂ (fun r row => Record.Reads r c.schema row) c.slotRecords c.slotRows := by
  rw [slotRecords, slotRows, List.forall₂_map_left_iff, List.forall₂_map_right_iff, List.forall₂_same]
  exact fun slot hs => hc.reads (List.mem_range.mp hs)

theorem WellFormed.sorted_iff {c : Chunk} (hc : c.WellFormed) {cmp : Comparator} {ord : Row → Row → Ordering}
    (h : cmp.Orders c.schema ord) :
    c.sortedRecords.Pairwise cmp.Le ↔ c.sortedRows.Pairwise fun u v => ord u v ≠ .gt where
  mp hp := pairwise_of_forall₂ hc.sortedRecords_reads.flip hp fun _ _ _ _ ha hb => (h.le_iff ha hb).mp
  mpr hp := pairwise_of_forall₂ hc.sortedRecords_reads hp fun _ _ _ _ ha hb => (h.le_iff ha hb).mpr

theorem Indexed.outOfOrder_decides {c : Chunk} (hc : c.Indexed) {cmp : Comparator} (h : cmp.TotalOn c.Live) :
    Decides (outOfOrder cmp c.recordOf fun _ _ => .eq) (· ∈ c.entries) (EntryLe cmp c.recordOf fun _ _ => .eq) :=
  ChunkSort.outOfOrder_decides h fun _ he _ => hc.live_recordOf he

theorem Indexed.entryLe_iff {c : Chunk} (hc : c.Indexed) {cmp : Comparator} (h : cmp.TotalOn c.Live) {a b : UInt32}
    (ha : a ∈ c.entries) (hb : b ∈ c.entries) :
    EntryLe cmp c.recordOf (fun _ _ => .eq) a b ↔ cmp.Le (c.recordOf a) (c.recordOf b) := by
  rw [h.le_iff (hc.live_recordOf ha) (hc.live_recordOf hb), EntryLe, Ordering.then_eq]
  constructor
  · exact fun hle => (hle.resolve_left (hc.ne_padding_of_mem_entries hb)).2
  · exact fun hle => .inr ⟨hc.ne_padding_of_mem_entries ha, hle⟩

theorem Indexed.sort_pairwise {c : Chunk} (hc : c.Indexed) {cmp : Comparator} (h : cmp.TotalOn c.Live)
    (schedule : Schedule) :
    ∃ index, c.sort cmp schedule = ⟨{ c with index, status := .success }, .ok ()⟩ ∧ Shuffled c.rows c.index index ∧
      ({ c with index, status := .success } : Chunk).sortedRecords.Pairwise cmp.Le := by
  obtain ⟨k, hk⟩ := paddedSize_eq c.capacity
  obtain ⟨index, hr, hs, hp⟩ := runPasses_sortSchedule (hc.outOfOrder_decides h) (fun _ he => he) hc.rows_le_index
    (hc.index_size.trans hk) schedule.lanes
  refine ⟨index, by rw [sort, hr, afterRun], hs, ?_⟩
  rw [sortedRecords_eq, List.pairwise_map]
  exact hp.imp_of_mem fun ha hb => (hc.entryLe_iff h (hs.perm.mem_iff.mp ha) (hs.perm.mem_iff.mp hb)).mp

theorem sort_sorted {c : Chunk} (hc : c.WellFormed) {cmp : Comparator} {ord : Row → Row → Ordering}
    (h : cmp.Orders c.schema ord) (schedule : Schedule) :
    (c.sort cmp schedule).result = .ok () ∧
      (c.sort cmp schedule).state.sortedRows.Pairwise fun u v => ord u v ≠ .gt := by
  obtain ⟨index, hsort, hs, hp⟩ := hc.toIndexed.sort_pairwise (h.totalOn.mono fun _ hr => hr.exists_reads hc) schedule
  rw [hsort]
  exact ⟨rfl, ((hc.reordered hs .success).wellFormed.sorted_iff h).mp hp⟩

structure Reindexed (c c' : Chunk) : Prop where
  unchanged : c' = { c with index := c'.index }
  index_size : c'.index.size = c.index.size
  perm : ((c'.index.toList.take c.rows).map UInt32.toNat).Perm (List.range c.rows)
  padding : ∀ e ∈ c'.index.toList.drop c.rows, e = padding

theorem Indexed.reindexed {c : Chunk} (hc : c.Indexed) {index : Array UInt32} (hsize : index.size = c.index.size)
    (hperm : (index.toList.take c.rows).Perm c.entries) (hpad : ∀ e ∈ index.toList.drop c.rows, e = padding) :
    c.Reindexed { c with index } where
  unchanged := rfl
  index_size := hsize
  perm := (hperm.map UInt32.toNat).trans hc.entries_toNat_perm
  padding := hpad

structure OrderedBy (c : Chunk) (cmp : Comparator) (c' : Chunk) : Prop where
  reindexed : (c.withStatus .success).Reindexed c'
  sorted : c'.sortedRecords.Pairwise cmp.Le

/-- A sort by a total preorder of the records of a chunk succeeds. Nothing is asked of the cells. -/
theorem sort_orders {c : Chunk} (hc : c.Indexed) (cmp : Comparator) (h : cmp.TotalOn c.Live) (schedule : Schedule) :
    (c.sort cmp schedule).result = .ok () ∧ c.OrderedBy cmp (c.sort cmp schedule).state := by
  obtain ⟨index, hsort, hs, hp⟩ := hc.sort_pairwise h schedule
  have hc' : (c.withStatus .success).Indexed := { hc with }
  rw [hsort]
  exact ⟨rfl, hc'.reindexed hs.size_eq hs.perm fun e he => hc.index_padding e (hs.drop ▸ he), hp⟩

def shuffledChunk : Chunk :=
  { Chunk.empty 9 [.int64] 5 none with rows := 3, index := #[1, 0, 2] ++ Array.replicate 5 padding }

theorem indexed_shuffledChunk : shuffledChunk.Indexed where
  capacity_le := by decide
  rows_le := by decide
  index_size := by decide +kernel
  index_perm := .swap 0 1 [2]
  index_padding _ he := List.eq_of_mem_replicate (n := 5) he

theorem sort_orders_shuffledChunk :
    (shuffledChunk.sort Comparator.bySlot).result = .ok () ∧
      shuffledChunk.OrderedBy .bySlot (shuffledChunk.sort Comparator.bySlot).state :=
  sort_orders indexed_shuffledChunk _ (Comparator.bySlot_totalOn _) {}

/-! ### Sorting again -/

theorem Indexed.sort_of_sorted {c : Chunk} (hc : c.Indexed) {cmp : Comparator} (h : cmp.TotalOn c.Live)
    (hsorted : c.sortedRecords.Pairwise cmp.Le) (schedule : Schedule) :
    c.sort cmp schedule = ⟨c.withStatus .success, .ok ()⟩ := by
  have hp : (liveEntries c.index c.rows).Pairwise (EntryLe cmp c.recordOf fun _ _ => .eq) := by
    rw [sortedRecords_eq, List.pairwise_map] at hsorted
    exact hsorted.imp_of_mem fun ha hb => (hc.entryLe_iff h ha hb).mpr
  rw [sort, runPasses_of_pairwise (hc.outOfOrder_decides h) (fun _ he => he) hp]
  rfl

/-- A chunk whose records are in order already is left as it is, in whatever order equal ones are. So a second sort
does nothing that the first one did not. -/
theorem sort_keeps_sorted {c : Chunk} (hc : c.Indexed) (cmp : Comparator) (h : cmp.TotalOn c.Live)
    (schedule again : Schedule) :
    (c.sortedRecords.Pairwise cmp.Le → c.sort cmp schedule = ⟨c.withStatus .success, .ok ()⟩) ∧
      (c.sort cmp schedule).state.sort cmp again = c.sort cmp schedule := by
  refine ⟨fun hsorted => hc.sort_of_sorted h hsorted schedule, ?_⟩
  obtain ⟨index, hsort, hs, hp⟩ := hc.sort_pairwise h schedule
  have hc' : Indexed { c with index, status := .success } :=
    hc.reindex hs.size_eq hs.perm (fun e he => hc.index_padding e (hs.drop ▸ he)) .success
  rw [hsort]
  exact hc'.sort_of_sorted h hp again

def byTwos : Comparator := fun a b => .ok (compare (a.slot / 2) (b.slot / 2))

theorem byTwos_totalOn (P : Record → Prop) : byTwos.TotalOn P :=
  .of_preorders ((Preorders.of_transCmp (fun _ => True) compare).comap fun _ _ => trivial) fun _ _ => rfl

theorem sort_keeps_sorted_shuffledChunk :
    shuffledChunk.sortedRecords.Pairwise byTwos.Le ∧
      shuffledChunk.sort byTwos = ⟨shuffledChunk.withStatus .success, .ok ()⟩ := by
  have hsorted : shuffledChunk.sortedRecords.Pairwise byTwos.Le := by
    have hrecords : shuffledChunk.sortedRecords = [1, 0, 2].map shuffledChunk.recordAt := by rfl
    have hle : [1, 0, 2].Pairwise fun i j : Nat => compare (i / 2) (j / 2) ≠ .gt := by decide
    rw [hrecords, List.pairwise_map]
    exact hle.imp fun hij => ⟨_, rfl, hij⟩
  exact ⟨hsorted, (sort_keeps_sorted indexed_shuffledChunk byTwos (byTwos_totalOn _) {} {}).1 hsorted⟩

end Chunk
end ChunkSort
