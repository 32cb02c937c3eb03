import ChunkSort.Proofs.Sorter.Screening

/-!
When a sort succeeds. With a comparator that never fails it is up to the batches alone: what a sort needs of each of
them says nothing about other batches, chunks or rows that are not visible.
-/

namespace ChunkSort
namespace Sorter

variable {s : Sorter}

/-- The batch is not too long and has the right width, and each visible row has cells that can be read and fit their
columns, and payloads that have room in an empty chunk. -/
structure Admits (s : Sorter) (b : Batch) : Prop extends s.Accepts b where
  cells : ∀ row < b.rows, b.visible row = true → ∀ column type, s.layout.schema[column]? = some type →
    ∃ v, (b.source s.projection row).value column = .ok v ∧ type.Accepts v
  payloads : ∀ row < b.rows, b.visible row = true → ∀ size,
    (b.source s.projection row).payloadSize s.layout.schema = .ok size → ∀ limit ∈ s.layout.sideLimit, size ≤ limit

theorem mem_visibleRows_zero {b : Batch} {row : Nat} : row ∈ b.visibleRows 0 ↔ row < b.rows ∧ b.visible row = true := by
  rw [Batch.mem_visibleRows, Nat.sub_zero, Nat.zero_add]
  exact and_congr_left' (and_iff_right (Nat.zero_le row))

theorem payloadSize_readable_iff {source : SourceRow} {schema : List ColumnType} :
    (∃ size, source.payloadSize schema = .ok size) ↔
      ∀ column type, schema[column]? = some type → ∃ v, source.value column = .ok v ∧ type.Accepts v := by
  unfold SourceRow.payloadSize
  rw [SourceRow.exists_payloadSizeFrom_iff]
  simp only [Nat.zero_add]

theorem admits_iff_loadable {b : Batch} : s.Admits b ↔ s.Loadable b := by
  constructor
  · intro h
    refine ⟨h.toAccepts, fun r hr => ?_⟩
    obtain ⟨hlt, hvisible⟩ := mem_visibleRows_zero.mp hr
    obtain ⟨size, hsize⟩ := payloadSize_readable_iff.mpr (h.cells r hlt hvisible)
    obtain ⟨row, hg, _, hlen⟩ := SourceRow.exists_gives_of_payloadSize rfl hsize
    exact ⟨row, hg, hlen.symm ▸ h.payloads r hlt hvisible size hsize⟩
  · intro h
    have hrows : ∀ r < b.rows, b.visible r = true → ∃ row, (b.source s.projection r).Gives s.layout.schema row ∧
        ∀ limit ∈ s.layout.sideLimit, row.payloadLength ≤ limit :=
      fun r hlt hvisible => h.rows r (mem_visibleRows_zero.mpr ⟨hlt, hvisible⟩)
    refine ⟨h.toAccepts, fun r hlt hvisible => ?_, fun r hlt hvisible size hsize => ?_⟩
    · obtain ⟨row, hg, _⟩ := hrows r hlt hvisible
      exact payloadSize_readable_iff.mp ⟨_, hg.payloadSize⟩
    · obtain ⟨row, hg, hle⟩ := hrows r hlt hvisible
      rw [hg.payloadSize] at hsize
      obtain rfl := Except.ok.inj hsize
      exact hle

theorem BatchCause.fault_or_violation {b : Batch} {error : SortError} (h : s.BatchCause b error) :
    (∃ chunk row cause, error = .fault chunk row cause) ∨ ∃ violation, error = .contractViolation violation := by
  rcases h with ⟨c, offset, _, _, hcause⟩ | ⟨row, rfl⟩
  · rcases hcause with ⟨v, _, rfl⟩ | ⟨cause, rfl, _⟩
    · exact .inr ⟨v, rfl⟩
    · exact .inl ⟨c.id, none, cause, rfl⟩
  · exact .inr ⟨_, rfl⟩

/-- A sort whose comparator never fails comes to an end, with a run exactly when it admits every batch. Otherwise it
ends with a fault or a contract violation, and the cause is a batch that is not admitted. -/
theorem sortBy_ok_iff_admits (s : Sorter) (cmp : Comparator) (hcmp : cmp.NeverFails s.layout.schema)
    (batches : List Batch) (next : Nat) :
    ((∃ run, (s.sortBy cmp batches next).result = .ok run) ↔ ∀ b ∈ batches, s.Admits b) ∧
      ∀ error, (s.sortBy cmp batches next).result = .error error →
        ((∃ chunk row cause, error = .fault chunk row cause) ∨ ∃ violation, error = .contractViolation violation) ∧
          ∃ b ∈ batches, ¬s.Admits b ∧ s.BatchCause b error := by
  simp only [admits_iff_loadable]
  refine ⟨sortBy_ok_iff_loadable hcmp batches next, fun error hr => ?_⟩
  obtain ⟨b, hm, hcause, hnot⟩ := (sortBy_outcome hcmp batches next).of_error hr
  exact ⟨hcause.fault_or_violation, b, hm, hnot, hcause⟩

def shortWordSorter : Sorter :=
  { pairSorter with
    layout := ⟨[.varLen], 4, some 4, by decide, by decide⟩, projection := none, spills := false,
    projection_length := nofun }

def words (id : UInt32) (lengths : List Nat) : Batch :=
  .ofRows id 1 (lengths.map fun n => #[.bytes (List.replicate n 97)]).toArray none

theorem payloadSize_words {id : UInt32} {lengths : List Nat} {row : Nat} (h : row < (words id lengths).rows) :
    ∃ n ∈ lengths, ((words id lengths).source none row).payloadSize [.varLen] = .ok n := by
  have hlt : row < lengths.length := by simpa [words, Batch.ofRows] using h
  refine ⟨lengths[row], List.getElem_mem hlt, ?_⟩
  simp [SourceRow.payloadSize, SourceRow.payloadSizeFrom, Batch.source, words, Batch.ofRows, hlt,
    ColumnType.payloadLength, bind, Except.bind, pure, Except.pure]

theorem admits_words (id : UInt32) {lengths : List Nat} (hlen : lengths.length ≤ maxBatchRows)
    (h : ∀ n ∈ lengths, n ≤ 4) : shortWordSorter.Admits (words id lengths) where
  rows_le := by simpa [words, Batch.ofRows] using hlen
  columns := rfl
  cells row hrow _ := by
    obtain ⟨n, _, hsize⟩ := payloadSize_words hrow
    exact payloadSize_readable_iff.mp ⟨n, hsize⟩
  payloads row hrow _ size hsize := by
    obtain ⟨n, hn, hsize'⟩ := payloadSize_words hrow
    obtain rfl := Except.ok.inj (hsize'.symm.trans hsize)
    rintro _ ⟨⟩
    exact h n hn

theorem sortBy_ok_iff_admits_words :
    (∃ run, (shortWordSorter.sortBy (.constant .gt) [words 0 [3, 4, 0, 4], words 1 []] 0).result = .ok run) ∧
      ∃ error, (shortWordSorter.sortBy (.constant .gt) [words 0 [3, 4], words 1 [0, 8]] 0).result = .error error ∧
        ((∃ chunk row cause, error = .fault chunk row cause) ∨ ∃ violation, error = .contractViolation violation) := by
  have hcmp : (Comparator.constant .gt).NeverFails [.varLen] := fun _ _ => ⟨.gt, rfl⟩
  have key := sortBy_ok_iff_admits shortWordSorter (.constant .gt) hcmp
  refine ⟨(key _ 0).1.mpr ?_, ?_⟩
  · intro b hb
    rcases List.mem_pair.mp hb with rfl | rfl
    · exact admits_words 0 (by decide) (by decide)
    · exact admits_words 1 (by decide) (by decide)
  · obtain ⟨hiff, hcause⟩ := key [words 0 [3, 4], words 1 [0, 8]] 0
    have hlong : ¬∀ b ∈ [words 0 [3, 4], words 1 [0, 8]], shortWordSorter.Admits b := fun hall => by
      have hb := hall _ (List.mem_cons_of_mem _ List.mem_cons_self)
      exact absurd (hb.payloads 1 (by decide) rfl 8 rfl 4 rfl) (by decide)
    cases hr : (shortWordSorter.sortBy (.constant .gt) [words 0 [3, 4], words 1 [0, 8]] 0).result with
    | ok run => exact absurd (hiff.mp ⟨run, hr⟩) hlong
    | error error => exact ⟨error, rfl, (hcause error hr).1⟩

end Sorter
end ChunkSort
