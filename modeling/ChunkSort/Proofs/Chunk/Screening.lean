import ChunkSort.Proofs.Chunk.Merge
import ChunkSort.Proofs.Network.Screening

/-!
Bad rows in one operation: a sort of two rows or more does not succeed with one of them, nor does a merge of two
chunks that both have rows.
-/

namespace ChunkSort

def Comparator.FailsAmong (cmp : Comparator) (P bad : Record → Prop) : Prop :=
  ∀ a b, P a → P b → ((∃ cause, cmp a b = .error cause) ↔ bad a ∨ bad b)

/-- On records of the schema the comparator fails exactly when the content of one of the two is bad. What it
answers otherwise is open. -/
def Comparator.FailsOn (cmp : Comparator) (schema : List ColumnType) (bad : Row → Prop) : Prop :=
  ∀ {a b : Record} {u v : Row}, a.Reads schema u → b.Reads schema v →
    ((∃ cause, cmp a b = .error cause) ↔ bad u ∨ bad v)

def Poisoned (column : Nat) (v : Value) (row : Row) : Prop := ∃ w ∈ row.values[column]?, w.numericEq v = true

theorem poisoned_failsOn (schema : List ColumnType) {column : Nat} (hc : column < schema.length) (v : Value)
    (text : String) (o : Ordering) :
    ((Comparator.constant o).poisoned column v text).FailsOn schema (Poisoned column v) := by
  intro a b u u' ha hb
  obtain ⟨w, hu, hw, _⟩ := ha.exists_value hc
  obtain ⟨w', hu', hw', _⟩ := hb.exists_value hc
  rw [Poisoned, Poisoned, hu, hu', Comparator.poisoned, hw, hw']
  simp only [bind, Except.bind, throw, throwThe, MonadExceptOf.throw, Option.mem_some_iff, exists_eq_left',
    Comparator.constant]
  by_cases h : w.numericEq v = true <;> by_cases h' : w'.numericEq v = true <;> simp [h, h']

def Comparator.Clears (cmp : Comparator) (schema : List ColumnType) (rows : List Row) : Prop :=
  ∀ bad, cmp.FailsOn schema bad → ∀ row ∈ rows, ¬bad row

variable {cmp : Comparator}

theorem Comparator.clears_nil (cmp : Comparator) (schema : List ColumnType) : cmp.Clears schema [] :=
  fun _ _ _ hrow => absurd hrow List.not_mem_nil

theorem Comparator.Clears.subset {schema : List ColumnType} {rows rows' : List Row} (h : cmp.Clears schema rows)
    (hs : rows' ⊆ rows) : cmp.Clears schema rows' := fun bad hf row hrow => h bad hf row (hs hrow)

theorem Comparator.Clears.append {schema : List ColumnType} {rows rows' : List Row} (h : cmp.Clears schema rows)
    (h' : cmp.Clears schema rows') : cmp.Clears schema (rows ++ rows') :=
  fun bad hf => List.forall_mem_append.mpr ⟨h bad hf, h' bad hf⟩

theorem Comparator.FailsAmong.mono {P Q bad : Record → Prop} (h : cmp.FailsAmong P bad) (hPQ : ∀ r, Q r → P r) :
    cmp.FailsAmong Q bad := fun a b ha hb => h a b (hPQ a ha) (hPQ b hb)

theorem Comparator.FailsOn.failsAmong {schema : List ColumnType} {bad : Row → Prop} (h : cmp.FailsOn schema bad) :
    cmp.FailsAmong (fun r => ∃ row, r.Reads schema row) fun r => ∃ row, r.Reads schema row ∧ bad row := by
  have content {r : Record} {u : Row} (hu : r.Reads schema u) : bad u ↔ ∃ row, r.Reads schema row ∧ bad row :=
    ⟨fun hbad => ⟨u, hu, hbad⟩, fun ⟨_, hrow, hbad⟩ => hrow.gives.unique hu.gives ▸ hbad⟩
  rintro a b ⟨u, hu⟩ ⟨v, hv⟩
  rw [h hu hv, content hu, content hv]

theorem outOfOrder_screens {P bad : Record → Prop} (h : cmp.FailsAmong P bad) {record : UInt32 → Record}
    {ties : UInt32 → UInt32 → Ordering} {entries : List UInt32} (hpad : ∀ e ∈ entries, e ≠ padding)
    (hlive : ∀ e ∈ entries, P (record e)) :
    Screens (outOfOrder cmp record ties) (fun e => e = padding ∨ e ∈ entries) (· ∈ entries)
      fun e => bad (record e) where
  upper {a b} hb hbe := by rw [outOfOrder, if_pos (hb.resolve_right hbe)]
  lower {a b} ha hae hbe := by rw [outOfOrder, if_neg (hpad b hbe), if_pos (ha.resolve_right hae)]
  fails {a b} hae hbe hbad swap hok := by
    obtain ⟨cause, hcmp⟩ := (h _ _ (hlive a hae) (hlive b hbe)).mpr hbad
    rw [outOfOrder, if_neg (hpad b hbe), if_neg (hpad a hae), hcmp] at hok
    cases hok

theorem Chunk.sort_screens {c : Chunk} (hc : c.WellFormed) {bad : Record → Prop} (hf : cmp.FailsAmong c.Live bad)
    {schedule : Schedule} (hok : (c.sort cmp schedule).result = .ok ()) (htwo : 2 ≤ c.rows) :
    ∀ e ∈ c.entries, ¬bad (c.recordOf e) := by
  intro e he hbad
  have hs : Screens (outOfOrder cmp c.recordOf fun _ _ => .eq) (fun e => e = padding ∨ e ∈ c.entries) (· ∈ c.entries)
      fun e => bad (c.recordOf e) :=
    outOfOrder_screens hf (fun e he => hc.ne_padding_of_mem_entries he) fun e he => hc.live_recordOf he
  obtain ⟨k, hk⟩ := paddedSize_eq c.capacity
  have hruns := runPasses_sortSchedule_bad hs (hc.index_size.trans hk) hc.rows_le_index
    (fun a ha => ⟨.inr ha, ha⟩) htwo he hbad
  rw [Chunk.sort] at hok
  cases hr : runPasses (outOfOrder cmp c.recordOf fun _ _ => .eq) c.rows c.index (sortSchedule c.index.size)
      schedule.lanes with
  | ok t => exact hruns t _ hr
  | error f =>
    rw [hr] at hok
    cases hok

theorem Chunk.sort_clears {c : Chunk} (hc : c.WellFormed) {schedule : Schedule}
    (hok : (c.sort cmp schedule).result = .ok ()) (htwo : 2 ≤ c.rows) :
    cmp.Clears c.schema c.sortedRows := by
  intro bad hf row hrow hbad
  obtain ⟨e, he, rfl⟩ := List.mem_map.mp hrow
  exact sort_screens hc (hf.failsAmong.mono fun _ hr => hr.exists_reads hc) hok htwo e he
    ⟨_, hc.reads (hc.lt_of_mem_entries he), hbad⟩

namespace MergeSet

variable {s : MergeSet} (h : s.WellFormed) (hx : 0 < s.x.rows) (hy : 0 < s.y.rows)
include h hx hy

theorem infected_slots {k : Nat} (hk : s.half = 1 <<< k) {bad : UInt32 → Prop} {e : UInt32} (he : e ∈ s.joint)
    (hbad : bad e) : Infected (· ∈ s.joint) bad (1 <<< k + 1 <<< k) (s.leftSlots ++ s.rightSlots) 0
      (1 <<< k + 1 <<< k) := by
  -- Both inputs have a first row, and one of these is not the bad one.
  have hleft := s.size_leftSlots.trans hk
  have hright := s.size_rightSlots.trans hk
  have hpos := one_shiftLeft_pos k
  have hsize : (s.leftSlots ++ s.rightSlots).size = 1 <<< k + 1 <<< k := by rw [Array.size_append, hleft, hright]
  have hmem : e ∈ liveEntries (s.leftSlots ++ s.rightSlots) (1 <<< k + 1 <<< k) := by
    rw [liveEntries, List.take_of_length_le (by simp [hleft, hright]), Array.toList_append]
    have key := h.filter_slots ▸ he
    exact (List.mem_filter.mp key).1
  obtain ⟨i, hi, hocc⟩ := exists_occupied_of_mem (P := fun e => e ∈ s.joint ∧ bad e) hmem ⟨he, hbad⟩
  have hfirst : Occupied (· ∈ s.joint) (1 <<< k + 1 <<< k) (s.leftSlots ++ s.rightSlots) 0 := by
    obtain ⟨f, fs, hfs⟩ := List.exists_cons_of_length_pos (h.x.length_entries ▸ hx)
    refine ⟨by omega, f, ?_, List.mem_append_left _ (hfs ▸ List.mem_cons_self)⟩
    rw [Array.getElem?_append_left (by omega), ← Array.getElem?_toList, h.toList_leftSlots, hfs]
    rfl
  have hsecond : Occupied (· ∈ s.joint) (1 <<< k + 1 <<< k) (s.leftSlots ++ s.rightSlots) (1 <<< k) := by
    obtain ⟨f, fs, hfs⟩ := List.exists_cons_of_length_pos (h.y.length_entries ▸ hy)
    refine ⟨by omega, f + UInt32.ofNat s.half, ?_,
      List.mem_append_right _ (List.mem_map_of_mem (hfs ▸ List.mem_cons_self))⟩
    rw [Array.getElem?_append_right (by omega), hleft, Nat.sub_self, ← Array.getElem?_toList, h.toList_rightSlots, hfs]
    rfl
  by_cases hz : i = 0
  · subst hz
    exact ⟨0, by omega, 1 <<< k, by omega, by omega, hocc, by rwa [Nat.zero_add]⟩
  · exact ⟨i, by omega, 0, by omega, hz, by rwa [Nat.zero_add], hfirst⟩

theorem order_screens {bad : Record → Prop} (hf : cmp.FailsAmong s.Live bad) {schedule : Schedule}
    {merged : List UInt32} (hok : s.order cmp schedule = .ok merged) : ∀ e ∈ s.joint, ¬bad (s.recordOf e) := by
  intro e he hbad
  obtain ⟨k, hk⟩ := paddedSize_eq (max s.x.rows s.y.rows)
  have hs : Screens (s.exchange cmp) (fun e => e = padding ∨ e ∈ s.joint) (· ∈ s.joint) fun e => bad (s.recordOf e) :=
    outOfOrder_screens hf (fun e he => h.ne_padding_of_mem_joint he) fun e he => h.live_recordOf he
  have hleft := s.size_leftSlots.trans hk
  have hright := s.size_rightSlots.trans hk
  have hsize : (s.leftSlots ++ s.rightSlots).size = 1 <<< k + 1 <<< k := by rw [Array.size_append, hleft, hright]
  have hsplit := mergeNetwork_split (s.exchange cmp) hleft hright
  rw [mergeSchedule_eq, Nat.two_mul] at hsplit
  have hruns := runPasses_stagePasses_infected hs k (Nat.le_of_eq hsize.symm)
    (fun a ha => h.mem_slots (Array.toList_append ▸ List.mem_of_mem_take ha)) hsize
    (infected_slots h hx hy hk he hbad)
  have hempty : ¬(s.x.isEmpty || s.y.isEmpty) = true := by
    simp only [Chunk.isEmpty, Bool.or_eq_true, decide_eq_true_eq]
    omega
  rw [order_eq_ok_iff, order_eq, network, if_neg hempty] at hok
  cases hm : mergeNetwork (s.exchange cmp) s.leftSlots s.rightSlots with
  | error f =>
    rw [hm] at hok
    cases hok
  | ok p =>
    rw [hm] at hsplit
    cases hr : runPasses (s.exchange cmp) (1 <<< k + 1 <<< k) (s.leftSlots ++ s.rightSlots) (stagePasses k) with
    | ok t => exact hruns t hr
    | error f =>
      rw [hr] at hsplit
      exact hsplit

theorem merge_clears (hxy : s.y.schema = s.x.schema) {schedule : Schedule}
    (hok : (s.merge cmp schedule).result = .ok ()) :
    cmp.Clears s.x.schema (s.x.sortedRows ++ s.y.sortedRows) := by
  intro bad hf
  cases ho : s.order cmp schedule with
  | ok merged =>
    have key := order_screens h hx hy (hf.failsAmong.mono fun _ hr => hr.exists_reads h hxy) ho
    rw [← h.map_rowOf_joint]
    intro row hrow hbad
    obtain ⟨e, he, rfl⟩ := List.mem_map.mp hrow
    exact key e he ⟨_, h.reads_recordOf hxy he, hbad⟩
  | error f =>
    unfold merge at hok
    cases hv : s.layoutViolation? with
    | some v => rw [hv] at hok; cases hok
    | none => simp only [hv, ho] at hok; cases hok

end MergeSet
end ChunkSort
