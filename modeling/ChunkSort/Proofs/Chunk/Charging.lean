import ChunkSort.Proofs.Chunk.Load
import ChunkSort.Proofs.Chunk.Screening

/-!
Faults of single operations under a comparator that fails on bad rows and nowhere else. An operation that has anything
to compare faults as soon as one row is bad, since every row meets another one in the network, and it charges a bad
row: of the two operands the left one, unless that can be compared with itself and the right one cannot.
-/

namespace ChunkSort

variable {cmp : Comparator} {bad : Record → Prop}

theorem Comparator.FailsAmong.fails_alone_iff {P : Record → Prop} (h : cmp.FailsAmong P bad) {a : Record} (ha : P a) :
    (cmp a a).isOk = true ↔ ¬bad a := by
  have hself := h a a ha ha
  rw [or_self] at hself
  rw [← hself]
  cases cmp a a <;> simp [Except.isOk, Except.toBool]

theorem Comparator.FailsAmong.charged {P : Record → Prop} (h : cmp.FailsAmong P bad) {a b : Record} (ha : P a)
    (hb : P b) {cause : DataError} (hcmp : cmp a b = .error cause) : if cmp.chargesRight a b then bad b else bad a := by
  have hbad := (h a b ha hb).mp ⟨cause, hcmp⟩
  have haa := h.fails_alone_iff ha
  have hbb := h.fails_alone_iff hb
  rw [chargesRight]
  cases hl : (cmp a a).isOk <;> cases hr : (cmp b b).isOk <;> simp_all

theorem EntryFault.Arises.bad_entry {P : Record → Prop} {f : EntryFault} {record : UInt32 → Record}
    {entries : List UInt32} (h : f.Arises cmp record entries) (hf : cmp.FailsAmong P bad)
    (hlive : ∀ e ∈ entries, P (record e)) : 2 ≤ entries.length ∧ f.entry ∈ entries ∧ bad (record f.entry) := by
  obtain ⟨a, b, hab, hcmp, hentry⟩ := h
  have ha := hab.subset (List.mem_cons_self ..)
  have hb := hab.subset (List.mem_cons_of_mem _ (List.mem_cons_self ..))
  have hcharged := hf.charged (hlive a ha) (hlive b hb) hcmp
  refine ⟨hab.length_le, ?_⟩
  rw [hentry]
  split at hcharged
  next hright => rw [if_pos hright]; exact ⟨hb, hcharged⟩
  next hright => rw [if_neg hright]; exact ⟨ha, hcharged⟩

/-- The fault names the chunk, and a slot of it with a bad row. -/
def SortError.ChargedTo (e : SortError) (c : Chunk) (bad : Record → Prop) : Prop :=
  ∃ slot cause, e = .fault c.id (some slot) cause ∧ slot < c.rows ∧ bad (c.recordAt slot)

namespace Chunk

def Tainted (c : Chunk) (bad : Record → Prop) : Prop := ∃ slot < c.rows, bad (c.recordAt slot)

theorem Indexed.exists_entry {c : Chunk} (hc : c.Indexed) {slot : Nat} (hs : slot < c.rows) :
    ∃ e ∈ c.entries, e.toNat = slot :=
  List.mem_map.mp (hc.entries_toNat_perm.mem_iff.mpr (List.mem_range.mpr hs))

structure SortFaults (c : Chunk) (cmp : Comparator) (bad : Record → Prop) (schedule : Schedule) : Prop where
  fails : (∃ e, (c.sort cmp schedule).result = .error e) ↔ 2 ≤ c.rows ∧ c.Tainted bad
  charged : ∀ e, (c.sort cmp schedule).result = .error e → e.ChargedTo c bad
  status : ∀ e, (c.sort cmp schedule).result = .error e → (c.sort cmp schedule).state.status = .fault
  entries : ((c.sort cmp schedule).state.entries.map UInt32.toNat).Perm (List.range c.rows)

theorem sort_faults {c : Chunk} (hc : c.WellFormed) (hf : cmp.FailsAmong c.Live bad) (schedule : Schedule) :
    c.SortFaults cmp bad schedule := by
  obtain ⟨hreordered, hend⟩ := sort_reordered hc cmp schedule
  have hentries := (hreordered.entries.map UInt32.toNat).trans hc.entries_toNat_perm
  cases hr : (c.sort cmp schedule).result with
  | ok =>
    refine ⟨?_, fun e he => ?_, fun e he => ?_, hentries⟩
    · rw [hr]
      constructor
      · rintro ⟨_, he⟩
        cases he
      · rintro ⟨htwo, slot, hs, hbad⟩
        obtain ⟨e, he, rfl⟩ := hc.exists_entry hs
        exact absurd hbad (sort_screens hc hf hr htwo e he)
    · rw [hr] at he; cases he
    · rw [hr] at he; cases he
  | error e =>
    rw [hr] at hend
    obtain ⟨hstatus, f, harises, rfl⟩ := hend
    obtain ⟨htwo, hmem, hbad⟩ := harises.bad_entry hf fun e he => hc.live_recordOf he
    have hslot := hc.lt_of_mem_entries hmem
    rw [hc.length_entries] at htwo
    refine ⟨?_, fun e he => ?_, fun _ _ => hstatus, hentries⟩
    · rw [hr]
      exact ⟨fun _ => ⟨htwo, _, hslot, hbad⟩, fun _ => ⟨_, rfl⟩⟩
    · rw [hr] at he
      cases he
      exact ⟨_, _, rfl, hslot, hbad⟩

end Chunk

namespace MergeSet

variable {s : MergeSet}

structure MergeFaults (s : MergeSet) (cmp : Comparator) (bad : Record → Prop) (schedule : Schedule) : Prop where
  fails : (∃ chunk row cause, (s.merge cmp schedule).result = .error (.fault chunk row cause)) ↔
    0 < s.x.rows ∧ 0 < s.y.rows ∧ (s.x.Tainted bad ∨ s.y.Tainted bad)
  charged : ∀ chunk row cause, (s.merge cmp schedule).result = .error (.fault chunk row cause) →
    (SortError.fault chunk row cause).ChargedTo s.x bad ∨ (SortError.fault chunk row cause).ChargedTo s.y bad

theorem order_of_empty (cmp : Comparator) (h : ¬(0 < s.x.rows ∧ 0 < s.y.rows)) (schedule : Schedule) :
    ∃ merged, s.order cmp schedule = .ok merged := by
  have hempty : (s.x.isEmpty || s.y.isEmpty) = true := by
    simp only [Chunk.isEmpty, Bool.or_eq_true, decide_eq_true_eq]
    omega
  rw [order_eq, network, if_pos hempty]
  exact ⟨_, rfl⟩

theorem WellFormed.exists_joint (h : s.WellFormed) (ht : s.x.Tainted bad ∨ s.y.Tainted bad) :
    ∃ e ∈ s.joint, bad (s.recordOf e) := by
  rcases ht with ⟨slot, hs, hbad⟩ | ⟨slot, hs, hbad⟩
  · obtain ⟨e, he, rfl⟩ := h.x.exists_entry hs
    refine ⟨e, List.mem_append_left _ he, ?_⟩
    rwa [recordOf_eq, (h.locate_left he).2]
  · obtain ⟨e, he, rfl⟩ := h.y.exists_entry hs
    refine ⟨_, List.mem_append_right _ (List.mem_map_of_mem he), ?_⟩
    rwa [recordOf_eq, (h.locate_right he).2.2]

theorem WellFormed.faultAt_charged (h : s.WellFormed) {f : EntryFault} (hmem : f.entry ∈ s.joint)
    (hbad : bad (s.recordOf f.entry)) : (s.faultAt f).ChargedTo s.x bad ∨ (s.faultAt f).ChargedTo s.y bad := by
  -- A joint entry leads back to the input that it came from.
  rw [recordOf_eq] at hbad
  rcases h.locate_joint hmem with ⟨hchunk, hslot⟩ | ⟨hchunk, hslot⟩
  · exact .inl ⟨(s.locate f.entry).2, f.cause, by rw [← hchunk]; rfl, hslot, hchunk ▸ hbad⟩
  · exact .inr ⟨(s.locate f.entry).2, f.cause, by rw [← hchunk]; rfl, hslot, hchunk ▸ hbad⟩

theorem merge_faults (h : s.WellFormed) (hm : s.Mergeable) (hf : cmp.FailsAmong s.Live bad) (schedule : Schedule) :
    s.MergeFaults cmp bad schedule := by
  have horder := order_outcome h cmp schedule
  cases ho : s.order cmp schedule with
  | error stop =>
    obtain ⟨f, harises, rfl⟩ := horder.of_error ho
    have hr : (s.merge cmp schedule).result = .error (s.faultAt f) := by rw [merge_of_fault hm ho]
    have hboth : 0 < s.x.rows ∧ 0 < s.y.rows := by
      by_contra hempty
      obtain ⟨merged, hok⟩ := order_of_empty cmp hempty schedule
      cases ho.symm.trans hok
    obtain ⟨_, hmem, hbad⟩ := harises.bad_entry hf fun e he => h.live_recordOf he
    have hcharged := h.faultAt_charged hmem hbad
    refine ⟨⟨fun _ => ⟨hboth.1, hboth.2, ?_⟩, fun _ => ⟨_, _, _, hr⟩⟩, fun chunk row cause he => ?_⟩
    · exact hcharged.imp (fun ⟨slot, _, _, hs⟩ => ⟨slot, hs⟩) fun ⟨slot, _, _, hs⟩ => ⟨slot, hs⟩
    · rw [hr] at he
      rwa [← Except.error.inj he]
  | ok merged =>
    have hsound : ∀ chunk row cause, (s.merge cmp schedule).result ≠ .error (.fault chunk row cause) := by
      intro chunk row cause he
      have hp := horder.of_ok ho
      cases hv : s.shortfall? (s.split merged) (merged.map fun e => (s.rowOf e).payloadLength) with
      | some v =>
        rw [merge_of_shortfall hm h ho hp hv] at he
        cases he
      | none =>
        rw [(merge_delivered hm h ho hp ((shortfall?_eq_none_iff h merged).mp hv)).1] at he
        cases he
    refine ⟨⟨fun ⟨chunk, row, cause, he⟩ => absurd he (hsound chunk row cause), ?_⟩,
      fun chunk row cause he => absurd he (hsound chunk row cause)⟩
    rintro ⟨hx, hy, ht⟩
    obtain ⟨e, he, hbad⟩ := h.exists_joint ht
    exact absurd hbad (order_screens h hx hy hf ho e he)

end MergeSet

/-- Let a comparator fail exactly where one of the records is bad, whatever it answers elsewhere. Then an operation that
has rows to compare faults if and only if one of them is bad, and it names a bad one. -/
theorem bad_rows_fault (cmp : Comparator) (bad : Record → Prop) :
    (∀ c : Chunk, c.WellFormed → cmp.FailsAmong c.Live bad → ∀ schedule, c.SortFaults cmp bad schedule) ∧
      ∀ s : MergeSet, s.WellFormed → s.layoutViolation? = none → cmp.FailsAmong s.Live bad →
        ∀ schedule, s.MergeFaults cmp bad schedule :=
  ⟨fun _ hc hf schedule => Chunk.sort_faults hc hf schedule,
    fun _ h hm hf schedule => MergeSet.merge_faults h (MergeSet.layoutViolation?_eq_none_iff.mp hm) hf schedule⟩

def integers (id : UInt32) (values : Array Value) : Chunk :=
  ((Chunk.empty id.toNat [.int64] 4 none).load (.ofColumns id #[values] none) none 0).state

theorem integers_wellFormed (id : UInt32) (values : Array Value) :
    (integers id values).WellFormed ∧ (integers id values).schema = [.int64] :=
  have h := (Chunk.wellFormed_empty id.toNat [.int64] (by decide) none).load (.ofColumns id #[values] none) none 0 {}
  ⟨h.1, Chunk.schema_of_shape h.2⟩

def sixFails : Comparator := (Comparator.constant .gt).poisoned 0 (.int64 6) "six"

def HoldsSix (r : Record) : Prop := ∃ row, r.Reads [.int64] row ∧ Poisoned 0 (.int64 6) row

theorem sixFails_failsAmong : sixFails.FailsAmong (fun r => ∃ row, r.Reads [.int64] row) HoldsSix :=
  Comparator.FailsOn.failsAmong (poisoned_failsOn [.int64] (by decide) _ _ _)

theorem integers_tainted {id : UInt32} {values : Array Value} (slot : Nat) (hs : slot < (integers id values).rows)
    (h : ((integers id values).rowAt slot).values[0]? = some (.int64 6)) : (integers id values).Tainted HoldsSix := by
  obtain ⟨hc, hschema⟩ := integers_wellFormed id values
  exact ⟨slot, hs, _, hschema ▸ hc.reads hs, .int64 6, h, by decide⟩

def sixLast : MergeSet where
  x := integers 0 #[.int64 5, .int64 4]
  y := integers 1 #[.int64 6]
  low := .empty 2 [.int64] 2 none
  high := .empty 3 [.int64] 2 none

theorem sixLast_wellFormed : sixLast.WellFormed where
  x := (integers_wellFormed _ _).1
  y := (integers_wellFormed _ _).1
  low := Chunk.wellFormed_empty _ _ (by decide) _
  high := Chunk.wellFormed_empty _ _ (by decide) _

theorem bad_rows_fault_six :
    (∃ e, ((integers 0 #[.int64 5, .int64 4, .int64 6]).sort sixFails).result = .error e ∧
      e.ChargedTo (integers 0 #[.int64 5, .int64 4, .int64 6]) HoldsSix) ∧
    ∃ chunk row cause, (sixLast.merge sixFails).result = .error (.fault chunk row cause) := by
  obtain ⟨hsort, hmerge⟩ := bad_rows_fault sixFails HoldsSix
  have live (id : UInt32) (values : Array Value) (r : Record) (hr : (integers id values).Live r) :
      ∃ row, r.Reads [.int64] row := by
    obtain ⟨hc, hschema⟩ := integers_wellFormed id values
    exact hschema ▸ hr.exists_reads hc
  have hfaults := hsort _ (integers_wellFormed 0 #[.int64 5, .int64 4, .int64 6]).1
    (sixFails_failsAmong.mono (live _ _)) {}
  obtain ⟨e, he⟩ := hfaults.fails.mpr ⟨by cbv, integers_tainted 2 (by cbv) (by cbv)⟩
  refine ⟨⟨e, he, hfaults.charged e he⟩, ?_⟩
  have hfaults' := hmerge sixLast sixLast_wellFormed (by cbv)
    (sixFails_failsAmong.mono fun r hr => hr.elim (live _ _ r) (live _ _ r)) {}
  exact hfaults'.fails.mpr ⟨by cbv, by cbv, .inr (integers_tainted 0 (by cbv) (by cbv))⟩

end ChunkSort
