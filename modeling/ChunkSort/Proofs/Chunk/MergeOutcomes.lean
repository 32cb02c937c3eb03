import Mathlib
import ChunkSort.Proofs.Chunk.Load
import ChunkSort.Proofs.Chunk.Merge
import ChunkSort.Proofs.Keys

/-!
What merges leave behind. Sorted inputs come out in order, one destination being filled after the other, and of records
that compare equal those of the first input come first: comparisons of joint entries never call entries of different
inputs equal, so the network need not be stable. A merge that fails leaves every row in its input, or gives all four
chunks up.
-/

namespace ChunkSort

theorem filter_append_filter_not {α : Type} {q : α → Bool} {l : List α}
    (h : l.Pairwise fun a b => q b = true → q a = true) : l.filter q ++ l.filter (!q ·) = l := by
  induction l with
  | nil => rfl
  | cons a l ih =>
    rw [List.pairwise_cons] at h
    by_cases ha : q a = true
    · rw [List.filter_cons_of_pos ha, List.filter_cons_of_neg (by simp [ha]), List.cons_append, ih h.2]
    · have hnil : l.filter q = [] := List.filter_eq_nil_iff.mpr fun b hb hq => ha (h.1 b hb hq)
      have hall : l.filter (!q ·) = l := by
        apply List.filter_eq_self.mpr
        intro b hb
        simpa using fun hq => ha (h.1 b hb hq)
      rw [List.filter_cons_of_neg ha, List.filter_cons_of_pos (by simpa using ha), hnil, hall, List.nil_append]

def Chunk.InPlace (c : Chunk) : Prop :=
  c.index.toList = (List.range c.rows).map UInt32.ofNat ++ List.replicate (paddedSize c.capacity - c.rows) padding

structure StableMerge (ord : Row → Row → Ordering) (xs ys rows : List Row) : Prop where
  perm : rows.Perm (xs ++ ys)
  ties : ∀ u ∈ rows, ∃ left right, rows.filter (ord u · = .eq) = left ++ right ∧
    left.Perm (xs.filter (ord u · = .eq)) ∧ right.Perm (ys.filter (ord u · = .eq))

theorem Chunk.Appended.inPlace {c c' : Chunk} {contents : List Row} (h : c.Appended contents c') (hc : c.rows = 0) :
    c'.InPlace := by
  have hrows : contents.length = c'.rows := by rw [h.rows, hc, Nat.zero_add]
  have hentries : c'.entries = (List.range c'.rows).map UInt32.ofNat := by
    rw [h.entries, Chunk.entries, hc, List.take_zero, List.nil_append, hrows, List.range_eq_range']
  have hpadding : c'.index.toList.drop c'.rows =
      List.replicate (paddedSize c'.capacity - c'.rows) padding := by
    rw [List.eq_replicate_iff, List.length_drop, Array.length_toList, h.wellFormed.index_size]
    exact ⟨rfl, h.wellFormed.index_padding⟩
  rw [InPlace, ← hentries, ← hpadding, Chunk.entries, List.take_append_drop]

namespace MergeSet

structure Joined (s : MergeSet) (cmp : Comparator) (ord : Row → Row → Ordering) (s' : MergeSet) : Prop where
  low_shape : s'.low.shape = s.low.shape
  high_shape : s'.high.shape = s.high.shape
  low_rows : s'.low.rows = min s.low.capacity (s.x.rows + s.y.rows)
  high_rows : s'.high.rows = s.x.rows + s.y.rows - s'.low.rows
  low_index : s'.low.InPlace
  high_index : s'.high.InPlace
  sorted : (s'.low.sortedRecords ++ s'.high.sortedRecords).Pairwise cmp.Le
  contents : ∃ xs ys rows, readRecords s.x.schema s.x.sortedRecords = .ok xs ∧
    readRecords s.y.schema s.y.sortedRecords = .ok ys ∧
    readRecords s.x.schema (s'.low.sortedRecords ++ s'.high.sortedRecords) = .ok rows ∧ StableMerge ord xs ys rows
  low_status : s'.low.status = .success
  high_status : s'.high.status = .success
  x : s.x.Consumed .success s'.x
  y : s.y.Consumed .success s'.y

section

variable {s : MergeSet} {merged : List UInt32} (hp : merged.Perm s.joint)
include hp

theorem perm_chosen {side : UInt32 → Bool} {entries : List UInt32} {rows : List Row} (chosen : Row → Bool)
    (hside : s.joint.filter side = entries) (hrows : entries.map s.rowOf = rows) :
    (((merged.filter (chosen ∘ s.rowOf)).filter side).map s.rowOf).Perm (rows.filter chosen) := by
  have hjoint : (s.joint.filter (chosen ∘ s.rowOf)).filter side = entries.filter (chosen ∘ s.rowOf) := by
    rw [List.filter_comm, hside]
  rw [← hrows, List.filter_map, ← hjoint]
  exact ((hp.filter _).filter _).map _

variable (h : s.WellFormed)
include h

variable {cmp : Comparator} {ord : Row → Row → Ordering} (hxy : s.y.schema = s.x.schema)
  (ho : cmp.Orders s.x.schema ord) (hsorted : merged.Pairwise (EntryLe cmp s.recordOf s.ties))
include hxy ho hsorted

theorem pairwise_ties {u : Row} (hu : u.Fits s.x.schema) :
    (merged.filter ((ord u · = .eq) ∘ s.rowOf)).Pairwise fun a b =>
      (0 ≤ b.toNat && b.toNat < s.half) = true → (0 ≤ a.toNat && a.toNat < s.half) = true := by
  refine (hsorted.filter _).imp_of_mem fun {a b} ha hb hle hbleft => ?_
  obtain ⟨ha, hua⟩ := List.mem_filter.mp ha
  obtain ⟨hb, hub⟩ := List.mem_filter.mp hb
  have ha := h.reads_recordOf hxy (hp.mem_iff.mp ha)
  have hb' := h.reads_recordOf hxy (hp.mem_iff.mp hb)
  have hau := ho.preorders.eq_comm hu ha.gives.fits (of_decide_eq_true hua)
  have hab := ho.preorders.eq_trans ha.gives.fits hu hb'.gives.fits hau (of_decide_eq_true hub)
  obtain ⟨_, hle⟩ := hle.resolve_left (h.ne_padding_of_mem_joint (hp.mem_iff.mp hb))
  rw [ho.answer_eq ha hb', hab] at hle
  -- Only the numbering can still tell the two entries apart.
  by_contra haleft
  simp only [Nat.zero_le, decide_true, Bool.true_and, decide_eq_true_eq, Nat.not_lt] at haleft hbleft
  apply hle
  change s.ties a b = .gt
  rw [ties, decide_eq_true haleft, decide_eq_false (Nat.not_le_of_lt hbleft)]
  rfl

theorem stableMerge_rows : StableMerge ord s.x.sortedRows s.y.sortedRows (merged.map s.rowOf) where
  perm := h.map_rowOf_joint ▸ hp.map s.rowOf
  ties := by
    intro u hu
    obtain ⟨e, he, rfl⟩ := List.mem_map.mp hu
    have hfits := (h.reads_recordOf hxy (hp.mem_iff.mp he)).gives.fits
    rw [List.filter_map, ← filter_append_filter_not (pairwise_ties hp h hxy ho hsorted hfits), List.map_append]
    exact ⟨_, _, rfl, perm_chosen hp _ h.filter_left h.map_rowOf_left,
      perm_chosen hp _ h.filter_not_left h.map_rowOf_right⟩

end

theorem Delivered.reads {s s' : MergeSet} {rows : List Row} (hd : s.Delivered s' rows) (h : s.WellFormed)
    (hm : s.Mergeable) : List.Forall₂ (fun r row => Record.Reads r s.x.schema row)
      (s'.low.sortedRecords ++ s'.high.sortedRecords) rows := by
  have hlow := hd.low.wellFormed.sortedRecords_reads
  have hhigh := hd.high.wellFormed.sortedRecords_reads
  rw [hd.low.schema.trans hm.low_schema] at hlow
  rw [hd.high.schema.trans hm.high_schema] at hhigh
  rw [← hd.sortedRows_eq h hm]
  exact List.rel_append hlow hhigh

/-- Under a total preorder of the contents sorted inputs merge whenever the destinations have room for them. -/
theorem merge_joins (s : MergeSet) (h : s.WellFormed) (hm : s.Mergeable) (cmp : Comparator)
    (ord : Row → Row → Ordering) (ho : cmp.Orders s.x.schema ord) (hx : s.x.sortedRecords.Pairwise cmp.Le)
    (hy : s.y.sortedRecords.Pairwise cmp.Le) (hf : ∀ merged, s.order cmp = .ok merged → s.Fits merged)
    (schedule : Schedule) :
    (s.merge cmp schedule).result = .ok () ∧ s.Joined cmp ord (s.merge cmp schedule).state := by
  have ht : cmp.TotalOn s.Live := ho.totalOn.mono fun _ hr => hr.exists_reads h hm.y_schema
  obtain ⟨merged, hmerged, hp, hsorted⟩ := order_pairwise h ht hx hy schedule
  obtain ⟨hres, hd⟩ := merge_delivered hm h hmerged hp (hf merged (order_eq_ok_iff.mp hmerged))
  have hrows : (merged.map s.rowOf).Pairwise fun u v => ord u v ≠ .gt :=
    pairwise_of_forall₂ (reads_merged h hm.y_schema hp).flip (pairwise_records h ht hp hsorted)
      fun _ _ _ _ ha hb => (ho.le_iff ha hb).mp
  have hlen : (merged.map s.rowOf).length = s.x.rows + s.y.rows := by
    rw [List.length_map, hp.length_eq, h.length_joint]
  have hlow := hd.low.rows
  have hhigh := hd.high.rows
  rw [hm.low_rows, Nat.zero_add, List.length_take, hlen] at hlow
  rw [hm.high_rows, Nat.zero_add, List.length_drop, hlen] at hhigh
  refine ⟨hres, {
    low_shape := hd.low.shape
    high_shape := hd.high.shape
    low_rows := hlow
    high_rows := by omega
    low_index := hd.low.inPlace hm.low_rows
    high_index := hd.high.inPlace hm.high_rows
    sorted := pairwise_of_forall₂ (hd.reads h hm) hrows fun _ _ _ _ ha hb => (ho.le_iff ha hb).mpr
    contents := ⟨_, _, _, readRecords_eq h.x.sortedRecords_reads, readRecords_eq h.y.sortedRecords_reads,
      readRecords_eq (hd.reads h hm), stableMerge_rows hp h hm.y_schema ho hsorted⟩
    low_status := hd.low_status
    high_status := hd.high_status
    x := hd.x ▸ s.x.consumed_clear .success
    y := hd.y ▸ s.y.consumed_clear .success }⟩

def letterPair (id : UInt32) (a b : UInt8) : Chunk :=
  ((Chunk.empty id.toNat [.varLen] 2 none).load (.ofColumns id #[#[.bytes [a], .bytes [b]]] none) none 0).state

def letterSet (a b : UInt8) (room : Nat) : MergeSet where
  x := letterPair 0 50 51
  y := letterPair 1 a b
  low := .empty 2 [.varLen] 2 (some room)
  high := .empty 3 [.varLen] 2 none

def byLetter : Comparator := .byKeys [.ascending 0]

theorem letterPair_wellFormed (id : UInt32) (a b : UInt8) :
    (letterPair id a b).WellFormed ∧ (letterPair id a b).schema = [.varLen] :=
  have h := (Chunk.wellFormed_empty id.toNat [.varLen] (by decide) none).load
    (.ofColumns id #[#[.bytes [a], .bytes [b]]] none) none 0 {}
  ⟨h.1, Chunk.schema_of_shape h.2⟩

-- By rewriting, since unification would load both pairs.
theorem letterSet_x (a b : UInt8) (room : Nat) : (letterSet a b room).x = letterPair 0 50 51 := by
  rw [letterSet]

theorem letterSet_y (a b : UInt8) (room : Nat) : (letterSet a b room).y = letterPair 1 a b := by
  rw [letterSet]

theorem letterSet_wellFormed (a b : UInt8) (room : Nat) : (letterSet a b room).WellFormed where
  x := letterSet_x a b room ▸ (letterPair_wellFormed 0 50 51).1
  y := letterSet_y a b room ▸ (letterPair_wellFormed 1 a b).1
  low := Chunk.wellFormed_empty _ _ (by decide) _
  high := Chunk.wellFormed_empty _ _ (by decide) _

theorem letterSet_fits_iff {a b : UInt8} {room : Nat} {merged : List UInt32} : (letterSet a b room).Fits merged ↔
    totalLength (((merged.map (letterSet a b room).rowOf).take 2).map Row.payloadLength) ≤ room := by
  rw [← Nat.zero_add (totalLength _)]
  refine ⟨fun hf => hf.low room rfl, fun hle => ⟨fun limit hl => ?_, fun _ hl => nomatch hl⟩⟩
  cases hl
  exact hle

theorem byLetter_orders : byLetter.Orders (letterPair 0 50 51).schema (keysOrder [.ascending 0]) := by
  rw [(letterPair_wellFormed 0 50 51).2]
  exact Comparator.byKeys_orders (by decide)

theorem letterPair_sorted {id : UInt32} {a b : UInt8}
    (h : byLetter ((letterPair id a b).recordAt 0) ((letterPair id a b).recordAt 1) = .ok .lt) :
    (letterPair id a b).sortedRecords.Pairwise byLetter.Le := by
  have hrecords : (letterPair id a b).sortedRecords =
      [(letterPair id a b).recordAt 0, (letterPair id a b).recordAt 1] := by cbv
  rw [hrecords, List.pairwise_pair]
  exact ⟨_, h, by decide⟩

theorem letterPair_sorted_first : (letterPair 0 50 51).sortedRecords.Pairwise byLetter.Le := letterPair_sorted (by cbv)

theorem merge_joins_letterSet :
    ((letterSet 51 53 2).merge byLetter).result = .ok () ∧
      (letterSet 51 53 2).Joined byLetter (keysOrder [.ascending 0]) ((letterSet 51 53 2).merge byLetter).state := by
  have hy : (letterPair 1 51 53).sortedRecords.Pairwise byLetter.Le := letterPair_sorted (by cbv)
  have hm : (letterSet 51 53 2).Mergeable := layoutViolation?_eq_none_iff.mp (by cbv)
  have hmerged : (letterSet 51 53 2).order byLetter = .ok [0, 1, 2, 3] := by cbv
  have hbytes : totalLength ((([0, 1, 2, 3].map (letterSet 51 53 2).rowOf).take 2).map Row.payloadLength) = 2 := by cbv
  refine merge_joins _ (letterSet_wellFormed 51 53 2) hm _ _ byLetter_orders letterPair_sorted_first hy
    (fun merged ho => ?_) {}
  obtain rfl : [0, 1, 2, 3] = merged := Except.ok.inj (hmerged.symm.trans ho)
  exact letterSet_fits_iff.mpr (Nat.le_of_eq hbytes)

/-! ### Merges that fail -/

/-- The destinations are as before, and so are the inputs but for the order of their entries. -/
structure Kept (s s' : MergeSet) : Prop where
  x : s.x.Reindexed s'.x
  y : s.y.Reindexed s'.y
  low : s'.low = s.low
  high : s'.high = s.high

/-- The inputs are lost. The destinations are still empty, but all four chunks are flagged. -/
structure Lost (s s' : MergeSet) : Prop where
  x : s.x.Consumed .fault s'.x
  y : s.y.Consumed .fault s'.y
  low : s'.low = s.low.withStatus .fault
  low_rows : s'.low.rows = 0
  high : s'.high = s.high.withStatus .fault
  high_rows : s'.high.rows = 0

section

variable {s : MergeSet}

theorem lost_abandoned (hm : s.Mergeable) : s.Lost s.abandoned :=
  ⟨s.x.consumed_clear _, s.y.consumed_clear _, rfl, hm.low_rows, rfl, hm.high_rows⟩

variable (h : s.WellFormed)
include h

theorem kept_refl : s.Kept s := by
  have same : ∀ {c : Chunk}, c.WellFormed → c.Reindexed c := fun hc =>
    hc.toIndexed.reindexed rfl (.refl _) hc.index_padding
  exact ⟨same h.x, same h.y, rfl, rfl⟩

theorem kept_restored {merged : List UInt32} (hp : merged.Perm s.joint) : s.Kept (s.restored merged) := by
  have reindexed : ∀ {c : Chunk} {index : Array UInt32}, c.WellFormed → c.Reordered { c with index } →
      c.Reindexed { c with index } := fun hc hr =>
    hc.toIndexed.reindexed (hr.wellFormed.index_size.trans hc.index_size.symm) hr.entries hr.wellFormed.index_padding
  exact ⟨reindexed h.x (h.restored_x hp), reindexed h.y (h.restored_y hp), rfl, rfl⟩

theorem restored_sorted {cmp : Comparator} (ht : cmp.TotalOn s.Live) (hx : s.x.sortedRecords.Pairwise cmp.Le)
    (hy : s.y.sortedRecords.Pairwise cmp.Le) {merged : List UInt32} {schedule : Schedule}
    (ho : s.order cmp schedule = .ok merged) :
    (s.restored merged).x.sortedRecords.Pairwise cmp.Le ∧ (s.restored merged).y.sortedRecords.Pairwise cmp.Le := by
  obtain ⟨merged', ho', hp, hsorted⟩ := order_pairwise h ht hx hy schedule
  obtain rfl : merged = merged' := Except.ok.inj (ho.symm.trans ho')
  have hrecords := pairwise_records h ht hp hsorted
  rw [h.restored_records_x hp, h.restored_records_y hp]
  exact ⟨hrecords.sublist (List.filter_sublist.map _), hrecords.sublist (List.filter_sublist.map _)⟩

end

theorem merge_of_not_mergeable {s : MergeSet} (hm : ¬s.Mergeable) (cmp : Comparator) (schedule : Schedule) :
    ∃ v, s.merge cmp schedule = ⟨s, .error (.contractViolation v)⟩ := by
  obtain ⟨v, hv⟩ := Option.ne_none_iff_exists'.mp (mt layoutViolation?_eq_none_iff.mp hm)
  exact ⟨v, merge_of_layout hv cmp schedule⟩

theorem merge_error_cases {s : MergeSet} (h : s.WellFormed) {cmp : Comparator} {schedule : Schedule}
    {error : SortError} (he : (s.merge cmp schedule).result = .error error) :
    ((∃ v, error = .contractViolation v) ∧ s.Kept (s.merge cmp schedule).state) ∨
      (∃ id slot cause, error = .fault id slot cause) ∧ s.Lost (s.merge cmp schedule).state := by
  by_cases hm : s.Mergeable
  · have hspec := merge_spec h cmp schedule
    rw [he] at hspec
    generalize (s.merge cmp schedule).state = s' at hspec
    cases hspec with
    | layout v hv => exact .inl ⟨⟨v, rfl⟩, kept_refl h⟩
    | bytes v merged hp hv => exact .inl ⟨⟨v, rfl⟩, kept_restored h hp⟩
    | fault f hf => exact .inr ⟨⟨_, _, _, rfl⟩, lost_abandoned hm⟩
  · obtain ⟨v, hv⟩ := merge_of_not_mergeable hm cmp schedule
    rw [hv] at he ⊢
    cases he
    exact .inl ⟨⟨v, rfl⟩, kept_refl h⟩

theorem merge_of_not_fits {s : MergeSet} (h : s.WellFormed) (hm : s.Mergeable) {cmp : Comparator}
    {schedule : Schedule} {merged : List UInt32} (ho : s.order cmp schedule = .ok merged) (hf : ¬s.Fits merged) :
    ∃ v, s.merge cmp schedule = ⟨s.restored merged, .error (.contractViolation v)⟩ := by
  obtain ⟨v, hv⟩ := Option.ne_none_iff_exists'.mp (mt (shortfall?_eq_none_iff h merged).mp hf)
  exact ⟨v, merge_of_shortfall hm h ho ((order_outcome h cmp schedule).of_ok ho) hv⟩

/-- Every merge that fails, whatever the comparator answers and whichever lane fails first. -/
theorem merge_failures (s : MergeSet) (h : s.WellFormed) (cmp : Comparator) (schedule : Schedule) :
    (∀ error, (s.merge cmp schedule).result = .error error →
      ((∃ v, error = .contractViolation v) ∧ s.Kept (s.merge cmp schedule).state) ∨
        (∃ id slot cause, error = .fault id slot cause) ∧ s.Lost (s.merge cmp schedule).state) ∧
    (¬s.Mergeable →
      (∃ v, (s.merge cmp schedule).result = .error (.contractViolation v)) ∧ (s.merge cmp schedule).state = s) ∧
    ∀ merged, s.Mergeable → s.order cmp = .ok merged →
      (s.Fits merged → (s.merge cmp schedule).result = .ok ()) ∧
      (¬s.Fits merged → (∃ v, (s.merge cmp schedule).result = .error (.contractViolation v)) ∧
        (cmp.TotalOn s.Live → s.x.sortedRecords.Pairwise cmp.Le → s.y.sortedRecords.Pairwise cmp.Le →
          (s.merge cmp schedule).state.x.sortedRecords.Pairwise cmp.Le ∧
            (s.merge cmp schedule).state.y.sortedRecords.Pairwise cmp.Le)) := by
  refine ⟨fun error he => merge_error_cases h he, fun hm => ?layout, fun merged hm ho =>
    ⟨fun hf => ?fits, fun hf => ?shortfall⟩⟩
  case layout =>
    obtain ⟨v, hv⟩ := merge_of_not_mergeable hm cmp schedule
    rw [hv]
    exact ⟨⟨v, rfl⟩, rfl⟩
  case fits =>
    have hp := (order_outcome h cmp {}).of_ok ho
    exact (merge_delivered hm h (order_eq_ok_iff.mpr ho) hp hf).1
  case shortfall =>
    obtain ⟨v, hv⟩ := merge_of_not_fits h hm (order_eq_ok_iff.mpr ho) hf
    rw [hv]
    exact ⟨⟨v, rfl⟩, fun ht hx hy => restored_sorted h ht hx hy ho⟩

theorem byLetter_totalOn (a b : UInt8) (room : Nat) : byLetter.TotalOn (letterSet a b room).Live := by
  have hx := (letterPair_wellFormed 0 50 51).2
  have hy := (letterPair_wellFormed 1 a b).2
  have horders := byLetter_orders.totalOn
  rw [← letterSet_x a b room] at hx horders
  rw [← letterSet_y a b room] at hy
  exact horders.mono fun _ hr => hr.exists_reads (letterSet_wellFormed a b room) (hy.trans hx.symm)

theorem merge_failures_letterSet :
    (∃ v, ((letterSet 48 53 1).merge byLetter).result = .error (.contractViolation v)) ∧
      (letterSet 48 53 1).Kept ((letterSet 48 53 1).merge byLetter).state ∧
      ((letterSet 48 53 1).merge byLetter).state.x.sortedRecords.Pairwise byLetter.Le ∧
      ((letterSet 48 53 1).merge byLetter).state.y.sortedRecords.Pairwise byLetter.Le := by
  have hy : (letterPair 1 48 53).sortedRecords.Pairwise byLetter.Le := letterPair_sorted (by cbv)
  have hm : (letterSet 48 53 1).Mergeable := layoutViolation?_eq_none_iff.mp (by cbv)
  have hmerged : (letterSet 48 53 1).order byLetter = .ok [2, 0, 1, 3] := by cbv
  have hbytes : totalLength ((([2, 0, 1, 3].map (letterSet 48 53 1).rowOf).take 2).map Row.payloadLength) = 2 := by cbv
  have hf : ¬(letterSet 48 53 1).Fits [2, 0, 1, 3] := by
    rw [letterSet_fits_iff, hbytes]
    decide
  obtain ⟨herrors, -, hshortfall⟩ := merge_failures _ (letterSet_wellFormed 48 53 1) byLetter {}
  obtain ⟨⟨v, hv⟩, hsorted⟩ := (hshortfall _ hm hmerged).2 hf
  refine ⟨⟨v, hv⟩, ?_, hsorted (byLetter_totalOn 48 53 1) letterPair_sorted_first hy⟩
  obtain ⟨-, hkept⟩ | ⟨⟨_, _, _, hfault⟩, -⟩ := herrors _ hv
  · exact hkept
  · cases hfault

/-- Here the second input is not in order, and then the first one is not kept in order either. -/
theorem shortfall_upsets_sorted_input :
    (letterSet 53 48 1).WellFormed ∧ byLetter.TotalOn (letterSet 53 48 1).Live ∧
      (letterSet 53 48 1).x.sortedRecords.Pairwise byLetter.Le ∧
      (∃ v, ((letterSet 53 48 1).merge byLetter).result = .error (.contractViolation v)) ∧
      ¬((letterSet 53 48 1).merge byLetter).state.x.sortedRecords.Pairwise byLetter.Le := by
  have hx : ((letterSet 53 48 1).merge byLetter).state.x.sortedRecords =
      [(letterPair 0 50 51).recordAt 1, (letterPair 0 50 51).recordAt 0] := by cbv
  have hgt : byLetter ((letterPair 0 50 51).recordAt 1) ((letterPair 0 50 51).recordAt 0) = .ok .gt := by cbv
  have hres : ((letterSet 53 48 1).merge byLetter).result = .error (.contractViolation (.tooFewBytes 2 1 2)) := by cbv
  refine ⟨letterSet_wellFormed .., byLetter_totalOn .., letterPair_sorted_first, ⟨_, hres⟩, ?_⟩
  rw [hx, List.pairwise_pair]
  rintro ⟨o, ho, hle⟩
  rw [hgt] at ho
  cases ho
  exact hle rfl

end MergeSet
end ChunkSort
