import ChunkSort.Proofs.Chunk.Append
import ChunkSort.Proofs.Chunk.Merge
import ChunkSort.Proofs.Chunk.Twin

/-!
Leftovers: what stands in the slots past the rows of a chunk. Chunks that differ in nothing else go the same way in
every operation, since no operation reads a slot that was not written before.
-/

namespace ChunkSort

/-! ### Optional values -/

theorem rel_ite {α β : Type} {R : α → β → Prop} {p q : Prop} [Decidable p] [Decidable q] {a b : α} {a' b' : β}
    (hpq : p ↔ q) (ht : R a a') (he : R b b') : R (if p then a else b) (if q then a' else b') := by
  by_cases hp : p
  · rwa [if_pos hp, if_pos (hpq.mp hp)]
  · rwa [if_neg hp, if_neg fun hq => hp (hpq.mpr hq)]

theorem rel_findSome? {α β γ δ : Type} {R : γ → δ → Prop} {f : α → Option γ} {f' : β → Option δ} {l : List α} {l' : List β}
    (h : List.Forall₂ (fun a a' => Option.Rel R (f a) (f' a')) l l') : Option.Rel R (l.findSome? f) (l'.findSome? f') := by
  induction h with
  | nil => exact .none
  | @cons a a' _ _ ha _ ih =>
    rw [List.findSome?_cons, List.findSome?_cons]
    generalize f a = r, f' a' = r' at ha
    cases ha with
    | some hr => exact .some hr
    | none => exact ih

/-! ### Stores -/

structure AgreeBelow {α : Type} (n : Nat) (a b : Array α) : Prop where
  size : b.size = a.size
  get : ∀ i < n, b[i]? = a[i]?

namespace AgreeBelow

variable {α : Type} {n : Nat} {a b : Array α}

theorem set (h : AgreeBelow n a b) (v : α) (hn : n < a.size) (hn' : n < b.size) :
    AgreeBelow (n + 1) (a.set n v hn) (b.set n v hn') where
  size := by rw [Array.size_set, Array.size_set, h.size]
  get i hi := by
    rcases Nat.lt_or_eq_of_le (Nat.le_of_lt_succ hi) with hlt | rfl
    · rw [Array.getElem?_set_ne hn (Nat.ne_of_gt hlt), Array.getElem?_set_ne hn' (Nat.ne_of_gt hlt), h.get i hlt]
    · rw [Array.getElem?_set_self, Array.getElem?_set_self]

theorem overwrite (h : AgreeBelow n a b) (vs : List α) :
    Outcomes (AgreeBelow (n + vs.length)) Eq (overwrite a n vs) (ChunkSort.overwrite b n vs) := by
  induction vs generalizing n a b with
  | nil => exact h
  | cons v vs ih =>
    unfold ChunkSort.overwrite
    by_cases hn : n < a.size
    · have hn' : n < b.size := h.size ▸ hn
      rw [dif_pos hn, dif_pos hn']
      have key := ih (h.set v hn hn')
      rwa [Nat.add_assoc, Nat.add_comm 1] at key
    · rw [dif_neg hn, dif_neg (h.size ▸ hn)]
      exact rfl

end AgreeBelow

def Column.AgreesBelow (n : Nat) (c c' : Column) : Prop :=
  ∃ cells : Array (Option c.type.Cell), c' = ⟨c.type, cells⟩ ∧ AgreeBelow n c.cells cells

namespace Column

variable {n : Nat} {c c' : Column}

theorem AgreesBelow.write (h : c.AgreesBelow n c') (column : Nat) (side : SideBuffer) (v : Value) :
    Outcomes (fun p p' => p.1.AgreesBelow (n + 1) p'.1 ∧ p.2 = p'.2) Eq (c.write column n side v)
      (c'.write column n side v) := by
  obtain ⟨cells, rfl, hcells⟩ := h
  unfold Column.write
  by_cases hn : n < c.cells.size
  · have hn' : n < cells.size := hcells.size ▸ hn
    rw [dif_pos hn, dif_pos hn']
    refine (Outcomes.refl _).bind ?_
    rintro ⟨cell, side₁⟩ _ rfl
    exact ⟨⟨_, rfl, hcells.set cell hn hn'⟩, rfl⟩
  · have hn' : ¬n < cells.size := hcells.size ▸ hn
    rw [dif_neg hn, dif_neg hn']
    exact rfl

theorem AgreesBelow.fill (h : c.AgreesBelow n c') (column : Nat) (side : SideBuffer) (rows : List SourceRow) :
    Outcomes (fun p p' => p.1.AgreesBelow (n + rows.length) p'.1 ∧ p.2 = p'.2) Eq (Column.fill column n c side rows)
      (Column.fill column n c' side rows) := by
  induction rows generalizing n c c' side with
  | nil => exact ⟨h, rfl⟩
  | cons row rows ih =>
    simp only [Column.fill]
    cases row.value column with
    | error cause => exact rfl
    | ok v =>
      refine (h.write column side v).bind ?_
      rintro ⟨d, side₁⟩ ⟨d', _⟩ ⟨hd, rfl⟩
      have key := ih hd side₁
      rwa [Nat.add_assoc, Nat.add_comm 1] at key

theorem AgreesBelow.cell (h : c.AgreesBelow n c') (side : SideBuffer) {slot : Nat} (hs : slot < n) (missing : DataError) :
    (match c'.cells[slot]? with
      | none => Except.error missing
      | some cell => c'.type.decode side cell) =
    match c.cells[slot]? with
      | none => Except.error missing
      | some cell => c.type.decode side cell := by
  obtain ⟨cells, rfl, hcells⟩ := h
  have hget := hcells.get slot hs
  cases hcell : c.cells[slot]? <;> simp only [hget, hcell]

end Column

namespace ColumnStore

structure AgreesBelow (n : Nat) (s s' : ColumnStore) : Prop where
  columns : List.Forall₂ (Column.AgreesBelow n) s.columns s'.columns
  ids : AgreeBelow n s.ids s'.ids

variable {n : Nat} {s s' : ColumnStore}

theorem fillColumns_agree {cs cs' : List Column} (h : List.Forall₂ (Column.AgreesBelow n) cs cs') (rows : List SourceRow)
    (column : Nat) (side : SideBuffer) :
    Outcomes (fun p p' => List.Forall₂ (Column.AgreesBelow (n + rows.length)) p.1 p'.1 ∧ p.2 = p'.2) Eq
      (fillColumns rows n column side cs) (fillColumns rows n column side cs') := by
  induction h generalizing column side with
  | nil => exact ⟨.nil, rfl⟩
  | cons hc _ ih =>
    simp only [fillColumns]
    refine (hc.fill column side rows).bind ?_
    rintro ⟨d, side₁⟩ ⟨d', _⟩ ⟨hd, rfl⟩
    refine (ih (column + 1) side₁).bind ?_
    rintro ⟨ds, side₂⟩ ⟨ds', _⟩ ⟨hds, rfl⟩
    exact ⟨.cons hd hds, rfl⟩

namespace AgreesBelow

theorem schema (h : s.AgreesBelow n s') : s'.schema = s.schema := by
  rw [ColumnStore.schema, ColumnStore.schema, ← List.forall₂_eq_eq_eq, List.forall₂_map_left_iff,
    List.forall₂_map_right_iff]
  refine h.columns.flip.imp fun c' c hc => ?_
  obtain ⟨_, rfl, _⟩ := hc
  rfl

theorem fill (h : s.AgreesBelow n s') (side : SideBuffer) (rows : List SourceRow) :
    Outcomes (fun p p' => p.1.AgreesBelow (n + rows.length) p'.1 ∧ p.2 = p'.2) Eq (s.fill side n rows)
      (s'.fill side n rows) := by
  unfold ColumnStore.fill
  refine (fillColumns_agree h.columns rows 0 side).bind ?_
  rintro ⟨cs, side₁⟩ ⟨cs', _⟩ ⟨hcs, rfl⟩
  cases hids : rows.mapM SourceRow.id with
  | error cause => exact rfl
  | ok ids =>
    have hlength : ids.length = rows.length := (mapM_eq_ok_iff.mp hids).length_eq.symm
    refine (h.ids.overwrite ids).bind fun written written' hwritten => ?_
    exact ⟨⟨hcs, hlength ▸ hwritten⟩, rfl⟩

theorem value (h : s.AgreesBelow n s') (side : SideBuffer) {slot : Nat} (hs : slot < n) (column : Nat) :
    s'.value side slot column = s.value side slot column := by
  have hslots : s'.slots = s.slots := h.ids.size
  unfold ColumnStore.value
  rw [h.columns.length_eq, hslots]
  rcases Nat.lt_or_ge column s.columns.length with hlt | hge
  · have hlt' : column < s'.columns.length := h.columns.length_eq ▸ hlt
    rw [List.getElem?_eq_getElem hlt, List.getElem?_eq_getElem hlt']
    exact (h.columns.get hlt hlt').cell side hs (.rowOutOfRange slot s.slots)
  · rw [List.getElem?_eq_none hge, List.getElem?_eq_none (h.columns.length_eq ▸ hge)]

end AgreesBelow
end ColumnStore

/-! ### Records -/

structure Record.Resembles (r r' : Record) : Prop where
  slot : r'.slot = r.slot
  side : r'.side = r.side
  schema : r'.store.schema = r.store.schema
  id : r'.id = r.id
  value : ∀ column, r'.value column = r.value column

theorem Record.Resembles.toSource {r r' : Record} (h : r.Resembles r') : r'.toSource = r.toSource := by
  rw [Record.toSource, Record.toSource, h.id, funext h.value]

/-- The comparator reads records through what they show: slots, side buffers, schemas, identifiers and values. -/
def Comparator.Discreet (cmp : Comparator) : Prop :=
  ∀ a a' b b', a.Resembles a' → b.Resembles b' → cmp a' b' = cmp a b

namespace Comparator.Discreet

theorem byKeys (keys : List SortKey) : (Comparator.byKeys keys).Discreet := by
  induction keys with
  | nil => exact fun _ _ _ _ _ _ => rfl
  | cons k ks ih =>
    intro a a' b b' ha hb
    simp only [Comparator.byKeys, SortKey.compareRecords, ha.value, hb.value, ih a a' b b' ha hb]

theorem byId : Comparator.byId.Discreet := by
  intro a a' b b' ha hb
  rw [Comparator.byId, Comparator.byId, ha.id, hb.id]

theorem byMeasure (column : Nat) (measure : Value → Except DataError Int) :
    (Comparator.byMeasure column measure).Discreet := by
  intro a a' b b' ha hb
  simp only [Comparator.byMeasure, ha.value, hb.value]

theorem reversed {cmp : Comparator} (h : cmp.Discreet) : cmp.reversed.Discreet := by
  intro a a' b b' ha hb
  rw [Comparator.reversed, Comparator.reversed, h a a' b b' ha hb]

end Comparator.Discreet

namespace Chunk

variable {c c' : Chunk}

/-- The chunks differ in their numbers and in leftovers. -/
structure Resembles (c c' : Chunk) : Prop where
  store : c.store.AgreesBelow c.rows c'.store
  side : c'.side = c.side
  index : c'.index = c.index
  rows : c'.rows = c.rows
  capacity : c'.capacity = c.capacity
  status : c'.status = c.status

namespace Resembles

theorem refl (c : Chunk) : c.Resembles c where
  store := ⟨List.forall₂_same.mpr fun column _ => ⟨column.cells, rfl, rfl, fun _ _ => rfl⟩, rfl, fun _ _ => rfl⟩
  side := rfl
  index := rfl
  rows := rfl
  capacity := rfl
  status := rfl

variable (h : c.Resembles c')
include h

theorem schema : c'.schema = c.schema := h.store.schema

theorem freeRows : c'.freeRows = c.freeRows := by rw [Chunk.freeRows, Chunk.freeRows, h.capacity, h.rows]

theorem isEmpty : c'.isEmpty = c.isEmpty := by rw [Chunk.isEmpty, Chunk.isEmpty, h.rows]

theorem reindexed (index : Array UInt32) : Resembles { c with index } { c' with index } where
  store := h.store
  side := h.side
  index := rfl
  rows := h.rows
  capacity := h.capacity
  status := h.status

theorem withStatus (status : Status) : (c.withStatus status).Resembles (c'.withStatus status) where
  store := h.store
  side := h.side
  index := h.index
  rows := h.rows
  capacity := h.capacity
  status := rfl

theorem clear : c.clear.Resembles c'.clear where
  store := by
    refine ⟨h.store.columns.imp fun column column' hc => ?_, h.store.ids.size, nofun⟩
    obtain ⟨cells, rfl, hcells⟩ := hc
    exact ⟨cells, rfl, hcells.size, nofun⟩
  side := by rw [Chunk.clear, Chunk.clear, h.side]
  index := by rw [Chunk.clear, Chunk.clear, h.capacity]
  rows := rfl
  capacity := h.capacity
  status := h.status

theorem record {slot : Nat} (hs : slot < c.rows) : (c.recordAt slot).Resembles (c'.recordAt slot) where
  slot := rfl
  side := h.side
  schema := h.schema
  id := by simp only [Record.id, recordAt, h.store.ids.get slot hs]
  value column := by
    change c'.store.value c'.side slot column = c.store.value c.side slot column
    rw [h.side, h.store.value c.side hs]

theorem value (slot column : Nat) : c'.value slot column = c.value slot column := by
  unfold Chunk.value
  rw [h.rows]
  split
  next hs => exact (h.record hs).value column
  next => rfl

theorem append (rows : List SourceRow) : Outcomes Resembles Eq (c.append rows) (c'.append rows) := by
  rw [append_eq_bind, append_eq_bind, h.freeRows, h.side, h.rows, h.index]
  refine (h.store.fill c.side (rows.take c.freeRows)).bind ?_
  rintro ⟨store, side⟩ ⟨store', _⟩ ⟨hstore, rfl⟩
  refine (Outcomes.refl _).bind ?_
  rintro index _ rfl
  exact ⟨hstore, rfl, rfl, by simp only [extended, h.rows], h.capacity, h.status⟩

end Resembles

theorem WellFormed.resembles_new {c : Chunk} (hc : c.WellFormed) (id : Nat) :
    (c.clear.withStatus .success).Resembles (Chunk.empty id c.schema c.capacity c.side.limit) where
  store := by
    refine ⟨?_, Array.size_replicate.trans hc.ids_size.symm, nofun⟩
    change List.Forall₂ _ c.store.columns ((c.store.columns.map Column.type).map _)
    rw [List.forall₂_map_right_iff, List.forall₂_map_right_iff, List.forall₂_same]
    exact fun column hcolumn => ⟨_, rfl, Array.size_replicate.trans (hc.cells_size column hcolumn).symm, nofun⟩
  side := rfl
  index := rfl
  rows := rfl
  capacity := rfl
  status := rfl

end Chunk

/-! ### Errors -/

inductive Violation.Renumbered (R : Nat → Nat → Prop) : Violation → Violation → Prop
  | same (v : Violation) : Renumbered R v v
  | mismatchingSchemas {x x' y y' : Nat} (hx : R x x') (hy : R y y') :
      Renumbered R (.mismatchingSchemas x y) (.mismatchingSchemas x' y')
  | faultedInput {n n' : Nat} (h : R n n') : Renumbered R (.faultedInput n) (.faultedInput n')
  | occupiedDestinations {low low' high high' : Nat} (hl : R low low') (hh : R high high') :
      Renumbered R (.occupiedDestinations low high) (.occupiedDestinations low' high')
  | tooFewBytes {n n' : Nat} (h : R n n') (free needed : Nat) :
      Renumbered R (.tooFewBytes n free needed) (.tooFewBytes n' free needed)

inductive SortError.Renumbered (R : Nat → Nat → Prop) : SortError → SortError → Prop
  | fault {n n' : Nat} (h : R n n') (row : Option Nat) (cause : DataError) :
      Renumbered R (.fault n row cause) (.fault n' row cause)
  | violation {v v' : Violation} (h : v.Renumbered R v') : Renumbered R (.contractViolation v) (.contractViolation v')

namespace Chunk.Resembles

variable {c c' : Chunk} {R : Nat → Nat → Prop} (h : c.Resembles c')
include h

theorem load (hR : R c.id c'.id) (b : Batch) (projection : Option (List Nat)) (offset : Nat) (schedule : Schedule) :
    Attempt.Related Resembles (SortError.Renumbered R) (c.load b projection offset schedule)
      (c'.load b projection offset schedule) :=
  load_related h.schema h.side h.freeRows h.append withStatus h (fun cause => .fault hR none cause)
    (fun v => .violation (.same v)) b projection offset schedule

theorem sort (hR : R c.id c'.id) (hc : c.WellFormed) {cmp : Comparator} (hd : cmp.Discreet) (schedule : Schedule) :
    Attempt.Related Resembles (SortError.Renumbered R) (c.sort cmp schedule) (c'.sort cmp schedule) := by
  have hrecord {e : UInt32} (he : e ∈ liveEntries c.index c.rows) : (c.recordOf e).Resembles (c'.recordOf e) :=
    h.record (hc.lt_of_mem_entries he)
  have agree : ∀ a ∈ liveEntries c.index c.rows, ∀ b ∈ liveEntries c.index c.rows,
      outOfOrder cmp c.recordOf (fun _ _ => .eq) a b = outOfOrder cmp c'.recordOf (fun _ _ => .eq) a b := by
    intro a ha b hb
    apply outOfOrder_congr
    rintro x (rfl | rfl) _ y (rfl | rfl) _ <;> exact (hd _ _ _ _ (hrecord ‹_›) (hrecord ‹_›)).symm
  have hrun : runPasses (outOfOrder cmp c'.recordOf fun _ _ => .eq) c'.rows c'.index (sortSchedule c'.index.size)
      schedule.lanes =
      runPasses (outOfOrder cmp c.recordOf fun _ _ => .eq) c.rows c.index (sortSchedule c.index.size)
        schedule.lanes := by
    rw [h.index, h.rows]
    exact (runPasses_congr agree _ _).symm
  unfold Chunk.sort afterRun
  simp only [hrun]
  split
  next index _ => exact ⟨(h.reindexed index).withStatus .success, rfl⟩
  next index stop _ =>
    refine ⟨(h.reindexed index).withStatus .fault, ?_⟩
    cases stop <;> exact .fault hR _ _

theorem sortedRecords (hc : c.WellFormed) : List.Forall₂ Record.Resembles c.sortedRecords c'.sortedRecords := by
  have hentries : c'.entries = c.entries := by rw [entries, entries, h.index, h.rows]
  rw [sortedRecords_eq, sortedRecords_eq, hentries, List.forall₂_map_left_iff, List.forall₂_map_right_iff,
    List.forall₂_same]
  exact fun e he => h.record (hc.lt_of_mem_entries he)

theorem head (hc : c.WellFormed) (next next' : Nat) :
    Outcomes (Option.Rel Resembles) Eq (c.head next).1 (c'.head next').1 := by
  have hrecords := h.sortedRecords hc
  rw [Chunk.head, Chunk.head, first?_eq, first?_eq]
  generalize c.sortedRecords = records, c'.sortedRecords = records' at hrecords
  cases hrecords with
  | nil => exact .none
  | @cons r r' _ _ hr _ =>
    have hempty : (Chunk.empty next r.store.schema 1 none).Resembles (Chunk.empty next' r.store.schema 1 none) :=
      ⟨(refl (Chunk.empty next r.store.schema 1 none)).store, rfl, rfl, rfl, rfl, rfl⟩
    simp only [List.head?_cons, single, hr.schema, hr.toSource]
    exact (hempty.append [r.toSource]).map fun _ _ => .some

end Chunk.Resembles

/-! ### Merges -/

namespace MergeSet

structure Resembles (m m' : MergeSet) : Prop where
  x : m.x.Resembles m'.x
  y : m.y.Resembles m'.y
  low : m.low.Resembles m'.low
  high : m.high.Resembles m'.high

structure Numbered (R : Nat → Nat → Prop) (m m' : MergeSet) : Prop where
  x : R m.x.id m'.x.id
  y : R m.y.id m'.y.id
  low : R m.low.id m'.low.id
  high : R m.high.id m'.high.id

namespace Resembles

variable {m m' : MergeSet} {R : Nat → Nat → Prop} {cmp : Comparator} {merged : List UInt32} (h : m.Resembles m')
include h

theorem half : m'.half = m.half := by rw [MergeSet.half, MergeSet.half, h.x.rows, h.y.rows]

theorem ties : m'.ties = m.ties := by
  funext a b
  rw [MergeSet.ties, MergeSet.ties, h.half]

theorem locate (e : UInt32) : (m.locate e).1.Resembles (m'.locate e).1 ∧ (m'.locate e).2 = (m.locate e).2 := by
  unfold MergeSet.locate
  rw [h.half]
  split
  · exact ⟨h.x, rfl⟩
  · exact ⟨h.y, rfl⟩

theorem recordOf (hm : m.WellFormed) {e : UInt32} (he : e ∈ m.joint) : (m.recordOf e).Resembles (m'.recordOf e) := by
  obtain ⟨hc, hslot⟩ := h.locate e
  rw [recordOf_eq, recordOf_eq, hslot]
  refine hc.record ?_
  rcases hm.locate_joint he with ⟨hx, hlt⟩ | ⟨hy, hlt⟩
  · rwa [hx]
  · rwa [hy]

theorem order (hm : m.WellFormed) (hd : cmp.Discreet) (schedule : Schedule) :
    m'.order cmp schedule = m.order cmp schedule := by
  refine (order_congr hm ?left ?right h.ties.symm ?empty (fun a ha b hb => ?agree) schedule).symm
  case left => rw [leftSlots, leftSlots, h.x.index, h.x.rows, h.half]
  case right => rw [rightSlots, rightSlots, h.y.index, h.y.rows, h.half]
  case empty => rw [h.x.isEmpty, h.y.isEmpty]
  case agree => exact (hd _ _ _ _ (h.recordOf hm ha) (h.recordOf hm hb)).symm

theorem payloadSizes (hm : m.WellFormed) (hmem : ∀ e ∈ merged, e ∈ m.joint) (schedule : Schedule) :
    m'.payloadSizes merged schedule = m.payloadSizes merged schedule := by
  refine collect_congr_forall₂ _ (List.forall₂_same.mpr fun e he => ?_)
  rw [(h.recordOf hm (hmem e he)).toSource, h.low.schema]

theorem split : m'.split merged = m.split merged := by rw [MergeSet.split, MergeSet.split, h.low.capacity]

theorem restored : (m.restored merged).Resembles (m'.restored merged) where
  x := by
    simp only [MergeSet.restored, h.half, h.x.index]
    exact h.x.reindexed _
  y := by
    simp only [MergeSet.restored, h.half, h.y.index]
    exact h.y.reindexed _
  low := h.low
  high := h.high

theorem abandoned : m.abandoned.Resembles m'.abandoned :=
  ⟨h.x.clear.withStatus _, h.y.clear.withStatus _, h.low.withStatus _, h.high.withStatus _⟩

theorem faultAt (hR : m.Numbered R m') (f : EntryFault) : (m.faultAt f).Renumbered R (m'.faultAt f) := by
  simp only [MergeSet.faultAt, (h.locate f.entry).2]
  refine .fault ?_ _ f.cause
  unfold MergeSet.locate
  rw [h.half]
  split
  · exact hR.x
  · exact hR.y

theorem stopError (hR : m.Numbered R m') (stop : Stop EntryFault) :
    (m.stopError stop).Renumbered R (m'.stopError stop) := by
  cases stop with
  | failed f => exact h.faultAt hR f
  | outOfBounds slot => exact .fault hR.x none _

theorem layoutViolation? (hR : m.Numbered R m') :
    Option.Rel (Violation.Renumbered R) m.layoutViolation? m'.layoutViolation? := by
  have hschemas : [m.y, m.low, m.high].any (·.schema ≠ m.x.schema) = [m'.y, m'.low, m'.high].any (·.schema ≠ m'.x.schema) := by
    simp only [List.any_cons, h.x.schema, h.y.schema, h.low.schema, h.high.schema, List.any_nil]
  have hfaulted : Option.Rel (fun c c' : Chunk => R c.id c'.id) ([m.x, m.y].find? (·.status = .fault))
      ([m'.x, m'.y].find? (·.status = .fault)) := by
    simp only [List.find?_cons, List.find?_nil, h.x.status, h.y.status]
    cases decide (m.x.status = .fault)
    · cases decide (m.y.status = .fault)
      · exact .none
      · exact .some hR.y
    · exact .some hR.x
  unfold MergeSet.layoutViolation?
  refine rel_ite (by rw [hschemas]) (.some (.mismatchingSchemas hR.x hR.y)) ?_
  generalize [m.x, m.y].find? (·.status = .fault) = faulted, [m'.x, m'.y].find? (·.status = .fault) = faulted' at hfaulted
  cases hfaulted with
  | some hn => exact .some (.faultedInput hn)
  | none =>
    refine rel_ite (by rw [h.low.isEmpty, h.high.isEmpty]) (.some (.occupiedDestinations hR.low hR.high)) ?_
    rw [h.low.capacity, h.high.capacity, h.x.rows, h.y.rows]
    exact rel_ite .rfl (.some (.same _)) .none

theorem shortfall? (hR : m.Numbered R m') (split : Nat) (sizes : List Nat) :
    Option.Rel (Violation.Renumbered R) (m.shortfall? split sizes) (m'.shortfall? split sizes) := by
  have check {c c' : Chunk} (hc : c.Resembles c') (hn : R c.id c'.id) (needed : Nat) :
      Option.Rel (Violation.Renumbered R)
        (if SideBuffer.fits c.side.room needed then none else some (.tooFewBytes c.id c.side.reportedRoom needed))
        (if SideBuffer.fits c'.side.room needed then none else some (.tooFewBytes c'.id c'.side.reportedRoom needed)) := by
    rw [hc.side]
    exact rel_ite .rfl .none (.some (.tooFewBytes hn _ _))
  unfold MergeSet.shortfall?
  exact rel_findSome? (.cons (check h.low hR.low _) (.cons (check h.high hR.high _) .nil))

theorem copied (hR : m.Numbered R m') (hm : m.WellFormed) (hmem : ∀ e ∈ merged, e ∈ m.joint) :
    Outcomes (fun r r' => r.1.Resembles r'.1 ∧ r.2.Resembles r'.2) (SortError.Renumbered R) (m.copied merged)
      (m'.copied merged) := by
  have copy {c c' : Chunk} {entries : List UInt32} (hc : c.Resembles c') (hid : R c.id c'.id)
      (hentries : ∀ e ∈ entries, e ∈ merged) :
      Outcomes Chunk.Resembles (SortError.Renumbered R) (m.copyInto c entries) (m'.copyInto c' entries) := by
    have hsources : (entries.map fun e => (m'.recordOf e).toSource) = entries.map fun e => (m.recordOf e).toSource :=
      List.map_congr_left fun e he => (h.recordOf hm (hmem e (hentries e he))).toSource
    unfold copyInto
    rw [hsources]
    match c.append _, c'.append _, hc.append (entries.map fun e => (m.recordOf e).toSource) with
    | .ok _, .ok _, happ => exact happ.withStatus .success
    | .error cause, .error _, rfl => exact .fault hid none cause
  unfold MergeSet.copied
  rw [h.split]
  refine (copy h.low hR.low fun e he => List.mem_of_mem_take he).bind fun low low' hlow => ?_
  refine (copy h.high hR.high fun e he => List.mem_of_mem_drop he).bind fun high high' hhigh => ?_
  exact ⟨hlow, hhigh⟩

theorem merge (hR : m.Numbered R m') (hm : m.WellFormed) (hd : cmp.Discreet) (schedule : Schedule) :
    Attempt.Related Resembles (SortError.Renumbered R) (m.merge cmp schedule) (m'.merge cmp schedule) := by
  have hlayout := h.layoutViolation? hR
  have horder := order_outcome hm cmp schedule
  unfold MergeSet.merge afterOrder deliver
  rw [h.order hm hd]
  generalize m.layoutViolation? = violation, m'.layoutViolation? = violation' at hlayout
  cases hlayout with
  | some hv => exact ⟨h, .violation hv⟩
  | none =>
  cases hmerged : m.order cmp schedule with
  | error stop => exact ⟨h.abandoned, h.stopError hR stop⟩
  | ok merged =>
  rw [hmerged] at horder
  have hmem : ∀ e ∈ merged, e ∈ m.joint := fun e he => horder.mem_iff.mp he
  simp only [h.payloadSizes hm hmem, h.split]
  cases m.payloadSizes merged schedule with
  | error f => exact ⟨h.abandoned, h.faultAt hR f⟩
  | ok sizes =>
  have hshort := h.shortfall? hR (m.split merged) sizes
  dsimp only
  generalize m.shortfall? (m.split merged) sizes = violation, m'.shortfall? (m.split merged) sizes = violation' at hshort
  cases hshort with
  | some hv => exact ⟨h.restored, .violation hv⟩
  | none =>
  match m.copied merged, m'.copied merged, h.copied hR hm hmem with
  | .ok _, .ok _, ⟨hlow, hhigh⟩ => exact ⟨⟨h.x.clear.withStatus _, h.y.clear.withStatus _, hlow, hhigh⟩, rfl⟩
  | .error _, .error _, he => exact ⟨h.abandoned, he⟩

end Resembles
end MergeSet
end ChunkSort
