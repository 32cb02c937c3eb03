import Mathlib
import ChunkSort.CommandLine.LineSorter
import ChunkSort.Proofs.CommandLine.Arguments
import ChunkSort.Proofs.Keys
import ChunkSort.Proofs.Sorter.Screening

/-!
Sorting lines. Whatever bounds the sorter works under, the lines come out as one flat sort of them would give them.
-/

namespace ChunkSort.CommandLine

/-! ### Lines -/

def trimmed (all : List (List UInt8)) : List (List UInt8) := if all.getLast? = some [] then all.dropLast else all

/-- The pieces of the input between newlines, without an empty one at the end. -/
def pieces (input : List UInt8) : List (List UInt8) := trimmed (input.splitOn newline)

def LinesFit (limit : Option Nat) (lines : List (List UInt8)) : Prop :=
  ∀ line ∈ lines, ∀ bytes ∈ limit, line.length ≤ bytes

instance (limit : Option Nat) (lines : List (List UInt8)) : Decidable (LinesFit limit lines) :=
  inferInstanceAs (Decidable (∀ line ∈ lines, ∀ bytes ∈ limit, line.length ≤ bytes))

theorem trimmed_cons (piece : List UInt8) {all : List (List UInt8)} (h : all ≠ []) :
    trimmed (piece :: all) = piece :: trimmed all := by
  obtain ⟨next, rest, rfl⟩ := List.exists_cons_of_ne_nil h
  rw [trimmed, trimmed, List.getLast?_cons_cons, List.dropLast_cons_cons]
  split <;> rfl

theorem splitLines_cons (b : UInt8) (input : List UInt8) :
    splitLines (b :: input) =
      if b = newline then [] :: splitLines input
      else match splitLines input with
        | [] => [[b]]
        | line :: rest => (b :: line) :: rest := rfl

theorem splitLines_eq (input : List UInt8) : splitLines input = pieces input := by
  induction input with
  | nil => rfl
  | cons b input ih =>
    have hne := List.splitOn_ne_nil newline input
    rw [splitLines_cons, ih, pieces, pieces, List.splitOn_cons_eq_if_modifyHead]
    by_cases hb : b = newline
    · rw [if_pos hb, if_pos (beq_iff_eq.mpr hb), trimmed_cons [] hne]
    · rw [if_neg hb, if_neg (mt beq_iff_eq.mp hb)]
      obtain ⟨piece, all, hall⟩ := List.exists_cons_of_ne_nil hne
      rw [hall, List.modifyHead_cons]
      cases all with
      | nil =>
        -- The last piece is no line if it is empty, but with one more byte it is.
        cases piece <;> rfl
      | cons next all => rw [trimmed_cons _ (List.cons_ne_nil next all), trimmed_cons _ (List.cons_ne_nil next all)]

/-! ### Byte order -/

def lineLe (descending : Bool) (a b : List UInt8) : Bool := if descending then b ≤ a else a ≤ b

def sortedLines (descending : Bool) (lines : List (List UInt8)) : List (List UInt8) :=
  lines.mergeSort (lineLe descending)

theorem lineLe_trans {descending : Bool} (a b c : List UInt8) (hab : lineLe descending a b = true)
    (hbc : lineLe descending b c = true) : lineLe descending a c = true := by
  cases descending with
  | false => exact decide_eq_true (List.le_trans (of_decide_eq_true hab) (of_decide_eq_true hbc))
  | true => exact decide_eq_true (List.le_trans (of_decide_eq_true hbc) (of_decide_eq_true hab))

theorem lineLe_total {descending : Bool} (a b : List UInt8) : (lineLe descending a b || lineLe descending b a) = true := by
  rw [Bool.or_eq_true]
  cases descending with
  | false => exact (List.le_total a b).imp decide_eq_true decide_eq_true
  | true => exact (List.le_total b a).imp decide_eq_true decide_eq_true

theorem lineLe_antisymm {descending : Bool} {a b : List UInt8} (hab : lineLe descending a b = true)
    (hba : lineLe descending b a = true) : a = b := by
  cases descending with
  | false => exact List.le_antisymm (of_decide_eq_true hab) (of_decide_eq_true hba)
  | true => exact List.le_antisymm (of_decide_eq_true hba) (of_decide_eq_true hab)

theorem eq_sortedLines {descending : Bool} {sorted lines : List (List UInt8)} (hp : sorted.Perm lines)
    (hs : sorted.Pairwise fun a b => lineLe descending a b = true) : sorted = sortedLines descending lines :=
  (hp.trans (lines.mergeSort_perm _).symm).eq_of_pairwise (fun _ _ _ _ hab hba => lineLe_antisymm hab hba) hs
    (List.pairwise_mergeSort lineLe_trans lineLe_total lines)

theorem compare_ne_gt_iff (a b : List UInt8) : compare a b ≠ .gt ↔ a ≤ b := by
  induction a generalizing b with
  | nil => cases b <;> simp
  | cons x xs ih =>
    cases b with
    | nil => simp
    | cons y ys =>
      rw [List.compare_cons_cons, List.cons_le_cons_iff, ← ih]
      cases h : compare x y with
      | lt => simp [Std.compare_eq_lt.mp h]
      | eq => simp [Std.LawfulEqOrd.eq_of_compare h]
      | gt =>
        have hlt : y < x := Std.compare_eq_gt.mp h
        simp [(UInt8.ne_of_lt hlt).symm, UInt8.le_of_lt hlt]

def lineKeys (descending : Bool) : List SortKey := [{ column := 0, descending }]

theorem keysOrder_line {descending : Bool} {u v : Row} {a b : List UInt8} (hu : u.values = [.bytes a])
    (hv : v.values = [.bytes b]) :
    keysOrder (lineKeys descending) u v ≠ .gt ↔ lineLe descending a b = true := by
  have hvalue : u.value 0 = .bytes a ∧ v.value 0 = .bytes b := by
    rw [Row.value, Row.value, hu, hv]
    exact ⟨rfl, rfl⟩
  have horder (k : SortKey) : k.order (.bytes a) (.bytes b) = k.directed (compare a b) := SortKey.order_of_far_eq rfl
  rw [lineKeys, keysOrder, keysOrder, Ordering.then_eq, hvalue.1, hvalue.2, horder]
  cases descending with
  | false => exact (compare_ne_gt_iff a b).trans decide_eq_true_iff.symm
  | true =>
    change (compare a b).swap ≠ .gt ↔ _
    rw [← Std.OrientedCmp.eq_swap]
    exact (compare_ne_gt_iff b a).trans decide_eq_true_iff.symm

/-! ### Lines as rows -/

theorem recordLine_eq {r : Record} {row : Row} {line : List UInt8} (hr : r.Reads [.varLen] row)
    (hrow : row.values = [.bytes line]) : recordLine r = .ok line := by
  have hvalue : r.value 0 = .ok (.bytes line) := by
    have hread := hr.value (Nat.one_pos : 0 < [ColumnType.varLen].length)
    rw [Row.value, hrow] at hread
    exact hread.1
  rw [recordLine, hvalue]
  rfl

def lineBatch (id : UInt32) (lines : List (List UInt8)) : Batch :=
  .ofRows id 1 (lines.map fun line => #[.bytes line]).toArray none

theorem lineBatches_eq (id : UInt32) {lines : List (List UInt8)} (h : lines ≠ []) :
    lineBatches id lines = lineBatch id (lines.take batchLines) :: lineBatches (id + 1) (lines.drop batchLines) := by
  rw [lineBatches, dif_neg h]
  rfl

section Batches

variable {id : UInt32} {lines : List (List UInt8)}

@[simp] theorem rows_lineBatch : (lineBatch id lines).rows = lines.length := by
  rw [lineBatch, Batch.ofRows, List.size_toArray, List.length_map]

theorem visibleRows_lineBatch : (lineBatch id lines).visibleRows 0 = List.range lines.length := by
  have hvisible : (lineBatch id lines).visible = fun _ => true := rfl
  rw [Batch.visibleRows, Batch.visibleAmong, rows_lineBatch, hvisible, List.filter_true, List.range_eq_range']
  rfl

theorem source_lineBatch {row : Nat} (h : row < lines.length) :
    ((lineBatch id lines).source none row).Gives [.varLen] ⟨rowId id row, [.bytes lines[row]]⟩ where
  id := rfl
  fits := .cons trivial .nil
  values i v hi := by
    cases i with
    | zero =>
      cases hi
      simp [Batch.source, lineBatch, Batch.ofRows, h]
    | succ i => cases hi

def lineRows (id : UInt32) (lines : List (List UInt8)) : List Row :=
  lines.mapIdx fun i line => ⟨rowId id i, [.bytes line]⟩

theorem lineRows_values (id : UInt32) (lines : List (List UInt8)) :
    List.Forall₂ (fun row line => row.values = [.bytes line]) (lineRows id lines) lines := by
  refine List.forall₂_of_length_eq_of_get List.length_mapIdx fun i hi hi' => ?_
  simp only [lineRows, List.get_eq_getElem, List.getElem_mapIdx]

end Batches

structure TakesLines (s : Sorter) : Prop where
  schema : s.layout.schema = [.varLen]
  projection : s.projection = none

section Batches

variable {s : Sorter} {id : UInt32} {lines : List (List UInt8)} (hs : TakesLines s)
include hs

theorem reads_lineBatch :
    s.Reads (((lineBatch id lines).visibleRows 0).map ((lineBatch id lines).source s.projection)) (lineRows id lines) := by
  rw [Sorter.Reads, hs.projection, hs.schema, visibleRows_lineBatch, List.forall₂_map_left_iff]
  refine List.forall₂_of_length_eq_of_get (List.length_range.trans List.length_mapIdx.symm) fun i hi hi' => ?_
  simp only [lineRows, List.get_eq_getElem, List.getElem_range, List.getElem_mapIdx]
  exact source_lineBatch _

theorem exists_lineRows (id : UInt32) (lines : List (List UInt8)) :
    ∃ rows, s.Reads (s.sources (lineBatches id lines)) rows ∧
      List.Forall₂ (fun row line => row.values = [.bytes line]) rows lines := by
  induction id, lines using lineBatches.induct with
  | case1 id =>
    rw [lineBatches, dif_pos rfl]
    exact ⟨[], .nil, .nil⟩
  | case2 id lines h ih =>
    obtain ⟨rows, hreads, hrows⟩ := ih
    rw [lineBatches_eq id h, Sorter.sources, List.flatMap_cons]
    refine ⟨_, List.rel_append (reads_lineBatch hs) hreads, ?_⟩
    have hall := List.rel_append (lineRows_values id (lines.take batchLines)) hrows
    dsimp only at hall
    rwa [List.take_append_drop] at hall

theorem loadable_lineBatch_iff (hl : lines.length ≤ batchLines) :
    s.Loadable (lineBatch id lines) ↔ LinesFit s.layout.sideLimit lines := by
  have hrow {i : Nat} (hi : i < lines.length) : ((lineBatch id lines).source s.projection i).Gives s.layout.schema
      ⟨rowId id i, [.bytes lines[i]]⟩ := by
    rw [hs.projection, hs.schema]
    exact source_lineBatch hi
  constructor
  · intro h line hline
    obtain ⟨i, hi, rfl⟩ := List.getElem_of_mem hline
    obtain ⟨row, hg, hle⟩ := h.rows i (visibleRows_lineBatch ▸ List.mem_range.mpr hi)
    obtain rfl := hg.unique (hrow hi)
    exact hle
  · intro h
    refine ⟨⟨?_, ?_⟩, fun i hi => ?_⟩
    · rw [rows_lineBatch]
      exact Nat.le_trans hl (by decide)
    · rw [hs.projection, hs.schema]
      rfl
    · rw [visibleRows_lineBatch, List.mem_range] at hi
      exact ⟨_, hrow hi, h _ (List.getElem_mem hi)⟩

theorem loadable_lines_iff (id : UInt32) (lines : List (List UInt8)) :
    (∀ b ∈ lineBatches id lines, s.Loadable b) ↔ LinesFit s.layout.sideLimit lines := by
  induction id, lines using lineBatches.induct with
  | case1 id =>
    rw [lineBatches, dif_pos rfl]
    exact iff_of_true (List.forall_mem_nil _) (List.forall_mem_nil _)
  | case2 id lines h ih =>
    rw [lineBatches_eq id h, List.forall_mem_cons, loadable_lineBatch_iff hs (List.length_take_le ..), ih,
      LinesFit, LinesFit, LinesFit, ← List.forall_mem_append, List.take_append_drop]

end Batches

/-! ### Sorting -/

def rowLine (row : Row) : List UInt8 := (row.value 0).payload

theorem rowLine_eq {row : Row} {line : List UInt8} (h : row.values = [.bytes line]) : rowLine row = line := by
  rw [rowLine, Row.value, h]
  rfl

section Sorting

variable {s : Sorter} {descending : Bool}

theorem lineKeys_orders (hs : TakesLines s) :
    (Comparator.byKeys (lineKeys descending)).Orders s.layout.schema (keysOrder (lineKeys descending)) := by
  refine Comparator.byKeys_orders fun k hk => ?_
  obtain rfl := List.mem_singleton.mp hk
  rw [hs.schema]
  exact Nat.one_pos

theorem records_lines {orders : (Row → Row → Ordering) → Prop} {run : SortedRun} {rows : List Row} {lines : List (List UInt8)}
    (hs : TakesLines s) (hrun : s.SoundRun orders run.chunks) (hord : orders (keysOrder (lineKeys descending)))
    (hperm : (Sorter.rowsOf run.chunks).Perm rows) (hrows : List.Forall₂ (fun row line => row.values = [.bytes line]) rows lines) :
    run.records.mapM recordLine = .ok (sortedLines descending lines) := by
  have hvalues : ∀ row ∈ Sorter.rowsOf run.chunks, row.values = [.bytes (rowLine row)] := by
    intro row hrow
    obtain ⟨line, _, hline⟩ := exists_right_of_forall₂ hrows (hperm.mem_iff.mp hrow)
    rw [rowLine_eq hline, hline]
  have hlines : rows.map rowLine = lines := by
    rw [← List.forall₂_eq_eq_eq, List.forall₂_map_left_iff]
    exact hrows.imp fun _ _ => rowLine_eq
  have hread : run.records.mapM recordLine = .ok ((Sorter.rowsOf run.chunks).map rowLine) := by
    rw [mapM_eq_ok_iff, List.forall₂_map_right_iff]
    have hreads := (List.forall₂_and_left _ _).mpr ⟨hvalues, hrun.reads.flip⟩
    exact hreads.flip.imp fun r row h => recordLine_eq (hs.schema ▸ h.2) h.1
  rw [hread]
  refine congrArg Except.ok (eq_sortedLines (hlines ▸ hperm.map rowLine) ?_)
  rw [List.pairwise_map]
  refine (hrun.inOrder _ hord).imp_of_mem fun {u v} hu hv hle => ?_
  exact (keysOrder_line (hvalues u hu) (hvalues v hv)).mp hle

theorem sort_lines (hs : TakesLines s) (descending : Bool) (id : UInt32) (lines : List (List UInt8)) (next : Nat) :
    ChunkSort.Outcome
      (fun run => LinesFit s.layout.sideLimit lines ∧ run.records.mapM recordLine = .ok (sortedLines descending lines))
      (fun _ => ¬LinesFit s.layout.sideLimit lines)
      (s.sortBy (.byKeys (lineKeys descending)) (lineBatches id lines) next).result := by
  have hcmp : ∀ ord, ord = keysOrder (lineKeys descending) →
      (Comparator.byKeys (lineKeys descending)).Orders s.layout.schema ord := fun _ he => he ▸ lineKeys_orders hs
  rw [← loadable_lines_iff hs id lines]
  refine (Sorter.sortWith_agrees hcmp (Comparator.engine_confined _ _) _ next).2.mono ?_ ?_
  · rintro run ⟨hloadable, contents, chunks, hreads, hsealed, hrun⟩
    obtain ⟨rows, hreads', hrows⟩ := exists_lineRows hs id lines
    obtain rfl := hreads.unique hreads'
    exact ⟨hloadable, records_lines hs hrun.sound rfl (hrun.perm_contents hcmp hsealed) hrows⟩
  · rintro error (⟨b, hb, _, hnot⟩ | hfailed)
    · exact fun hall => hnot (hall b hb)
    · exact absurd hfailed.1 ((lineKeys_orders hs).not_blamed error)

theorem Settings.sortLines_outcome (settings : Settings) (hs : TakesLines s) (input : List UInt8) :
    ChunkSort.Outcome
      (fun output => LinesFit s.layout.sideLimit (pieces input) ∧
        output = joinLines (sortedLines settings.descending (pieces input)))
      (fun _ => ¬LinesFit s.layout.sideLimit (pieces input)) (settings.sortLines s input) := by
  have hsort := sort_lines hs settings.descending 0 (pieces input) 0
  have hcmp : settings.comparator = .byKeys (lineKeys settings.descending) := rfl
  unfold Settings.sortLines
  rw [splitLines_eq, hcmp]
  simp only [Except.mapError, bind, Except.bind]
  cases hrun : (s.sortBy (.byKeys (lineKeys settings.descending)) (lineBatches 0 (pieces input)) 0).result with
  | error error =>
    rw [hrun] at hsort
    exact hsort
  | ok run =>
    rw [hrun] at hsort
    obtain ⟨hfit, hlines⟩ := hsort
    simp only [hlines]
    exact ⟨hfit, rfl⟩

end Sorting

end ChunkSort.CommandLine
