import ChunkSort.Proofs.Chunk.Screening
import ChunkSort.Proofs.Sorter.Handles
import ChunkSort.Proofs.Sorter.Pool

/-!
Merging two runs with a carry. Each step merges the carry with the next chunk by first records and gives out the
low half when it is full. What is given out is safe: the next chunk of either run starts behind as many rows as
a chunk holds.
-/

namespace ChunkSort
namespace Sorter

variable {s : Sorter} {e : Engine} {cmp : Comparator} {schedule : Schedule} {orders : (Row → Row → Ordering) → Prop}

/-! ### One step -/

inductive Stepped (s : Sorter) (orders : (Row → Row → Ordering) → Prop) (rows : List Row) : Chunk × Run → Prop where
  | carried {carry : Chunk} (h : s.Holdable carry) (hrows : carry.sortedRows = rows)
      (hlen : rows.length < s.layout.capacity) : s.Stepped orders rows (carry, [])
  | emitted {carry : Chunk} {full : Handle} (h : s.Holdable carry)
      (hrows : carry.sortedRows = rows.drop s.layout.capacity) (hfull : s.Settled orders full)
      (hfirst : full.load.sortedRows = rows.take s.layout.capacity) (hlen : s.layout.capacity ≤ rows.length) :
      s.Stepped orders rows (carry, [full])

theorem destination_agrees {n : Nat} {E : SortError → Prop} :
    Job.Agrees n s.newDestination s.newDestination (fun c => ∃ number, c = s.layout.destination number) E :=
  .bind .takeNumber fun number _ => .pure ⟨number, rfl⟩

theorem mergeable {carry next : Chunk} (hc : s.Holdable carry) (hn : s.Holdable next) (i j : Nat) :
    MergeSet.WellFormed ⟨carry, next, s.layout.destination i, s.layout.destination j⟩ ∧
      MergeSet.Mergeable ⟨carry, next, s.layout.destination i, s.layout.destination j⟩ := by
  refine ⟨⟨hc.wellFormed, hn.wellFormed, ?_, ?_⟩, ⟨?_, ?_, ?_, hc.status, hn.status, rfl, rfl, ?_⟩⟩
  · exact Chunk.wellFormed_empty _ _ s.layout.capacity_le _
  · exact Chunk.wellFormed_empty _ _ s.layout.capacity_le _
  · exact hn.ofSchema.trans hc.ofSchema.symm
  · exact (Chunk.schema_empty ..).trans hc.ofSchema.symm
  · exact (Chunk.schema_empty ..).trans hc.ofSchema.symm
  · exact Nat.add_le_add hc.rows_le hn.rows_le

theorem merge_outcome (cmp : Comparator) (schedule : Schedule) {carry next : Chunk} (hc : s.Holdable carry)
    (hn : s.Holdable next) (i j : Nat) :
    let m : MergeSet := ⟨carry, next, s.layout.destination i, s.layout.destination j⟩
    Outcome (fun _ => ∃ rows, m.Delivered (m.merge cmp schedule).state rows ∧
        (0 < carry.rows → 0 < next.rows → cmp.Clears s.layout.schema rows))
      (cmp.FailedWithin s.layout.schema (carry.sortedRows ++ next.sortedRows)) (m.merge cmp schedule).result := by
  intro m
  obtain ⟨hwf, hm⟩ := mergeable hc hn i j
  have hspec := MergeSet.merge_spec hwf cmp schedule
  cases hr : (m.merge cmp schedule).result with
  | ok u =>
    rw [hr] at hspec
    obtain ⟨_, rows, hd⟩ := hspec
    refine ⟨rows, hd, fun hpos hpos' => ?_⟩
    have hclears := MergeSet.merge_clears hwf hpos hpos' hm.y_schema hr
    exact hc.ofSchema ▸ hclears.subset hd.perm.subset
  | error err =>
    rw [hr] at hspec
    generalize (m.merge cmp schedule).state = m' at hspec
    cases hspec with
    | layout v hv =>
      rw [MergeSet.layoutViolation?_eq_none_iff.mpr hm] at hv
      cases hv
    | bytes v merged hp hv =>
      -- both destinations are unlimited
      rw [(MergeSet.shortfall?_eq_none_iff hwf merged).mpr (MergeSet.fits_of_unlimited rfl rfl merged)] at hv
      cases hv
    | fault f hf =>
      exact hc.ofSchema ▸ hf.failedWithin hwf hm.y_schema

theorem delivered_holdable {carry next : Chunk} (hc : s.Holdable carry) (hn : s.Holdable next) {i j : Nat}
    {m : MergeSet} {rows : List Row}
    (hd : MergeSet.Delivered ⟨carry, next, s.layout.destination i, s.layout.destination j⟩ m rows) :
    s.Holdable m.low ∧ s.Holdable m.high ∧ m.low.rows = min s.layout.capacity rows.length := by
  have hlow : m.low.rows = (rows.take s.layout.capacity).length := hd.low.rows.trans (Nat.zero_add _)
  have hhigh : m.high.rows = (rows.drop s.layout.capacity).length := hd.high.rows.trans (Nat.zero_add _)
  have hlen : rows.length = carry.rows + next.rows := by
    rw [hd.perm.length_eq, List.length_append, hc.wellFormed.length_sortedRows, hn.wellFormed.length_sortedRows]
  have hsum := Nat.add_le_add hc.rows_le hn.rows_le
  rw [List.length_take] at hlow
  rw [List.length_drop] at hhigh
  refine ⟨⟨hd.low.wellFormed, ?_, ?_, ?_⟩, ⟨hd.high.wellFormed, ?_, ?_, ?_⟩, hlow⟩
  · exact hd.low.schema.trans (Chunk.schema_empty ..)
  · exact hlow ▸ Nat.min_le_left ..
  · rw [hd.low_status]
    decide
  · exact hd.high.schema.trans (Chunk.schema_empty ..)
  · omega
  · rw [hd.high_status]
    decide

theorem mergeHeld_agrees {n : Nat} (ho : ∀ ord, orders ord → cmp.Orders s.layout.schema ord) (he : e.Confined cmp schedule)
    {carry : Chunk} (hc : s.Holdable carry) (hcr : InOrder orders carry.sortedRows) {next : Handle}
    (hn : s.Settled orders next) :
    Job.Agrees n (s.mergeHeld e carry next) (s.mergeHeld (cmp.engine schedule) carry next)
      (fun r => ∃ rows, rows.Perm (carry.sortedRows ++ next.load.sortedRows) ∧ InOrder orders rows ∧
        (0 < carry.rows → 0 < next.load.rows → cmp.Clears s.layout.schema rows) ∧ s.Stepped orders rows r)
      (cmp.FailedWithin s.layout.schema (carry.sortedRows ++ next.load.sortedRows)) := by
  refine destination_agrees.bind ?_
  rintro _ ⟨i, rfl⟩
  refine destination_agrees.bind ?_
  rintro _ ⟨j, rfl⟩
  have hload := hn.sound.load
  obtain ⟨hwf, hm⟩ := mergeable hc hload i j
  have hout := merge_outcome cmp schedule hc hload i j
  generalize hset : (⟨carry, next.load, s.layout.destination i, s.layout.destination j⟩ : MergeSet) = m at *
  have hattempt : Job.Agrees n (Job.ofAttempt (e.merge m)) (Job.ofAttempt ((cmp.engine schedule).merge m))
      (fun r => ∃ rows, m.Delivered r.2 rows ∧ InOrder orders rows ∧
        (0 < carry.rows → 0 < next.load.rows → cmp.Clears s.layout.schema rows))
      (cmp.FailedWithin s.layout.schema (carry.sortedRows ++ next.load.sortedRows)) := by
    rw [he.merge_eq hwf]
    apply Job.Agrees.ofAttempt
    refine hout.mono (fun _ ⟨rows, hd, hclears⟩ => ⟨rows, hd, fun ord hord => ?_, hclears⟩) fun _ h => h
    subst hset
    exact hd.pairwise hwf hm rfl rfl (hc.ofSchema ▸ ho ord hord) (hcr ord hord) (hn.inOrder ord hord)
  refine hattempt.bind ?_
  rintro ⟨_, m'⟩ ⟨rows, hd, hsorted, hclears⟩
  change m.Delivered m' rows at hd
  subst hset
  obtain ⟨hlow, hhigh, hrows⟩ := delivered_holdable hc hload hd
  refine .bind .countMerge fun _ _ => ?_
  split
  next hfull =>
    have hlen : s.layout.capacity ≤ rows.length := by
      have heq : m'.low.rows = s.layout.capacity := hfull
      omega
    refine (park_agrees he hlow).bind ?_
    rintro full ⟨hsound, hchunk⟩
    have hfirst : full.load.sortedRows = rows.take s.layout.capacity := by
      rw [hchunk]
      exact hd.low_sortedRows hwf hm
    refine .pure ⟨rows, hd.perm, hsorted, hclears, .emitted hhigh (hd.high_sortedRows hwf hm) ⟨hsound, ?_⟩ hfirst hlen⟩
    intro ord hord
    rw [hfirst]
    exact (hsorted ord hord).sublist (List.take_sublist ..)
  next hpartial =>
    have hlen : rows.length < s.layout.capacity := by
      have hne : m'.low.rows ≠ s.layout.capacity := hpartial
      omega
    have hall : m'.low.sortedRows = rows := by
      rw [hd.low_sortedRows hwf hm]
      exact List.take_of_length_le (Nat.le_of_lt hlen)
    exact .pure ⟨rows, hd.perm, hsorted, hclears, .carried hlow hall hlen⟩

/-! ### Runs -/

/-- No chunk is empty, and each but the last one is full. -/
def Packed (capacity : Nat) : Run → Prop
  | [] => True
  | [h] => 0 < h.load.rows ∧ h.load.rows ≤ capacity
  | h :: h' :: run => h.load.rows = capacity ∧ Packed capacity (h' :: run)

structure SoundRun (s : Sorter) (orders : (Row → Row → Ordering) → Prop) (run : Run) : Prop where
  settled : ∀ h ∈ run, s.Settled orders h
  packed : Packed s.layout.capacity run
  inOrder : InOrder orders (rowsOf run)

theorem Packed.head_pos {capacity : Nat} (hcap : 0 < capacity) {h : Handle} {run : Run}
    (hp : Packed capacity (h :: run)) : 0 < h.load.rows := by
  cases run with
  | nil => exact hp.1
  | cons h' run => exact hp.1 ▸ hcap

theorem Packed.head_full {capacity : Nat} {h : Handle} {run : Run} (hp : Packed capacity (h :: run)) (hne : run ≠ []) :
    h.load.rows = capacity := by
  cases run with
  | nil => exact absurd rfl hne
  | cons h' run => exact hp.1

theorem Packed.tail {capacity : Nat} {h : Handle} {run : Run} (hp : Packed capacity (h :: run)) :
    Packed capacity run := by
  cases run with
  | nil => exact trivial
  | cons h' run => exact hp.2

theorem Packed.cons {capacity : Nat} (hcap : 0 < capacity) {h : Handle} {run : Run} (hh : h.load.rows = capacity)
    (hp : Packed capacity run) : Packed capacity (h :: run) := by
  cases run with
  | nil => exact ⟨hh ▸ hcap, Nat.le_of_eq hh⟩
  | cons h' run => exact ⟨hh, hp⟩

namespace SoundRun

theorem nil (s : Sorter) (orders : (Row → Row → Ordering) → Prop) : s.SoundRun orders [] where
  settled _ h := absurd h List.not_mem_nil
  packed := trivial
  inOrder _ _ := .nil

variable {h : Handle} {run : Run}

theorem head (hr : s.SoundRun orders (h :: run)) : s.Settled orders h := hr.settled h (List.mem_cons_self ..)

theorem tail (hr : s.SoundRun orders (h :: run)) : s.SoundRun orders run where
  settled h' hm := hr.settled h' (List.mem_cons_of_mem _ hm)
  packed := hr.packed.tail
  inOrder ord hord := by
    have key := hr.inOrder ord hord
    rw [rowsOf_cons, List.pairwise_append] at key
    exact key.2.1

theorem head_le (hr : s.SoundRun orders (h :: run)) {ord : Row → Row → Ordering} (hord : orders ord) :
    ∀ r ∈ h.load.sortedRows, ∀ t ∈ rowsOf run, ord r t ≠ .gt := by
  have key := hr.inOrder ord hord
  rw [rowsOf_cons, List.pairwise_append] at key
  exact key.2.2

theorem fits (hr : s.SoundRun orders run) : ∀ r ∈ rowsOf run, r.Fits s.layout.schema := by
  intro r hm
  obtain ⟨h, hh, hrow⟩ := List.mem_flatMap.mp hm
  have hload := (hr.settled h hh).sound.load
  exact hload.ofSchema ▸ hload.wellFormed.fits_of_mem hrow

theorem exists_first (hr : s.SoundRun orders (h :: run)) (ho : ∀ ord, orders ord → cmp.Orders s.layout.schema ord) :
    ∃ u, h.load.sortedRows.head? = some u ∧ u ∈ rowsOf (h :: run) ∧
      ∀ ord, orders ord → ∀ t ∈ rowsOf (h :: run), ord u t ≠ .gt := by
  have hload := hr.head.sound.load
  have hpos := hr.packed.head_pos s.layout.capacity_pos
  rw [← hload.wellFormed.length_sortedRows] at hpos
  obtain ⟨u, us, hu⟩ := List.exists_cons_of_length_pos hpos
  refine ⟨u, by rw [hu]; rfl, by rw [rowsOf_cons, hu]; exact List.mem_cons_self .., fun ord hord t ht => ?_⟩
  have hfit := hr.fits
  have key := hr.inOrder ord hord
  rw [rowsOf_cons, hu, List.cons_append] at key ht hfit
  rcases List.mem_cons.mp ht with rfl | ht
  · have hself := hfit t (List.mem_cons_self ..)
    exact ((ho ord hord).preorders.total hself hself).elim id id
  · exact List.rel_of_pairwise_cons key ht

end SoundRun

theorem take_le_of_many {P : Row → Prop} {ord : Row → Row → Ordering} (hp : Preorders P ord) {rows xs ys : List Row}
    {t : Row} (ht : P t) (hP : ∀ r ∈ rows, P r) (hsorted : rows.Pairwise fun u v => ord u v ≠ .gt)
    (hperm : rows.Perm (xs ++ ys)) {n : Nat} (hlen : n ≤ xs.length) (hxs : ∀ r ∈ xs, ord r t ≠ .gt) :
    ∀ r ∈ rows.take n, ord r t ≠ .gt := by
  intro a ha hgt
  have hcross : ∀ r ∈ rows.drop n, ord a r ≠ .gt := by
    rw [← List.take_append_drop n rows, List.pairwise_append] at hsorted
    exact hsorted.2.2 a ha
  -- Count the rows that may stand before `t`: none behind the first `n`, not all of the first `n`, but `n` in `xs`.
  have hafter : (rows.drop n).countP (fun r => decide (ord r t ≠ .gt)) = 0 := by
    rw [List.countP_eq_zero]
    intro r hr hle
    have htrans := hp.trans (hP a (List.mem_of_mem_take ha)) (hP r (List.mem_of_mem_drop hr)) ht (hcross r hr)
      (of_decide_eq_true hle)
    exact htrans hgt
  have hbefore : (rows.take n).countP (fun r => decide (ord r t ≠ .gt)) < n := by
    have hle := List.countP_le_length (p := fun r => decide (ord r t ≠ .gt)) (l := rows.take n)
    have htake := List.length_take_le n rows
    rcases Nat.lt_or_eq_of_le hle with hlt | heq
    · omega
    · exact absurd hgt (of_decide_eq_true (List.countP_eq_length.mp heq a ha))
  have hcount := hperm.countP_eq fun r => decide (ord r t ≠ .gt)
  have hall : xs.countP (fun r => decide (ord r t ≠ .gt)) = xs.length :=
    List.countP_eq_length.mpr fun r hr => decide_eq_true (hxs r hr)
  rw [← List.take_append_drop n rows, List.countP_append, List.countP_append, hafter, hall] at hcount
  omega

/-! ### The order of the chunks -/

def FirstLe (orders : (Row → Row → Ordering) → Prop) (x y : Handle) : Prop :=
  ∀ ord, orders ord → ∀ u v, x.load.sortedRows.head? = some u → y.load.sortedRows.head? = some v → ord u v ≠ .gt

/-- The chunks of two runs in one order, each taken when its first row does not stand behind that of the next
chunk of the other run. -/
inductive Interleaving (orders : (Row → Row → Ordering) → Prop) : Run → Run → Run → Prop where
  | nil : Interleaving orders [] [] []
  | left {x : Handle} {xs ys all : Run} (h : ∀ y ∈ ys.head?, FirstLe orders x y)
      (rest : Interleaving orders xs ys all) : Interleaving orders (x :: xs) ys (x :: all)
  | right {y : Handle} {xs ys all : Run} (h : ∀ x ∈ xs.head?, FirstLe orders y x)
      (rest : Interleaving orders xs ys all) : Interleaving orders xs (y :: ys) (y :: all)

theorem Interleaving.refl_left (xs : Run) : Interleaving orders xs [] xs := by
  induction xs with
  | nil => exact .nil
  | cons x xs ih => exact .left (fun _ h => nomatch h) ih

theorem Interleaving.refl_right (ys : Run) : Interleaving orders [] ys ys := by
  induction ys with
  | nil => exact .nil
  | cons y ys ih => exact .right (fun _ h => nomatch h) ih

theorem Sound.fits {h : Handle} (hh : s.Sound h) {u : Row} (hu : h.load.sortedRows.head? = some u) :
    u.Fits s.layout.schema :=
  hh.load.ofSchema ▸ hh.load.wellFormed.fits_of_mem (List.mem_of_head? hu)

theorem firstLe_of_answer (ho : ∀ ord, orders ord → cmp.Orders s.layout.schema ord) {x y : Handle} (hx : s.Sound x)
    (hy : s.Sound y) {o : Ordering} (h : Handle.compareFirst cmp x y = .ok o) :
    if o = .gt then FirstLe orders y x else FirstLe orders x y := by
  have hout := compareFirst_outcome cmp hx hy
  rw [h] at hout
  split
  next hgt =>
    intro ord hord v u hv hu
    have hanswer := hout ord (ho ord hord) u v hu hv
    rw [(ho ord hord).preorders.swap (hx.fits hu) (hy.fits hv), ← hanswer, hgt]
    decide
  next hle =>
    intro ord hord u v hu hv
    rw [← hout ord (ho ord hord) u v hu hv]
    exact hle

theorem plan_outcome (ho : ∀ ord, orders ord → cmp.Orders s.layout.schema ord) (he : e.Confined cmp schedule) (xs ys : Run)
    (hx : ∀ h ∈ xs, s.Sound h) (hy : ∀ h ∈ ys, s.Sound h) :
    plan e xs ys = plan (cmp.engine schedule) xs ys ∧
      Outcome (Interleaving orders xs ys) (cmp.FailedWithin s.layout.schema (rowsOf xs ++ rowsOf ys))
        (plan (cmp.engine schedule) xs ys) := by
  induction xs, ys using plan.induct with
  | case1 ys =>
    rw [plan, plan]
    exact ⟨rfl, .refl_right ys⟩
  | case2 xs _ =>
    rw [plan_nil_right, plan_nil_right]
    exact ⟨rfl, .refl_left xs⟩
  | case3 x xs y ys ihy ihx =>
    have hx₀ := hx x (List.mem_cons_self ..)
    have hy₀ := hy y (List.mem_cons_self ..)
    obtain ⟨eqy, outy⟩ := ihy hx fun h hm => hy h (List.mem_cons_of_mem _ hm)
    obtain ⟨eqx, outx⟩ := ihx (fun h hm => hx h (List.mem_cons_of_mem _ hm)) hy
    have heq : e.compareFirst x y = (cmp.engine schedule).compareFirst x y := he.compareFirst_eq fun c hc =>
      hc.elim (fun hc => (hx₀.front c hc).1) fun hc => (hy₀.front c hc).1
    have hout := compareFirst_outcome cmp hx₀ hy₀
    rw [plan_cons, plan_cons, heq, eqx, eqy]
    refine ⟨rfl, ?_⟩
    change Outcome _ _ (Handle.compareFirst cmp x y >>= _)
    cases hcmp : Handle.compareFirst cmp x y with
    | error err =>
      rw [hcmp] at hout
      have hsub := (List.sublist_append_left x.load.sortedRows (rowsOf xs)).append
        (List.sublist_append_left y.load.sortedRows (rowsOf ys))
      exact Comparator.FailedWithin.mono hout hsub.subperm
    | ok o =>
      have hfirst := firstLe_of_answer ho hx₀ hy₀ hcmp
      cases o with
      | gt =>
        have hsub := (List.sublist_append_right y.load.sortedRows (rowsOf ys)).append_left (rowsOf (x :: xs))
        refine (outy.mono (fun _ h => h) fun _ h => h.mono hsub.subperm).bind fun all hall => .right (fun z hz => ?_) hall
        cases hz
        exact hfirst
      | lt | eq =>
        have hsub := (List.sublist_append_right x.load.sortedRows (rowsOf xs)).append_right (rowsOf (y :: ys))
        refine (outx.mono (fun _ h => h) fun _ h => h.mono hsub.subperm).bind fun all hall => .left (fun z hz => ?_) hall
        cases hz
        exact hfirst

theorem SoundRun.plans {x y : Run} (hx : s.SoundRun orders x) (hy : s.SoundRun orders y)
    (ho : ∀ ord, orders ord → cmp.Orders s.layout.schema ord) (he : e.Confined cmp schedule) :
    plan e x y = plan (cmp.engine schedule) x y ∧
      Outcome (Interleaving orders x y) (cmp.FailedWithin s.layout.schema (rowsOf x ++ rowsOf y))
        (plan (cmp.engine schedule) x y) :=
  plan_outcome ho he x y (fun h hm => (hx.settled h hm).sound) fun h hm => (hy.settled h hm).sound

/-! ### The fold -/

/-- The carry in front of what is left of two runs. Each of its rows stands before all that is left of one of
them. While both are left it is full, and while any is left it is not empty. -/
structure Carries (s : Sorter) (orders : (Row → Row → Ordering) → Prop) (carry : Chunk) (xs ys : Run) : Prop where
  holdable : s.Holdable carry
  inOrder : InOrder orders carry.sortedRows
  full : xs ≠ [] → ys ≠ [] → carry.rows = s.layout.capacity
  pos : xs ≠ [] ∨ ys ≠ [] → 0 < carry.rows
  reach : ∀ ord, orders ord → ∀ r ∈ carry.sortedRows,
    (∀ t ∈ rowsOf xs, ord r t ≠ .gt) ∨ ∀ t ∈ rowsOf ys, ord r t ≠ .gt

theorem Carries.symm {carry : Chunk} {xs ys : Run} (h : s.Carries orders carry xs ys) :
    s.Carries orders carry ys xs where
  holdable := h.holdable
  inOrder := h.inOrder
  full hy hx := h.full hx hy
  pos hleft := h.pos hleft.symm
  reach ord hord r hr := (h.reach ord hord r hr).symm

theorem SoundRun.carries {x : Handle} {xs ys : Run} (hr : s.SoundRun orders (x :: xs)) :
    s.Carries orders x.load xs ys where
  holdable := hr.head.sound.load
  inOrder := hr.head.inOrder
  full hne _ := hr.packed.head_full hne
  pos _ := hr.packed.head_pos s.layout.capacity_pos
  reach _ hord r hm := .inl (hr.head_le hord r hm)

/-- The first chunk of all carries on with the rest, whichever run it is from. -/
theorem Interleaving.exists_carries {x y rest : Run} {first : Handle} (h : Interleaving orders x y (first :: rest))
    (hx : s.SoundRun orders x) (hy : s.SoundRun orders y) :
    ∃ xs ys, Interleaving orders xs ys rest ∧ s.SoundRun orders xs ∧ s.SoundRun orders ys ∧
      s.Carries orders first.load xs ys ∧
      (first.load.sortedRows ++ (rowsOf xs ++ rowsOf ys)).Perm (rowsOf x ++ rowsOf y) ∧
      (x ≠ [] → y ≠ [] → xs ≠ [] ∨ ys ≠ []) := by
  cases h with
  | @left _ xs _ _ _ tail =>
    refine ⟨xs, y, tail, hx.tail, hy, hx.carries, ?_, fun _ hne => .inr hne⟩
    rw [rowsOf_cons, List.append_assoc]
  | @right _ _ ys _ _ tail =>
    refine ⟨x, ys, tail, hx, hy.tail, hy.carries.symm, ?_, fun hne _ => .inl hne⟩
    rw [rowsOf_cons]
    exact List.perm_append_comm_assoc ..

structure Folded (s : Sorter) (cmp : Comparator) (orders : (Row → Row → Ordering) → Prop) (carry : Chunk)
    (xs ys run : Run) : Prop where
  sound : s.SoundRun orders run
  perm : (rowsOf run).Perm (carry.sortedRows ++ (rowsOf xs ++ rowsOf ys))
  clears : xs ≠ [] ∨ ys ≠ [] → cmp.Clears s.layout.schema (rowsOf run)

theorem Folded.symm {carry : Chunk} {xs ys run : Run} (h : s.Folded cmp orders carry xs ys run) :
    s.Folded cmp orders carry ys xs run where
  sound := h.sound
  perm := h.perm.trans (List.perm_append_comm.append_left _)
  clears hleft := h.clears hleft.symm

theorem Carries.folded_empty {carry : Chunk} (hc : s.Carries orders carry [] []) (hz : carry.rows = 0) :
    s.Folded cmp orders carry [] [] [] where
  sound := .nil s orders
  perm := by
    rw [hc.holdable.wellFormed.sortedRows_of_rows hz]
    exact .refl _
  clears _ := cmp.clears_nil _

theorem Carries.folded_last {carry : Chunk} (hc : s.Carries orders carry [] []) (hpos : 0 < carry.rows) {last : Handle}
    (hsound : s.Sound last) (hchunk : last.load = carry) : s.Folded cmp orders carry [] [] [last] := by
  subst hchunk
  have hone : rowsOf [last] = last.load.sortedRows := by
    rw [rowsOf_cons]
    exact List.append_nil _
  refine ⟨⟨List.forall_mem_singleton.mpr ⟨hsound, hc.inOrder⟩, ⟨hpos, hc.holdable.rows_le⟩, ?_⟩, ?_,
    fun hleft => hleft.elim (absurd rfl) (absurd rfl)⟩
  · exact hone.symm ▸ hc.inOrder
  · exact .of_eq (hone.trans (List.append_nil _).symm)

theorem Folded.clears_of_subset {carry : Chunk} {xs ys run : Run} (h : s.Folded cmp orders carry xs ys run)
    {rows : List Row} (hclears : cmp.Clears s.layout.schema rows) (hsub : carry.sortedRows ⊆ rows) :
    cmp.Clears s.layout.schema (rowsOf run) := by
  by_cases hleft : xs ≠ [] ∨ ys ≠ []
  · exact h.clears hleft
  · obtain ⟨rfl, rfl⟩ : xs = [] ∧ ys = [] := by simpa only [not_or, not_not] using hleft
    have hperm : (rowsOf run).Perm carry.sortedRows := (List.append_nil carry.sortedRows) ▸ h.perm
    exact hclears.subset fun row hrow => hsub (hperm.subset hrow)

structure FoldStep (s : Sorter) (orders : (Row → Row → Ordering) → Prop) (carry : Chunk) (x : Handle) (xs ys : Run)
    (rows : List Row) : Prop where
  first : ∀ y ∈ ys.head?, FirstLe orders x y
  left : s.SoundRun orders (x :: xs)
  right : s.SoundRun orders ys
  carries : s.Carries orders carry (x :: xs) ys
  perm : rows.Perm (carry.sortedRows ++ x.load.sortedRows)
  inOrder : InOrder orders rows

namespace FoldStep

variable {carry : Chunk} {x : Handle} {xs ys : Run} {rows : List Row} (h : s.FoldStep orders carry x xs ys rows)
include h

theorem length_rows : rows.length = carry.rows + x.load.rows := by
  rw [h.perm.length_eq, List.length_append, h.carries.holdable.wellFormed.length_sortedRows,
    h.left.head.sound.load.wellFormed.length_sortedRows]

theorem carry_fits {r : Row} (hr : r ∈ carry.sortedRows) : r.Fits s.layout.schema :=
  h.carries.holdable.ofSchema ▸ h.carries.holdable.wellFormed.fits_of_mem hr

theorem fits {r : Row} (hr : r ∈ rows) : r.Fits s.layout.schema := by
  rcases List.mem_append.mp (h.perm.mem_iff.mp hr) with hr | hr
  · exact h.carry_fits hr
  · exact h.left.fits r (by rw [rowsOf_cons]; exact List.mem_append_left _ hr)

theorem rows_append_perm :
    (rows ++ (rowsOf xs ++ rowsOf ys)).Perm (carry.sortedRows ++ (rowsOf (x :: xs) ++ rowsOf ys)) := by
  rw [rowsOf_cons, List.append_assoc, ← List.append_assoc carry.sortedRows]
  exact h.perm.append_right _

theorem nothing_left (hlen : rows.length < s.layout.capacity) : xs = [] ∧ ys = [] := by
  -- A chunk that others follow is full, and its rows are among those that were merged.
  have hrows := h.length_rows
  constructor
  · by_contra hne
    have hfull := h.left.packed.head_full hne
    omega
  · by_contra hne
    have hfull := h.carries.full (List.cons_ne_nil x xs) hne
    omega

theorem last {carry' : Chunk} (hc : s.Holdable carry') (hrows : carry'.sortedRows = rows) :
    s.Carries orders carry' [] [] where
  holdable := hc
  inOrder := hrows ▸ h.inOrder
  full hne := absurd rfl hne
  pos hleft := hleft.elim (absurd rfl) (absurd rfl)
  reach _ _ _ _ := .inl nofun

theorem next {carry' : Chunk} (hc : s.Holdable carry') (hrows : carry'.sortedRows = rows.drop s.layout.capacity) :
    s.Carries orders carry' xs ys where
  holdable := hc
  inOrder ord hord := by
    rw [hrows]
    exact (h.inOrder ord hord).sublist (List.drop_sublist ..)
  full hx hy := by
    have hlen := h.length_rows
    have hcarry := h.carries.full (List.cons_ne_nil x xs) hy
    have hnext := h.left.packed.head_full hx
    rw [← hc.wellFormed.length_sortedRows, hrows, List.length_drop]
    omega
  pos hleft := by
    have hlen := h.length_rows
    have hcarry := h.carries.pos (.inl (List.cons_ne_nil x xs))
    have hnext := h.left.packed.head_pos s.layout.capacity_pos
    rw [← hc.wellFormed.length_sortedRows, hrows, List.length_drop]
    -- Either the merged chunk was full or the carry was, and neither was empty.
    rcases hleft with hx | hy
    · have := h.left.packed.head_full hx
      omega
    · have := h.carries.full (List.cons_ne_nil x xs) hy
      omega
  reach ord hord r hr := by
    rw [hrows] at hr
    rcases List.mem_append.mp (h.perm.mem_iff.mp (List.mem_of_mem_drop hr)) with hr | hr
    -- A carried row keeps its reach, a row of the chunk stands before the rest of its run.
    · refine (h.carries.reach ord hord r hr).imp_left fun hle t ht => hle t ?_
      rw [rowsOf_cons]
      exact List.mem_append_right _ ht
    · exact .inl (h.left.head_le hord r hr)

variable (ho : ∀ ord, orders ord → cmp.Orders s.layout.schema ord) {ord : Row → Row → Ordering} (hord : orders ord)
include ho hord

theorem carry_le_right : ∀ r ∈ carry.sortedRows, ∀ t ∈ rowsOf ys, ord r t ≠ .gt := by
  intro r hr t ht
  rcases h.carries.reach ord hord r hr with hle | hle
  · -- by way of the first rows of both runs
    cases ys with
    | nil => cases ht
    | cons y ys =>
      obtain ⟨u, hu, hum, _⟩ := h.left.exists_first ho
      obtain ⟨v, hv, hvm, hvt⟩ := h.right.exists_first ho
      have hp := (ho ord hord).preorders
      have huv : ord u v ≠ .gt := h.first y rfl ord hord u v hu hv
      have hrv := hp.trans (h.carry_fits hr) (h.left.fits u hum) (h.right.fits v hvm) (hle u hum) huv
      exact hp.trans (h.carry_fits hr) (h.right.fits v hvm) (h.right.fits t ht) hrv (hvt ord hord t ht)
  · exact hle t ht

/-- What is given out stands before all that is left: that of its own run comes behind a full chunk, that of
the other one behind a full carry. -/
theorem take_le : ∀ r ∈ rows.take s.layout.capacity, ∀ t ∈ rowsOf xs ++ rowsOf ys, ord r t ≠ .gt := by
  intro r hr t ht
  have hp := (ho ord hord).preorders
  have hfits : ∀ r ∈ rows, r.Fits s.layout.schema := fun r hr => h.fits hr
  rcases List.mem_append.mp ht with ht | ht
  · have hne : xs ≠ [] := by
      rintro rfl
      cases ht
    have hlen : x.load.sortedRows.length = s.layout.capacity :=
      h.left.head.sound.load.wellFormed.length_sortedRows.trans (h.left.packed.head_full hne)
    exact take_le_of_many hp (h.left.tail.fits t ht) hfits (h.inOrder ord hord)
      (h.perm.trans List.perm_append_comm) (Nat.le_of_eq hlen.symm) (fun a ha => h.left.head_le hord a ha t ht) r hr
  · have hne : ys ≠ [] := by
      rintro rfl
      cases ht
    have hlen : carry.sortedRows.length = s.layout.capacity :=
      h.carries.holdable.wellFormed.length_sortedRows.trans (h.carries.full (List.cons_ne_nil x xs) hne)
    exact take_le_of_many hp (h.right.fits t ht) hfits (h.inOrder ord hord) h.perm (Nat.le_of_eq hlen.symm)
      (fun a ha => h.carry_le_right ho hord a ha t ht) r hr

theorem emitted_le : ∀ r ∈ rows.take s.layout.capacity,
    ∀ t ∈ rows.drop s.layout.capacity ++ (rowsOf xs ++ rowsOf ys), ord r t ≠ .gt := by
  intro r hr t ht
  rcases List.mem_append.mp ht with ht | ht
  · have key := h.inOrder ord hord
    rw [← List.take_append_drop s.layout.capacity rows, List.pairwise_append] at key
    exact key.2.2 r hr t ht
  · exact h.take_le ho hord r hr t ht

omit hord in
theorem emit {carry' : Chunk} {full : Handle} {run : Run} (hfull : s.Settled orders full)
    (hfirst : full.load.sortedRows = rows.take s.layout.capacity) (hlen : s.layout.capacity ≤ rows.length)
    (hrows : carry'.sortedRows = rows.drop s.layout.capacity) (hclears : cmp.Clears s.layout.schema rows)
    (hrun : s.Folded cmp orders carry' xs ys run) : s.Folded cmp orders carry (x :: xs) ys (full :: run) := by
  have hperm := hrun.perm
  rw [hrows] at hperm
  have hall : rowsOf (full :: run) = rows.take s.layout.capacity ++ rowsOf run := by rw [rowsOf_cons, hfirst]
  refine ⟨⟨List.forall_mem_cons.mpr ⟨hfull, hrun.sound.settled⟩, ?packed, fun ord hord => ?inOrder⟩, ?perm,
    fun _ => ?clears⟩
  case packed =>
    refine hrun.sound.packed.cons s.layout.capacity_pos ?_
    rw [← hfull.sound.load.wellFormed.length_sortedRows, hfirst, List.length_take]
    exact Nat.min_eq_left hlen
  case inOrder =>
    rw [hall, List.pairwise_append]
    exact ⟨(h.inOrder ord hord).sublist (List.take_sublist ..), hrun.sound.inOrder ord hord,
      fun a ha b hb => h.emitted_le ho hord a ha b (hperm.mem_iff.mp hb)⟩
  case perm =>
    rw [hall]
    refine (hperm.append_left _).trans ?_
    rw [← List.append_assoc, List.take_append_drop]
    exact h.rows_append_perm
  case clears =>
    rw [hall]
    refine (hclears.subset (List.take_subset ..)).append (hrun.clears_of_subset hclears ?_)
    rw [hrows]
    exact List.drop_subset ..

/-! What the two outcomes of a step have in common. -/

section Stepped

variable {carry' : Chunk} {full : Run} (hstep : s.Stepped orders rows (carry', full))
include hstep

omit ho hord in
theorem carries_next : s.Carries orders carry' xs ys := by
  cases hstep with
  | carried hc hrows hlen =>
    obtain ⟨rfl, rfl⟩ := h.nothing_left hlen
    exact h.last hc hrows
  | emitted hc hrows => exact h.next hc hrows

omit ho hord in
theorem rest_subperm : (carry'.sortedRows ++ (rowsOf xs ++ rowsOf ys)).Subperm
    (carry.sortedRows ++ (rowsOf (x :: xs) ++ rowsOf ys)) := by
  refine List.Subperm.trans ?_ h.rows_append_perm.subperm
  cases hstep with
  | carried hc hrows => rw [hrows]
  | emitted hc hrows =>
    rw [hrows]
    exact ((List.drop_sublist ..).append_right _).subperm

omit hord in
theorem folded (hclears : cmp.Clears s.layout.schema rows) {run : Run} (hrun : s.Folded cmp orders carry' xs ys run) :
    s.Folded cmp orders carry (x :: xs) ys (full ++ run) := by
  cases hstep with
  | carried hc hrows hlen =>
    have hperm := hrun.perm
    rw [hrows] at hperm
    exact ⟨hrun.sound, hperm.trans h.rows_append_perm, fun _ =>
      hrun.clears_of_subset hclears (hrows ▸ List.Subset.refl _)⟩
  | emitted hc hrows hfull hfirst hlen => exact h.emit ho hfull hfirst hlen hrows hclears hrun

end Stepped

end FoldStep

end Sorter
end ChunkSort
