import ChunkSort.Proofs.Chunk.Sort
import ChunkSort.Proofs.Network.Recorded
import ChunkSort.Proofs.Network.Halves

/-!
Lanes that are left out. A lane whose upper slot holds padding exchanges nothing and compares nothing, so a run that
leaves such lanes out goes through the same comparisons to the same end. That is so in any order of the lanes, and an
order of all lanes of a pass is as good as an order of the live ones.
-/

namespace ChunkSort

def lanesOf (passes : List Pass) (length live : Nat) (turns : Nat → Turns := inTurn) : List (Nat × Nat) :=
  match passes with
  | [] => []
  | p :: passes => (turns 0).arrange (p.lanes length live) ++ lanesOf passes length live fun pass => turns (pass + 1)

def PaddedFrom (live : Nat) (slots : Array UInt32) : Prop := ∀ e ∈ slots.toList.drop live, e = padding

/-! ### A run as one list of lanes -/

theorem Pass.lanes_eq_filter (p : Pass) (length live : Nat) :
    p.lanes length live = (p.lanes length length).filter (·.2 < live) := by
  rw [lanes_eq, lanes_eq p length length, List.filter_filter]
  apply List.filter_congr
  intro lane hlane
  obtain ⟨block, hb, hblock⟩ := List.mem_flatMap.mp hlane
  obtain ⟨r, hr, rfl⟩ := List.mem_map.mp hblock
  have hlt := lt_length_of_mem_lanes
    (mem_lanes.mpr ⟨block, List.mem_range.mp hb, r, List.mem_range.mp hr, rfl, Nat.lt_succ_self _⟩)
  simp only [hlt, decide_true, Bool.and_true]

variable {α ε : Type}

theorem filter_lanesOf (passes : List Pass) (length live : Nat) (turns : Nat → Turns) :
    ∃ turns', (lanesOf passes length length turns).filter (·.2 < live) = lanesOf passes length live turns' := by
  induction passes generalizing turns with
  | nil => exact ⟨inTurn, rfl⟩
  | cons p passes ih =>
    obtain ⟨others, hothers⟩ := ih fun pass => turns (pass + 1)
    have hperm := ((turns 0).arrange_perm (p.lanes length length)).filter (·.2 < live)
    rw [← p.lanes_eq_filter] at hperm
    obtain ⟨first, hfirst⟩ := Turns.exists_arrange_eq hperm
    refine ⟨fun pass => if pass = 0 then first else others (pass - 1), ?_⟩
    rw [lanesOf, lanesOf, List.filter_append, hothers, if_pos rfl, hfirst]
    rfl

theorem exists_filter_lanesOf (passes : List Pass) (length live : Nat) (turns : Nat → Turns) :
    ∃ turns', lanesOf passes length live turns = (lanesOf passes length length turns').filter (·.2 < live) := by
  induction passes generalizing turns with
  | nil => exact ⟨inTurn, rfl⟩
  | cons p passes ih =>
    obtain ⟨others, hothers⟩ := ih fun pass => turns (pass + 1)
    have hlive : ((turns 0).arrange (p.lanes length live)).filter (·.2 < live) = (turns 0).arrange (p.lanes length live) := by
      rw [List.filter_eq_self]
      intro lane hlane
      simpa using (Pass.lt_of_mem_lanes (Turns.mem_arrange.mp hlane)).2
    have hdead : ((p.lanes length length).filter fun lane => !decide (lane.2 < live)).filter (·.2 < live) = [] := by
      simp
    have harrange := (turns 0).arrange_perm (p.lanes length live)
    nth_rewrite 2 [p.lanes_eq_filter] at harrange
    obtain ⟨first, hfirst⟩ := Turns.exists_arrange_eq
      ((harrange.append_right _).trans (List.filter_append_perm (·.2 < live) (p.lanes length length)))
    refine ⟨fun pass => if pass = 0 then first else others (pass - 1), ?_⟩
    rw [lanesOf, lanesOf, List.filter_append, if_pos rfl, hfirst, List.filter_append, hlive, hdead, List.append_nil]
    exact congrArg (_ ++ ·) hothers

theorem lanesOf_eq_filter (passes : List Pass) (length live : Nat) :
    lanesOf passes length live = (lanesOf passes length length).filter (·.2 < live) := by
  induction passes with
  | nil => rfl
  | cons p passes ih =>
    show p.lanes length live ++ lanesOf passes length live =
      (p.lanes length length ++ lanesOf passes length length).filter (·.2 < live)
    rw [List.filter_append, ← p.lanes_eq_filter, ih]

theorem bounds_of_mem_lanesOf {passes : List Pass} {length live : Nat} {turns : Nat → Turns} {lane : Nat × Nat}
    (h : lane ∈ lanesOf passes length live turns) : lane.1 < lane.2 ∧ lane.2 < length := by
  induction passes generalizing turns with
  | nil => cases h
  | cons p passes ih =>
    rcases List.mem_append.mp h with hp | hrest
    · rw [Turns.mem_arrange] at hp
      exact ⟨(Pass.lt_of_mem_lanes hp).1, Pass.lt_length_of_mem_lanes hp⟩
    · exact ih hrest

theorem runPasses_eq_foldlM (exchange : α → α → Except ε Bool) (live : Nat) (slots : Array α) (passes : List Pass)
    (turns : Nat → Turns) : runPasses exchange live slots passes turns =
      (lanesOf passes slots.size live turns).foldlM (exchangeLane exchange) slots := by
  induction passes generalizing slots turns with
  | nil => rfl
  | cons p passes ih =>
    rw [lanesOf, List.foldlM_append, runPasses]
    show p.run exchange live slots (turns 0) >>= _ = p.run exchange live slots (turns 0) >>= _
    cases hp : p.run exchange live slots (turns 0) with
    | error halted => rfl
    | ok s =>
      have key := ih s fun pass => turns (pass + 1)
      rw [run_size exchange hp] at key
      exact key

/-! ### Padding stays where it is -/

namespace PaddedFrom

variable {live : Nat} {slots : Array UInt32} (h : PaddedFrom live slots)
include h

theorem getElem_eq {i : Nat} (hi : i < slots.size) (hl : live ≤ i) : slots[i] = padding := by
  apply h
  rw [List.mem_drop_iff_getElem]
  exact ⟨i - live, by rw [Array.length_toList]; omega, by simp [Nat.add_sub_cancel' hl]⟩

theorem swap {i j : Nat} (hi : i < slots.size) (hj : j < slots.size) (hil : i < live) (hjl : j < live) :
    PaddedFrom live (slots.swap i j hi hj) := by
  rw [PaddedFrom, (shuffled_swap hi hj hil hjl).drop]
  exact h

theorem exchangeLane {exchange : UInt32 → UInt32 → Except ε Bool}
    (hexchange : ∀ a, exchange a padding = .ok false) {lane : Nat × Nat} (hlt : lane.1 < lane.2) :
    Outcome (PaddedFrom live) (PaddedFrom live ·.slots) (exchangeLane exchange slots lane) := by
  rw [ChunkSort.exchangeLane]
  split
  next hsize =>
    by_cases hlive : lane.2 < live
    · split
      next => exact h.swap hsize.1 hsize.2 (Nat.lt_trans hlt hlive) hlive
      next => exact h
      next => exact h
    · rw [h.getElem_eq hsize.2 (Nat.le_of_not_lt hlive), hexchange]
      exact h
  next => exact h

end PaddedFrom

/-! ### Dead lanes -/

section Dead

variable {m : Type → Type} [Monad m] [LawfulMonad m] {exchange : UInt32 → UInt32 → ExceptT ε m Bool}
  (hexchange : ∀ a, exchange a padding = pure false)
include hexchange

theorem exchangeLaneM_dead {live : Nat} {slots : Array UInt32} (h : PaddedFrom live slots) {lane : Nat × Nat}
    (hin : lane.1 < lane.2 ∧ lane.2 < slots.size) (hdead : live ≤ lane.2) :
    exchangeLaneM exchange slots lane = pure slots := by
  have hpure (f : ε → Halted UInt32 ε) : (pure false : ExceptT ε m Bool).adapt f = pure false := by
    apply ExceptT.ext
    rw [ExceptT.run_adapt, ExceptT.run_pure, map_pure, ExceptT.run_pure]
    rfl
  rw [exchangeLaneM_inside exchange (Nat.lt_trans hin.1 hin.2) hin.2, h.getElem_eq hin.2 hdead, hexchange, hpure,
    pure_bind]
  rfl

theorem foldlM_filter_live {live : Nat} {lanes : List (Nat × Nat)} {slots : Array UInt32}
    (hin : ∀ lane ∈ lanes, lane.1 < lane.2 ∧ lane.2 < slots.size) (h : PaddedFrom live slots) :
    (lanes.filter (·.2 < live)).foldlM (exchangeLaneM exchange) slots =
      lanes.foldlM (exchangeLaneM exchange) slots := by
  -- A dead lane does nothing only as long as its upper slot holds padding, so the padding is carried along.
  induction lanes generalizing slots with
  | nil => rfl
  | cons lane lanes ih =>
    obtain ⟨hlane, hlanes⟩ := List.forall_mem_cons.mp hin
    by_cases hlive : lane.2 < live
    · rw [List.filter_cons_of_pos (by simpa using hlive), List.foldlM_cons, List.foldlM_cons,
        exchangeLaneM_inside exchange (Nat.lt_trans hlane.1 hlane.2) hlane.2]
      simp only [bind_assoc, pure_bind]
      apply bind_congr
      intro swap
      cases swap with
      | true =>
        apply ih
        · simpa using hlanes
        · exact h.swap _ _ (Nat.lt_trans hlane.1 hlive) hlive
      | false => exact ih hlanes h
    · rw [List.filter_cons_of_neg (by simpa using hlive), List.foldlM_cons,
        exchangeLaneM_dead hexchange h hlane (Nat.le_of_not_lt hlive), pure_bind]
      exact ih hlanes h

end Dead

/-! ### With and without the dead lanes -/

section

variable (cmp : Comparator) (record : UInt32 → Record) (ties : UInt32 → UInt32 → Ordering)

def recordedRun (live : Nat) (slots : Array UInt32) (passes : List Pass) (turns : Nat → Turns := inTurn) :
    Except (Halted UInt32 EntryFault) (Array UInt32) × List (Record × Record) :=
  ((lanesOf passes slots.size live turns).foldlM (exchangeLaneM (outOfOrderM (recorded cmp) record ties)) slots).run.run
    []

/-- Leaving out the lanes from `rows` on makes no difference: the run ends alike, in the same slots or at the same
fault, after the same comparisons. -/
structure SkipsDeadLanes (rows : Nat) (slots : Array UInt32) (passes : List Pass) : Prop where
  outcome : runPasses (outOfOrder cmp record ties) rows slots passes =
    runPasses (outOfOrder cmp record ties) slots.size slots passes
  comparisons : (recordedRun cmp record ties rows slots passes).2 =
    (recordedRun cmp record ties slots.size slots passes).2
  recording (live : Nat) (turns : Nat → Turns) : (recordedRun cmp record ties live slots passes turns).1 =
    runPasses (outOfOrder cmp record ties) live slots passes turns
  /-- Lanes that are under way at once may be done in any order, and all lanes can then do what the live ones do. -/
  lessTurns (turns : Nat → Turns) : ∃ turns', recordedRun cmp record ties rows slots passes turns =
    recordedRun cmp record ties slots.size slots passes turns'
  moreTurns (turns : Nat → Turns) : ∃ turns', recordedRun cmp record ties slots.size slots passes turns =
    recordedRun cmp record ties rows slots passes turns'
  /-- After every lane of either run, and where it halts. -/
  padded (live : Nat) (turns : Nat → Turns) (lanes : List (Nat × Nat)) :
    lanes <+: lanesOf passes slots.size live turns → Outcome (PaddedFrom rows) (PaddedFrom rows ·.slots)
      (lanes.foldlM (exchangeLane (outOfOrder cmp record ties)) slots)

theorem outOfOrder_padding (a : UInt32) : outOfOrder cmp record ties a padding = .ok false := if_pos rfl

theorem outOfOrderM_padding {m : Type → Type} [Monad m] (cmp : ComparatorM m) (a : UInt32) :
    outOfOrderM cmp record ties a padding = pure false := if_pos rfl

theorem recordedRun_fst (live : Nat) (slots : Array UInt32) (passes : List Pass) (turns : Nat → Turns) :
    (recordedRun cmp record ties live slots passes turns).1 =
      runPasses (outOfOrder cmp record ties) live slots passes turns := by
  rw [runPasses_eq_foldlM]
  exact Yields.foldlM (Yields.exchangeLane (recorded_outOfOrder cmp record ties)) _ slots []

theorem recordedRun_congr {rows : Nat} {slots : Array UInt32} (h : PaddedFrom rows slots) {passes : List Pass}
    {turns turns' : Nat → Turns}
    (heq : lanesOf passes slots.size rows turns = (lanesOf passes slots.size slots.size turns').filter (·.2 < rows)) :
    recordedRun cmp record ties rows slots passes turns =
      recordedRun cmp record ties slots.size slots passes turns' := by
  rw [recordedRun, recordedRun, heq, foldlM_filter_live (outOfOrderM_padding record ties (recorded cmp))
    (fun _ => bounds_of_mem_lanesOf) h]

theorem recordedRun_rows {rows : Nat} {slots : Array UInt32} (h : PaddedFrom rows slots) (passes : List Pass) :
    recordedRun cmp record ties rows slots passes = recordedRun cmp record ties slots.size slots passes :=
  recordedRun_congr cmp record ties h (lanesOf_eq_filter ..)

end

/-- Of any passes, the first ones of a sort schedule among them, and for comparators that fail as well. -/
theorem skipsDeadLanes {cmp : Comparator} {record : UInt32 → Record} {ties : UInt32 → UInt32 → Ordering} {rows : Nat}
    {slots : Array UInt32} (h : PaddedFrom rows slots) (passes : List Pass) :
    SkipsDeadLanes cmp record ties rows slots passes where
  outcome := by
    rw [← recordedRun_fst, ← recordedRun_fst, recordedRun_rows cmp record ties h]
  comparisons := congrArg Prod.snd (recordedRun_rows cmp record ties h passes)
  recording live turns := recordedRun_fst cmp record ties live slots passes turns
  lessTurns turns := by
    obtain ⟨turns', heq⟩ := exists_filter_lanesOf passes slots.size rows turns
    exact ⟨turns', recordedRun_congr cmp record ties h heq⟩
  moreTurns turns := by
    obtain ⟨turns', heq⟩ := filter_lanesOf passes slots.size rows turns
    exact ⟨turns', (recordedRun_congr cmp record ties h heq.symm).symm⟩
  padded live turns lanes hlanes := by
    apply Outcome.foldlM lanes _ h
    intro s lane hlane hs
    exact hs.exchangeLane (outOfOrder_padding cmp record ties) (bounds_of_mem_lanesOf (hlanes.subset hlane)).1

def stuckOnOneTwo : Comparator := fun a b =>
  if a.slot = 1 ∧ b.slot = 2 then .error (.comparator "no order") else .ok (compare a.slot b.slot)

theorem skipsDeadLanes_stuckOnOneTwo :
    PaddedFrom 3 #[1, 0, 2, padding] ∧
      SkipsDeadLanes stuckOnOneTwo Chunk.shuffledChunk.recordOf (fun _ _ => .eq) 3 #[1, 0, 2, padding]
        ((sortSchedule 4).take 2) ∧
      (recordedRun stuckOnOneTwo Chunk.shuffledChunk.recordOf (fun _ _ => .eq) 3 #[1, 0, 2, padding]
        ((sortSchedule 4).take 2)).2.map (fun (a, b) => (a.slot, b.slot)) = [(1, 0), (1, 2), (1, 1), (2, 2)] := by
  have h : PaddedFrom 3 #[1, 0, 2, padding] := by simp [PaddedFrom]
  exact ⟨h, skipsDeadLanes h _, by decide +kernel⟩

end ChunkSort
