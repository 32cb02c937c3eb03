import ChunkSort.Proofs.Chunk.MergeOrder
import ChunkSort.Proofs.Network.Recorded

/-!
The comparisons of a sort or a merge. Whatever the comparator answers and whatever is done first, it is asked about
rows only, also where a failed comparison is charged to one of two records.
-/

namespace ChunkSort

abbrev Calls := List (Record × Record)

def Calls.Within (live : Record → Prop) (calls : Calls) : Prop := ∀ call ∈ calls, live call.1 ∧ live call.2

/-! ### Operations over a comparator whose calls have an effect -/

section Effects

variable {m : Type → Type} [Monad m]

def Chunk.sortM (c : Chunk) (cmp : ComparatorM m) (schedule : Schedule) : m (Attempt Chunk Unit) := do
  let exchange := outOfOrderM cmp c.recordOf fun _ _ => .eq
  return c.afterRun (← (runPassesM exchange c.rows c.index (sortSchedule c.index.size) schedule.lanes).run)

namespace MergeSet

def networkM (s : MergeSet) (cmp : ComparatorM m) (schedule : Schedule) :
    ExceptT (Stop EntryFault) m (Array UInt32 × Array UInt32) :=
  if s.x.isEmpty || s.y.isEmpty then return (s.leftSlots, s.rightSlots)
  else mergeNetworkM (outOfOrderM cmp s.recordOf s.ties) s.leftSlots s.rightSlots schedule.lanes

def mergeM (s : MergeSet) (cmp : ComparatorM m) (schedule : Schedule) : m (Attempt MergeSet Unit) :=
  match s.layoutViolation? with
  | some violation => return ⟨s, .error (.contractViolation violation)⟩
  | none => do
    let slots ← (s.networkM cmp schedule).run
    return s.afterOrder schedule (slots.map fun p => (p.1.toList ++ p.2.toList).filter (· ≠ padding))

end MergeSet
end Effects

/-! ### Computations that compare records of one kind only -/

/-- Comparisons are made between records of `live`. An answer satisfies `Q`. -/
def Asks {ε α : Type} (live : Record → Prop) (x : ExceptT ε (StateM Calls) α) (Q : α → Prop) : Prop :=
  ∀ calls, Calls.Within live calls → Calls.Within live (x.run.run calls).2 ∧ ∀ a, (x.run.run calls).1 = .ok a → Q a

namespace Asks

variable {ε ε' α β : Type} {live : Record → Prop} {x : ExceptT ε (StateM Calls) α} {Q : α → Prop}

theorem pure {a : α} (h : Q a) : Asks live (Pure.pure a : ExceptT ε (StateM Calls) α) Q :=
  fun _ hcalls => ⟨hcalls, fun _ he => Except.ok.inj he ▸ h⟩

theorem throw (e : ε) : Asks live (throw e : ExceptT ε (StateM Calls) α) Q := fun _ hcalls => ⟨hcalls, nofun⟩

theorem lift {x : StateM Calls α} (hx : ∀ calls, Calls.Within live calls → Calls.Within live (x.run calls).2) :
    Asks live (liftM x : ExceptT ε (StateM Calls) α) fun _ => True := fun calls hcalls => ⟨hx calls hcalls, fun _ _ => trivial⟩

theorem bind {f : α → ExceptT ε (StateM Calls) β} {R : β → Prop} (hx : Asks live x Q) (hf : ∀ a, Q a → Asks live (f a) R) :
    Asks live (x >>= f) R := by
  intro calls hcalls
  obtain ⟨hafter, hanswer⟩ := hx calls hcalls
  rw [ExceptT.run_bind, StateT.run_bind]
  generalize x.run.run calls = p at hafter hanswer ⊢
  obtain ⟨result, after⟩ := p
  cases result with
  | ok a => exact hf a (hanswer a rfl) after hafter
  | error e => exact ⟨hafter, nofun⟩

theorem adapt (hx : Asks live x Q) (f : ε → ε') : Asks live (x.adapt f) Q := by
  intro calls hcalls
  obtain ⟨hafter, hanswer⟩ := hx calls hcalls
  rw [ExceptT.run_adapt, StateT.run_map]
  refine ⟨hafter, fun a ha => hanswer a ?_⟩
  exact mapError_eq_ok.mp ha

theorem mono {Q' : α → Prop} (hx : Asks live x Q) (h : ∀ a, Q a → Q' a) : Asks live x Q' :=
  fun calls hcalls => ⟨(hx calls hcalls).1, fun a ha => h a ((hx calls hcalls).2 a ha)⟩

theorem foldlM {I : α → Prop} {f : α → β → ExceptT ε (StateM Calls) α} (hf : ∀ a b, I a → Asks live (f a b) I)
    (l : List β) {a : α} (ha : I a) : Asks live (l.foldlM f a) I := by
  induction l generalizing a with
  | nil => exact pure ha
  | cons b l ih => exact (hf a b ha).bind fun _ => ih

end Asks

theorem recorded_within (cmp : Comparator) {live : Record → Prop} {a b : Record} (ha : live a) (hb : live b) {calls : Calls}
    (h : calls.Within live) : Calls.Within live ((recorded cmp a b).run calls).2 := by
  show Calls.Within live (calls ++ [(a, b)])
  unfold Calls.Within
  rw [List.forall_mem_append, List.forall_mem_singleton]
  exact ⟨h, ha, hb⟩

theorem chargesRight_within (cmp : Comparator) {live : Record → Prop} {a b : Record} (ha : live a) (hb : live b)
    {calls : Calls} (h : calls.Within live) :
    Calls.Within live (((recorded cmp).chargesRight a b).run calls).2 := by
  -- The left record is tried first, the right one only if that went well.
  have hleft := recorded_within cmp ha ha h
  show Calls.Within live (StateT.run (if (cmp a a).isOk then _ else _ : StateM Calls Bool) _).2
  cases (cmp a a).isOk with
  | true => exact recorded_within cmp hb hb hleft
  | false => exact hleft

theorem outOfOrder_asks (cmp : Comparator) {live : Record → Prop} {record : UInt32 → Record}
    (ties : UInt32 → UInt32 → Ordering) {a b : UInt32} (ha : a ≠ padding → live (record a))
    (hb : b ≠ padding → live (record b)) :
    Asks live (outOfOrderM (recorded cmp) record ties a b) fun _ => True := by
  unfold outOfOrderM
  split
  next => exact .pure trivial
  next hbp =>
    split
    next => exact .pure trivial
    next hap =>
      have hcompare : Asks live (liftM (recorded cmp (record a) (record b)) : ExceptT EntryFault _ _) fun _ => True :=
        .lift fun _ => recorded_within cmp (ha hap) (hb hbp)
      apply hcompare.bind
      rintro (cause | o) -
      · exact (Asks.lift fun _ => chargesRight_within cmp (ha hap) (hb hbp)).bind fun _ _ => .throw _
      · exact .pure trivial

/-! ### Runs -/

section Runs

variable {α ε : Type} {live : Record → Prop} {S : α → Prop} {exchange : α → α → ExceptT ε (StateM Calls) Bool}
  (h : ∀ a b, S a → S b → Asks live (exchange a b) fun _ => True)
include h

theorem exchangeLane_asks {slots : Array α} (hslots : ∀ a ∈ slots, S a) (lane : Nat × Nat) :
    Asks live (exchangeLaneM exchange slots lane) fun slots => ∀ a ∈ slots, S a := by
  unfold exchangeLaneM
  split
  next hlower =>
    split
    next hupper =>
      refine ((h _ _ (hslots _ (Array.getElem_mem hlower)) (hslots _ (Array.getElem_mem hupper))).adapt _).bind ?_
      intro swap _
      refine .pure ?_
      split
      next =>
        intro a ha
        exact hslots a ((Array.swap_perm hlower hupper).mem_iff.mp ha)
      next => exact hslots
    next => exact .throw _
  next => exact .throw _

theorem run_asks {slots : Array α} (hslots : ∀ a ∈ slots, S a) (p : Pass) (bound : Nat) (turns : Turns) :
    Asks live (p.runM exchange bound slots turns) fun slots => ∀ a ∈ slots, S a :=
  .foldlM (fun _ lane hslots => exchangeLane_asks h hslots lane) _ hslots

theorem runPasses_asks {slots : Array α} (hslots : ∀ a ∈ slots, S a) (passes : List Pass) (bound : Nat)
    (turns : Nat → Turns) : Asks live (runPassesM exchange bound slots passes turns) fun slots => ∀ a ∈ slots, S a := by
  induction passes generalizing slots turns with
  | nil => exact .pure hslots
  | cons p passes ih => exact (run_asks h hslots p bound _).bind fun _ hslots => ih hslots _

def Both (S : α → Prop) (halves : Array α × Array α) : Prop := (∀ a ∈ halves.1, S a) ∧ ∀ a ∈ halves.2, S a

theorem exchangeAcross_asks {halves : Array α × Array α} (hhalves : Both S halves) (i : Nat) :
    Asks live (exchangeAcrossM exchange halves i) (Both S) := by
  obtain ⟨x, y⟩ := halves
  obtain ⟨hx, hy⟩ := hhalves
  unfold exchangeAcrossM
  dsimp only
  split
  next hi =>
    split
    next hj =>
      have hxi := hx _ (Array.getElem_mem hi)
      have hyj := hy _ (Array.getElem_mem hj)
      refine ((h _ _ hxi hyj).adapt _).bind fun swap _ => .pure ?_
      split
      next =>
        constructor
        · intro a ha
          rcases Array.mem_or_eq_of_mem_set (w := hi) ha with hmem | rfl
          · exact hx a hmem
          · exact hyj
        · intro a ha
          rcases Array.mem_or_eq_of_mem_set (w := hj) ha with hmem | rfl
          · exact hy a hmem
          · exact hxi
      next => exact ⟨hx, hy⟩
    next => exact .throw _
  next => exact .throw _

theorem runHalves_asks {halves : Array α × Array α} (hhalves : Both S halves) (passes : List Pass) (turns : Nat → Turns) :
    Asks live (runHalvesM exchange halves passes turns) (Both S) := by
  induction passes generalizing halves turns with
  | nil => exact .pure hhalves
  | cons p passes ih =>
    refine ((run_asks h hhalves.1 p _ _).adapt _).bind fun x hx => ?_
    exact ((run_asks h hhalves.2 p _ _).adapt _).bind fun y hy => ih ⟨hx, hy⟩ _

theorem mergeNetwork_asks {x y : Array α} (hx : ∀ a ∈ x, S a) (hy : ∀ a ∈ y, S a) (turns : Nat → Turns) :
    Asks live (mergeNetworkM exchange x y turns) (Both S) :=
  (Asks.foldlM (fun _ i hhalves => exchangeAcross_asks h hhalves i) _ ⟨hx, hy⟩).bind fun _ hacross =>
    runHalves_asks h hacross _ _

end Runs

/-! ### Sorts -/

namespace Chunk

def sortCalls (c : Chunk) (cmp : Comparator) (schedule : Schedule) : Calls := ((c.sortM (recorded cmp) schedule).run []).2

theorem sortM_recorded (c : Chunk) (cmp : Comparator) (schedule : Schedule) :
    ((c.sortM (recorded cmp) schedule).run []).1 = c.sort cmp schedule := by
  have hrun := Yields.runPasses (recorded_outOfOrder cmp c.recordOf fun _ _ => .eq) c.rows c.index
    (sortSchedule c.index.size) schedule.lanes []
  rw [sort, ← hrun]
  rfl

theorem Indexed.sortCalls_within {c : Chunk} (hc : c.Indexed) (cmp : Comparator) (schedule : Schedule) :
    (c.sortCalls cmp schedule).Within c.Live := by
  have hslots : ∀ e ∈ c.index, e ≠ padding → c.Live (c.recordOf e) := by
    intro e he hpad
    rw [← Array.mem_toList_iff, ← List.take_append_drop c.rows c.index.toList, List.mem_append] at he
    exact hc.live_recordOf (he.resolve_right fun hdrop => hpad (hc.index_padding e hdrop))
  exact (runPasses_asks (fun _ _ ha hb => outOfOrder_asks cmp _ ha hb) hslots _ _ _ [] nofun).1

end Chunk

/-! ### Merges -/

namespace MergeSet

def mergeCalls (s : MergeSet) (cmp : Comparator) (schedule : Schedule) : Calls := ((s.mergeM (recorded cmp) schedule).run []).2

theorem mergeM_recorded (s : MergeSet) (cmp : Comparator) (schedule : Schedule) :
    ((s.mergeM (recorded cmp) schedule).run []).1 = s.merge cmp schedule := by
  have hnetwork : Yields (s.networkM (recorded cmp) schedule) (s.network cmp schedule) := by
    unfold networkM network
    split
    next => exact .pure _
    next => exact .mergeNetwork (recorded_outOfOrder cmp s.recordOf s.ties) _ _ _
  unfold mergeM merge
  cases s.layoutViolation? with
  | some v => rfl
  | none =>
    rw [order_eq, ← hnetwork []]
    rfl

theorem WellFormed.mergeCalls_within {s : MergeSet} (h : s.WellFormed) (cmp : Comparator) (schedule : Schedule) :
    (s.mergeCalls cmp schedule).Within s.Live := by
  have hslots : ∀ e ∈ s.leftSlots.toList ++ s.rightSlots.toList, e ≠ padding → s.Live (s.recordOf e) :=
    fun e he hpad => h.live_recordOf ((h.mem_slots he).resolve_left hpad)
  rw [List.forall_mem_append] at hslots
  simp only [Array.mem_toList_iff] at hslots
  have hnetwork : Asks s.Live (s.networkM (recorded cmp) schedule) fun _ => True := by
    unfold networkM
    split
    next => exact .pure trivial
    next =>
      refine (mergeNetwork_asks (fun _ _ ha hb => outOfOrder_asks cmp _ ha hb) hslots.1 hslots.2 _).mono ?_
      exact fun _ _ => trivial
  unfold mergeCalls mergeM
  cases s.layoutViolation? with
  | some v => exact nofun
  | none => exact (hnetwork [] nofun).1

end MergeSet
end ChunkSort
