import ChunkSort.Chunk.Merge
import ChunkSort.Proofs.Outcome

/-!
Comparisons written down. To speak of the comparisons of an operation, its network is run once more over a comparator
whose calls have an effect, such as being written down. Such a run comes to the same end as the plain one.
-/

namespace ChunkSort

/-- A comparator whose calls have an effect. -/
abbrev ComparatorM (m : Type → Type) := Record → Record → m (Except DataError Ordering)

section Effects

variable {m : Type → Type} [Monad m] {α ε : Type}

def ComparatorM.chargesRight (cmp : ComparatorM m) (a b : Record) : m Bool := do
  if (← cmp a a).isOk then
    return !(← cmp b b).isOk
  else
    return false

def outOfOrderM (cmp : ComparatorM m) (record : UInt32 → Record) (ties : UInt32 → UInt32 → Ordering)
    (a b : UInt32) : ExceptT EntryFault m Bool :=
  if b = padding then
    return false
  else if a = padding then
    return true
  else do
    match ← cmp (record a) (record b) with
    | .ok o => return o.then (ties a b) == .gt
    | .error cause => throw ⟨if ← cmp.chargesRight (record a) (record b) then b else a, cause⟩

def exchangeLaneM (exchange : α → α → ExceptT ε m Bool) (slots : Array α) (lane : Nat × Nat) :
    ExceptT (Halted α ε) m (Array α) :=
  if hlower : lane.1 < slots.size then
    if hupper : lane.2 < slots.size then do
      let swap ← (exchange slots[lane.1] slots[lane.2]).adapt fun error => Halted.mk slots (.failed error)
      return if swap then slots.swap lane.1 lane.2 hlower hupper else slots
    else
      throw ⟨slots, .outOfBounds (max lane.1 lane.2)⟩
  else
    throw ⟨slots, .outOfBounds (max lane.1 lane.2)⟩

theorem exchangeLaneM_inside (exchange : α → α → ExceptT ε m Bool) {slots : Array α} {lane : Nat × Nat}
    (hlower : lane.1 < slots.size) (hupper : lane.2 < slots.size) :
    exchangeLaneM exchange slots lane =
      (exchange slots[lane.1] slots[lane.2]).adapt (fun error => Halted.mk slots (.failed error)) >>= fun swap =>
        pure (if swap then slots.swap lane.1 lane.2 hlower hupper else slots) := by
  rw [exchangeLaneM, dif_pos hlower, dif_pos hupper]

def Pass.runM (exchange : α → α → ExceptT ε m Bool) (live : Nat) (slots : Array α) (p : Pass) (turns : Turns) :
    ExceptT (Halted α ε) m (Array α) :=
  (turns.arrange (p.lanes slots.size live)).foldlM (exchangeLaneM exchange) slots

def runPassesM (exchange : α → α → ExceptT ε m Bool) (live : Nat) (slots : Array α) (passes : List Pass)
    (turns : Nat → Turns) : ExceptT (Halted α ε) m (Array α) :=
  match passes with
  | [] => return slots
  | p :: passes => do
    let slots ← p.runM exchange live slots (turns 0)
    runPassesM exchange live slots passes fun pass => turns (pass + 1)

def exchangeAcrossM (exchange : α → α → ExceptT ε m Bool) (halves : Array α × Array α) (i : Nat) :
    ExceptT (Stop ε) m (Array α × Array α) :=
  let (x, y) := halves
  let j := y.size - 1 - i
  if hx : i < x.size then
    if hy : j < y.size then do
      let swap ← (exchange x[i] y[j]).adapt Stop.failed
      return if swap then (x.set i y[j] hx, y.set j x[i] hy) else (x, y)
    else
      throw (.outOfBounds (max i j))
  else
    throw (.outOfBounds (max i j))

def runHalvesM (exchange : α → α → ExceptT ε m Bool) (halves : Array α × Array α) (passes : List Pass)
    (turns : Nat → Turns) : ExceptT (Stop ε) m (Array α × Array α) :=
  match passes with
  | [] => return halves
  | p :: passes => do
    let x ← (p.runM exchange halves.1.size halves.1 (turns 0)).adapt Halted.stop
    let y ← (p.runM exchange halves.1.size halves.2 (turns 1)).adapt Halted.stop
    runHalvesM exchange (x, y) passes fun run => turns (run + 2)

def mergeNetworkM (exchange : α → α → ExceptT ε m Bool) (x y : Array α) (turns : Nat → Turns) :
    ExceptT (Stop ε) m (Array α × Array α) := do
  let across ← ((turns 0).arrange (List.range x.size)).foldlM (exchangeAcrossM exchange) (x, y)
  runHalvesM exchange across (mergeSchedule (2 * x.size)).tail fun run => turns (run + 1)

end Effects

def recorded (cmp : Comparator) : ComparatorM (StateM (List (Record × Record))) := fun a b => do
  modify (· ++ [(a, b)])
  return cmp a b

/-- A computation with a state that answers `r`, whatever the state is. -/
def Yields {σ ε α : Type} (x : ExceptT ε (StateM σ) α) (r : Except ε α) : Prop := ∀ s, (x.run.run s).1 = r

namespace Yields

variable {σ ε ε' α β : Type} {x : ExceptT ε (StateM σ) α} {r : Except ε α}

theorem pure (a : α) : Yields (Pure.pure a : ExceptT ε (StateM σ) α) (.ok a) := fun _ => rfl

theorem throw (e : ε) : Yields (throw e : ExceptT ε (StateM σ) α) (.error e) := fun _ => rfl

theorem lift {x : StateM σ α} {a : α} (hx : ∀ s, (x.run s).1 = a) :
    Yields (liftM x : ExceptT ε (StateM σ) α) (.ok a) := fun s => congrArg Except.ok (hx s)

theorem bind {f : α → ExceptT ε (StateM σ) β} {g : α → Except ε β} (hx : Yields x r)
    (hf : ∀ a, Yields (f a) (g a)) : Yields (x >>= f) (r >>= g) := by
  intro s
  have key := hx s
  rw [ExceptT.run_bind, StateT.run_bind]
  generalize x.run.run s = p at key ⊢
  obtain ⟨result, s'⟩ := p
  cases key
  cases result with
  | ok a => exact hf a s'
  | error e => rfl

theorem adapt (hx : Yields x r) (f : ε → ε') : Yields (x.adapt f) (r.mapError f) := by
  intro s
  rw [ExceptT.run_adapt, StateT.run_map]
  show Except.mapError f (x.run.run s).1 = _
  rw [hx s]

theorem foldlM {f : α → β → ExceptT ε (StateM σ) α} {g : α → β → Except ε α} (hf : ∀ a b, Yields (f a b) (g a b))
    (l : List β) (a : α) : Yields (l.foldlM f a) (l.foldlM g a) := by
  induction l generalizing a with
  | nil => exact pure a
  | cons b l ih => exact (hf a b).bind ih

end Yields

theorem recorded_chargesRight (cmp : Comparator) (a b : Record) (s : List (Record × Record)) :
    (((recorded cmp).chargesRight a b).run s).1 = cmp.chargesRight a b := by
  show (StateT.run (if (cmp a a).isOk then _ else _ : StateM _ Bool) _).1 = _
  unfold Comparator.chargesRight
  cases (cmp a a).isOk with
  | true => rfl
  | false => rfl

theorem recorded_outOfOrder (cmp : Comparator) (record : UInt32 → Record) (ties : UInt32 → UInt32 → Ordering)
    (a b : UInt32) : Yields (outOfOrderM (recorded cmp) record ties a b) (outOfOrder cmp record ties a b) := by
  have hcompare : Yields (liftM (recorded cmp (record a) (record b)) : ExceptT EntryFault _ _)
      (.ok (cmp (record a) (record b))) := .lift fun _ => rfl
  unfold outOfOrderM outOfOrder
  split
  next => exact .pure false
  next =>
    split
    next => exact .pure true
    next =>
      show Yields _ (Except.ok (cmp (record a) (record b)) >>= fun answer => match answer with
        | .ok o => .ok (o.then (ties a b) == .gt)
        | .error cause => .error (EntryFault.mk (if cmp.chargesRight (record a) (record b) then b else a) cause))
      apply hcompare.bind
      intro answer
      cases answer with
      | ok o => exact .pure _
      | error cause =>
        exact (Yields.lift (recorded_chargesRight cmp (record a) (record b))).bind
          (g := fun right => .error (EntryFault.mk (if right then b else a) cause)) fun right => .throw _

/-! ### Runs -/

namespace Yields

variable {σ α ε : Type} {exchange : α → α → ExceptT ε (StateM σ) Bool} {exchange' : α → α → Except ε Bool}
  (h : ∀ a b, Yields (exchange a b) (exchange' a b))
include h

theorem exchangeLane (slots : Array α) (lane : Nat × Nat) :
    Yields (exchangeLaneM exchange slots lane) (ChunkSort.exchangeLane exchange' slots lane) := by
  by_cases hin : lane.1 < slots.size ∧ lane.2 < slots.size
  · have hrun : ChunkSort.exchangeLane exchange' slots lane =
        (exchange' slots[lane.1] slots[lane.2]).mapError (fun error => Halted.mk slots (.failed error)) >>= fun swap =>
          .ok (if swap then slots.swap lane.1 lane.2 hin.1 hin.2 else slots) := by
      rw [ChunkSort.exchangeLane, dif_pos hin]
      rcases exchange' slots[lane.1] slots[lane.2] with error | _ | _ <;> rfl
    rw [exchangeLaneM_inside exchange hin.1 hin.2, hrun]
    exact ((h _ _).adapt _).bind fun _ => .pure _
  · rw [ChunkSort.exchangeLane, dif_neg hin]
    unfold exchangeLaneM
    split
    next hlower =>
      rw [dif_neg fun hupper => hin ⟨hlower, hupper⟩]
      exact .throw _
    next => exact .throw _

theorem run (live : Nat) (slots : Array α) (p : Pass) (turns : Turns) :
    Yields (p.runM exchange live slots turns) (p.run exchange' live slots turns) :=
  Yields.foldlM (exchangeLane h) _ slots

theorem runPasses (live : Nat) (slots : Array α) (passes : List Pass) (turns : Nat → Turns) :
    Yields (runPassesM exchange live slots passes turns) (ChunkSort.runPasses exchange' live slots passes turns) := by
  induction passes generalizing slots turns with
  | nil => exact pure slots
  | cons p passes ih => exact (run h live slots p (turns 0)).bind fun slots => ih slots _

theorem exchangeAcross (halves : Array α × Array α) (i : Nat) :
    Yields (exchangeAcrossM exchange halves i) (ChunkSort.exchangeAcross exchange' halves i) := by
  obtain ⟨x, y⟩ := halves
  by_cases hin : i < x.size ∧ y.size - 1 - i < y.size
  · have hrun : ChunkSort.exchangeAcross exchange' (x, y) i =
        (exchange' x[i] y[y.size - 1 - i]).mapError Stop.failed >>= fun swap =>
          .ok (if swap then (x.set i y[y.size - 1 - i] hin.1, y.set (y.size - 1 - i) x[i] hin.2) else (x, y)) := by
      simp only [ChunkSort.exchangeAcross, dif_pos hin]
      rcases exchange' x[i] y[y.size - 1 - i] with error | _ | _ <;> rfl
    rw [hrun]
    simp only [exchangeAcrossM, dif_pos hin.1, dif_pos hin.2]
    exact ((h _ _).adapt _).bind fun _ => .pure _
  · simp only [exchangeAcrossM, ChunkSort.exchangeAcross, dif_neg hin]
    split
    next hx =>
      rw [dif_neg fun hy => hin ⟨hx, hy⟩]
      exact .throw _
    next => exact .throw _

theorem runHalves (halves : Array α × Array α) (passes : List Pass) (turns : Nat → Turns) :
    Yields (runHalvesM exchange halves passes turns) (ChunkSort.runHalves exchange' halves passes turns) := by
  induction passes generalizing halves turns with
  | nil => exact pure halves
  | cons p passes ih =>
    rw [runHalvesM, ChunkSort.runHalves, Pass.runInside, bind_assoc]
    refine ((run h _ _ p (turns 0)).adapt Halted.stop).bind fun x => ?_
    rw [bind_assoc]
    exact ((run h _ _ p (turns 1)).adapt Halted.stop).bind fun y => ih (x, y) _

theorem mergeNetwork (x y : Array α) (turns : Nat → Turns) :
    Yields (mergeNetworkM exchange x y turns) (ChunkSort.mergeNetwork exchange' x y turns) :=
  (Yields.foldlM (exchangeAcross h) _ (x, y)).bind fun across => runHalves h across _ _

end Yields
end ChunkSort
