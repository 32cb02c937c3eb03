import ChunkSort.Proofs.Network.Bitonic
import ChunkSort.Proofs.Network.Order

/-!
The merge network over two arrays is the merge network over their concatenation: the first pass pairs the one
with the other from the two ends, and the lanes of every later pass lie inside one of them.
-/

namespace ChunkSort

variable {α ε : Type} (exchange : α → α → Except ε Bool)

/-! ### Runs inside a larger array -/

def embedRun (f : Array α → Array α) : Except (Halted α ε) (Array α) → Except (Halted α ε) (Array α)
  | .ok s => .ok (f s)
  | .error h => .error ⟨f h.slots, h.stop⟩

theorem exchangeLane_size {slots : Array α} {lane : Nat × Nat} {s : Array α}
    (h : exchangeLane exchange slots lane = .ok s) : s.size = slots.size := by
  unfold exchangeLane at h
  split at h
  · split at h
    · cases h
      exact Array.size_swap ..
    · cases h
      rfl
    · cases h
  · cases h

theorem exchangeLane_append_left {x : Array α} (y : Array α) {lane : Nat × Nat}
    (h : lane.1 < x.size ∧ lane.2 < x.size) :
    exchangeLane exchange (x ++ y) lane = embedRun (· ++ y) (exchangeLane exchange x lane) := by
  have h' : lane.1 < (x ++ y).size ∧ lane.2 < (x ++ y).size := by
    rw [Array.size_append]
    omega
  rw [exchangeLane, exchangeLane, dif_pos h, dif_pos h', Array.getElem_append_left h.1,
    Array.getElem_append_left h.2]
  rcases exchange x[lane.1] x[lane.2] with error | _ | _
  · rfl
  · rfl
  · refine congrArg Except.ok (Array.ext' ?_)
    simp only [Array.toList_swap, Array.toList_append, Array.getElem_append_left h.1, Array.getElem_append_left h.2]
    rw [List.set_append_left _ _ h.1, List.set_append_left _ _ (by simpa using h.2)]

theorem exchangeLane_append_right (x : Array α) {y : Array α} {lane : Nat × Nat}
    (h : lane.1 < y.size ∧ lane.2 < y.size) :
    exchangeLane exchange (x ++ y) (x.size + lane.1, x.size + lane.2) =
      embedRun (x ++ ·) (exchangeLane exchange y lane) := by
  have h' : x.size + lane.1 < (x ++ y).size ∧ x.size + lane.2 < (x ++ y).size := by
    rw [Array.size_append]
    omega
  have e (i : Nat) (hi : i < y.size) (hi' : x.size + i < (x ++ y).size) : (x ++ y)[x.size + i] = y[i] := by
    rw [Array.getElem_append_right (Nat.le_add_right ..)]
    simp only [Nat.add_sub_cancel_left]
  rw [exchangeLane, exchangeLane, dif_pos h, dif_pos h', e _ h.1, e _ h.2]
  rcases exchange y[lane.1] y[lane.2] with error | _ | _
  · rfl
  · rfl
  · refine congrArg Except.ok (Array.ext' ?_)
    simp only [Array.toList_swap, Array.toList_append, e _ h.1, e _ h.2]
    rw [List.set_append_right _ _ (by simp), List.set_append_right _ _ (by simp)]
    simp

theorem foldlM_embedRun {f : Array α → Array α} {g : Nat × Nat → Nat × Nat} {n : Nat} (lanes : List (Nat × Nat))
    (step : ∀ s : Array α, s.size = n → ∀ l ∈ lanes,
      exchangeLane exchange (f s) (g l) = embedRun f (exchangeLane exchange s l))
    {s : Array α} (hs : s.size = n) :
    (lanes.map g).foldlM (exchangeLane exchange) (f s) = embedRun f (lanes.foldlM (exchangeLane exchange) s) := by
  induction lanes generalizing s with
  | nil => rfl
  | cons l ls ih =>
    rw [List.map_cons, List.foldlM_cons, List.foldlM_cons, step s hs l (List.mem_cons_self ..)]
    cases he : exchangeLane exchange s l with
    | error h => rfl
    | ok t =>
      exact ih (fun s hs l hl => step s hs l (List.mem_cons_of_mem _ hl))
        ((exchangeLane_size exchange he).trans hs)

/-! ### Lanes of a pass over both halves -/

namespace Pass

theorem lanes_full {p : Pass} (hp : 0 < p.unit) (c : Nat) :
    p.lanes (c * p.unit) (c * p.unit) = (List.range c).flatMap fun block =>
      (List.range (p.unit / 2)).map fun r => (block * p.unit + r, p.upper (block * p.unit) r) := by
  rw [lanes_eq, Nat.mul_div_cancel _ hp, List.filter_eq_self]
  intro lane hlane
  obtain ⟨block, hb, hl⟩ := List.mem_flatMap.mp hlane
  obtain ⟨r, hr, rfl⟩ := List.mem_map.mp hl
  have hu := p.upper_bounds (block * p.unit) (List.mem_range.mp hr)
  have hle := block_end_le (List.mem_range.mp hb) p.unit
  simp only [decide_eq_true_eq]
  omega

theorem upper_add (p : Pass) (a base r : Nat) : p.upper (a + base) r = a + p.upper base r := by
  unfold upper
  split <;> omega

theorem lanes_double {p : Pass} (hp : 0 < p.unit) (c : Nat) :
    p.lanes (c * p.unit + c * p.unit) (c * p.unit + c * p.unit) =
      p.lanes (c * p.unit) (c * p.unit) ++
        (p.lanes (c * p.unit) (c * p.unit)).map fun l => (c * p.unit + l.1, c * p.unit + l.2) := by
  rw [← Nat.add_mul, lanes_full hp, lanes_full hp, List.range_add, List.flatMap_append, List.map_flatMap,
    List.flatMap_map]
  congr 1
  congr 1
  funext block
  simp only [List.map_map, Nat.add_mul, upper_add]
  congr 1
  funext r
  simp only [Function.comp_apply, Nat.add_assoc]

theorem lanes_flip {n : Nat} (hn : 0 < n) :
    (Pass.mk (n + n) true).lanes (n + n) (n + n) = (List.range n).map fun i => (i, n + (n - 1 - i)) := by
  have key := lanes_full (p := ⟨n + n, true⟩) (by simp only; omega) 1
  simp only [Nat.one_mul, List.range_one, List.flatMap_cons, List.flatMap_nil, List.append_nil, Nat.zero_mul,
    Nat.zero_add, upper, if_true, show (n + n) / 2 = n by omega] at key
  rw [key]
  apply List.map_congr_left
  intro i hi
  have := List.mem_range.mp hi
  rw [show n + n - 1 - i = n + (n - 1 - i) by omega]

end Pass

/-! ### Simulation -/

/-- A run over two arrays of `n` slots ends as the one over their concatenation. -/
def SplitRun (n : Nat) : Except (Stop ε) (Array α × Array α) → Except (Halted α ε) (Array α) → Prop
  | .ok (x, y), .ok s => x.size = n ∧ y.size = n ∧ s = x ++ y
  | .error e, .error h => e = h.stop
  | _, _ => False

theorem SplitRun.unique {n : Nat} {r r' : Except (Stop ε) (Array α × Array α)} {t : Except (Halted α ε) (Array α)}
    (h : SplitRun n r t) (h' : SplitRun n r' t) : r = r' := by
  cases t with
  | error f =>
    cases r with
    | ok p => exact h.elim
    | error e =>
      cases r' with
      | ok p' => exact h'.elim
      | error e' => exact congrArg Except.error (h.trans h'.symm)
  | ok s =>
    cases r with
    | error e => exact h.elim
    | ok p =>
      cases r' with
      | error e' => exact h'.elim
      | ok p' =>
        obtain ⟨hx, _, hs⟩ := h
        obtain ⟨hx', _, hs'⟩ := h'
        have heq := congrArg Array.toList (hs.symm.trans hs')
        rw [Array.toList_append, Array.toList_append] at heq
        obtain ⟨h₁, h₂⟩ := List.append_inj heq (hx.trans hx'.symm)
        exact congrArg Except.ok (Prod.ext (Array.ext' h₁) (Array.ext' h₂))

theorem SplitRun.exists_of_ok {n : Nat} {halves : Array α × Array α} {t : Except (Halted α ε) (Array α)}
    (h : SplitRun n (.ok halves) t) : ∃ s, t = .ok s := by
  cases t with
  | error halted => exact h.elim
  | ok s => exact ⟨s, rfl⟩

theorem SplitRun.bind {n : Nat} {r : Except (Stop ε) (Array α × Array α)} {t : Except (Halted α ε) (Array α)}
    {f : Array α × Array α → Except (Stop ε) (Array α × Array α)} {g : Array α → Except (Halted α ε) (Array α)}
    (h : SplitRun n r t) (hf : ∀ x y : Array α, x.size = n → y.size = n → SplitRun n (f (x, y)) (g (x ++ y))) :
    SplitRun n (r >>= f) (t >>= g) := by
  cases r with
  | error e =>
    cases t with
    | error halted => exact h
    | ok s => exact h.elim
  | ok halves =>
    obtain ⟨x, y⟩ := halves
    cases t with
    | error halted => exact h.elim
    | ok s =>
      obtain ⟨hx, hy, rfl⟩ := h
      exact hf x y hx hy

theorem SplitRun.foldlM {β γ : Type} {n : Nat} {f : Array α × Array α → β → Except (Stop ε) (Array α × Array α)}
    {g : Array α → γ → Except (Halted α ε) (Array α)} {m : β → γ} {l : List β}
    (step : ∀ x y : Array α, x.size = n → y.size = n → ∀ b ∈ l, SplitRun n (f (x, y) b) (g (x ++ y) (m b)))
    {x y : Array α} (hx : x.size = n) (hy : y.size = n) :
    SplitRun n (l.foldlM f (x, y)) ((l.map m).foldlM g (x ++ y)) := by
  induction l generalizing x y with
  | nil => exact ⟨hx, hy, rfl⟩
  | cons b l ih =>
    rw [List.map_cons, List.foldlM_cons, List.foldlM_cons]
    exact (step x y hx hy b List.mem_cons_self).bind fun x y hx hy =>
      ih (fun x y hx hy c hc => step x y hx hy c (List.mem_cons_of_mem _ hc)) hx hy

theorem swap_append {x y : Array α} {i j : Nat} (hi : i < x.size) (hj : j < y.size)
    (hi' : i < (x ++ y).size) (hj' : x.size + j < (x ++ y).size) :
    (x ++ y).swap i (x.size + j) hi' hj' = x.set i y[j] hi ++ y.set j x[i] hj := by
  apply Array.ext'
  simp only [Array.toList_swap, Array.toList_append, Array.toList_set, Array.getElem_append_left hi]
  rw [Array.getElem_append_right (Nat.le_add_right ..), List.set_append_left _ _ (by simpa using hi),
    List.set_append_right _ _ (by simp)]
  simp

theorem exchangeAcross_split {n : Nat} {x y : Array α} (hx : x.size = n) (hy : y.size = n) {i : Nat} (hi : i < n) :
    SplitRun n (exchangeAcross exchange (x, y) i) (exchangeLane exchange (x ++ y) (i, n + (n - 1 - i))) := by
  subst hx
  have hix : i < x.size := hi
  have hjy : x.size - 1 - i < y.size := by omega
  have hxy : i < (x ++ y).size ∧ x.size + (x.size - 1 - i) < (x ++ y).size := by
    rw [Array.size_append]
    omega
  have e : (x ++ y)[x.size + (x.size - 1 - i)] = y[x.size - 1 - i] := by
    rw [Array.getElem_append_right (Nat.le_add_right ..)]
    simp only [Nat.add_sub_cancel_left]
  rw [exchangeLane, dif_pos hxy, e, Array.getElem_append_left hix]
  simp only [exchangeAcross, hy, dif_pos (show i < x.size ∧ x.size - 1 - i < x.size by omega)]
  rcases exchange x[i] y[x.size - 1 - i] with error | _ | _
  · rfl
  · exact ⟨rfl, hy, rfl⟩
  · exact ⟨Array.size_set .., (Array.size_set ..).trans hy, swap_append hix hjy hxy.1 hxy.2⟩

theorem run_size {live : Nat} {slots s : Array α} {p : Pass} {turns : Turns}
    (h : p.run exchange live slots turns = .ok s) : s.size = slots.size :=
  ((run_outcome exchange live (.refl live slots) p turns).of_ok h).size_eq

def Pass.halfLanes (p : Pass) (n : Nat) (turns turns' : Turns) : List (Nat × Nat) :=
  turns.arrange (p.lanes n n) ++ (turns'.arrange (p.lanes n n)).map fun l => (n + l.1, n + l.2)

theorem runInside_split {n : Nat} {p : Pass} {x y : Array α} (hx : x.size = n) (hy : y.size = n)
    (turns turns' : Turns) :
    SplitRun n (p.runInside exchange (x, y) turns turns')
      ((p.halfLanes n turns turns').foldlM (exchangeLane exchange) (x ++ y)) := by
  have hlt (turns : Turns) : ∀ l ∈ turns.arrange (p.lanes n n), l.1 < n ∧ l.2 < n := fun l hl => by
    have := Pass.lt_of_mem_lanes (Turns.mem_arrange.mp hl)
    omega
  have hrun {s : Array α} (hs : s.size = n) (turns : Turns) :
      p.run exchange n s turns = (turns.arrange (p.lanes n n)).foldlM (exchangeLane exchange) s := by
    rw [Pass.run, hs]
  have left := foldlM_embedRun exchange (f := (· ++ y)) (g := id) (n := n) (turns.arrange (p.lanes n n))
    (fun s hs l hl => exchangeLane_append_left exchange y (by rw [hs]; exact hlt _ l hl)) hx
  have right (x' : Array α) (hx' : x'.size = n) :=
    foldlM_embedRun exchange (f := (x' ++ ·)) (g := fun l => (n + l.1, n + l.2)) (n := n)
    (turns'.arrange (p.lanes n n)) (fun s hs l hl => by
      rw [← hx']
      exact exchangeLane_append_right exchange x' (by rw [hs]; exact hlt _ l hl)) hy
  rw [List.map_id] at left
  rw [Pass.halfLanes, List.foldlM_append, left, Pass.runInside, hx, ← hrun hx]
  cases hxr : p.run exchange n x turns with
  | error h => rfl
  | ok x' =>
    have hxs := (run_size exchange hxr).trans hx
    change SplitRun n _ (List.foldlM (exchangeLane exchange) (x' ++ y) _)
    rw [right x' hxs, ← hrun hy]
    cases hyr : p.run exchange n y turns' with
    | error h => rfl
    | ok y' => exact ⟨hxs, (run_size exchange hyr).trans hy, rfl⟩

theorem unit_dvd_of_mem_forwardPasses {k : Nat} {p : Pass} (h : p ∈ forwardPasses k) :
    0 < p.unit ∧ ∃ c, 1 <<< k = c * p.unit := by
  induction k with
  | zero => cases h
  | succ k ih =>
    rw [forwardPasses_succ] at h
    rcases List.mem_cons.mp h with rfl | h
    · have hpos := one_shiftLeft_pos k
      exact ⟨by simp only; omega, 1, by rw [one_shiftLeft_succ, Nat.one_mul]⟩
    · obtain ⟨hpos, c, hc⟩ := ih h
      exact ⟨hpos, c + c, by rw [one_shiftLeft_succ, hc, Nat.add_mul]⟩

theorem exists_turns_halfLanes {n c : Nat} {p : Pass} (hp : 0 < p.unit) (hn : n = c * p.unit) (turns turns' : Turns) :
    ∃ whole : Turns, whole.arrange (p.lanes (n + n) (n + n)) = p.halfLanes n turns turns' ∧
      (turns = [] → turns' = [] → whole = []) := by
  have hdouble := Pass.lanes_double hp c
  rw [← hn] at hdouble
  by_cases hturns : turns = [] ∧ turns' = []
  · obtain ⟨rfl, rfl⟩ := hturns
    exact ⟨[], hdouble, fun _ _ => rfl⟩
  · have hperm : (p.halfLanes n turns turns').Perm (p.lanes (n + n) (n + n)) :=
      hdouble ▸ (turns.arrange_perm _).append ((turns'.arrange_perm _).map _)
    obtain ⟨whole, hwhole⟩ := Turns.exists_arrange_eq hperm
    exact ⟨whole, hwhole, fun h h' => absurd ⟨h, h'⟩ hturns⟩

def Turns.first (turns : Turns) (rest : Nat → Turns) : Nat → Turns
  | 0 => turns
  | pass + 1 => rest pass

theorem exists_turns_runHalves {n : Nat} {passes : List Pass} (hpasses : ∀ p ∈ passes, 0 < p.unit ∧ ∃ c, n = c * p.unit)
    (turns : Nat → Turns) :
    ∃ whole : Nat → Turns, (∀ (exchange : α → α → Except ε Bool) (x y : Array α), x.size = n → y.size = n →
      SplitRun n (runHalves exchange (x, y) passes turns) (runPasses exchange (n + n) (x ++ y) passes whole)) ∧
      (turns = inTurn → whole = inTurn) := by
  induction passes generalizing turns with
  | nil => exact ⟨inTurn, fun _ _ _ hx hy => ⟨hx, hy, rfl⟩, fun _ => rfl⟩
  | cons p passes ih =>
    obtain ⟨⟨hunit, c, hc⟩, hrest⟩ := List.forall_mem_cons.mp hpasses
    obtain ⟨first, hfirst, hin⟩ := exists_turns_halfLanes hunit hc (turns 0) (turns 1)
    obtain ⟨rest, hsplit, hin'⟩ := ih hrest fun run => turns (run + 2)
    refine ⟨first.first rest, fun exchange x y hx hy => ?_, ?_⟩
    · have hstep := runInside_split exchange (p := p) hx hy (turns 0) (turns 1)
      have hrun : p.run exchange (n + n) (x ++ y) first =
          (first.arrange (p.lanes (n + n) (n + n))).foldlM (exchangeLane exchange) (x ++ y) := by
        rw [Pass.run, Array.size_append, hx, hy]
      rw [← hfirst, ← hrun] at hstep
      exact hstep.bind fun x y hx hy => hsplit exchange x y hx hy
    · rintro rfl
      rw [hin rfl rfl, hin' rfl]
      funext pass
      cases pass <;> rfl

theorem SplitRun.map_append {n : Nat} {r : Except (Stop ε) (Array α × Array α)} {t : Except (Halted α ε) (Array α)}
    (h : SplitRun n r t) : r.map (fun halves => halves.1 ++ halves.2) = t.mapError Halted.stop := by
  cases r with
  | error e =>
    cases t with
    | error halted => exact congrArg Except.error h
    | ok s => exact h.elim
  | ok halves =>
    cases t with
    | error halted => exact h.elim
    | ok s => exact congrArg Except.ok h.2.2.symm

theorem SplitRun.size_eq {n : Nat} {t : Except (Halted α ε) (Array α)} {x y : Array α}
    (h : SplitRun n (.ok (x, y)) t) : x.size = n ∧ y.size = n := by
  cases t with
  | error halted => exact h.elim
  | ok s => exact ⟨h.1, h.2.1⟩

theorem exists_turns_mergeNetwork {k : Nat} (turns : Nat → Turns) :
    ∃ whole : Nat → Turns, (∀ (exchange : α → α → Except ε Bool) (x y : Array α), x.size = 1 <<< k → y.size = 1 <<< k →
      SplitRun (1 <<< k) (mergeNetwork exchange x y turns)
        (runPasses exchange (2 * 1 <<< k) (x ++ y) (mergeSchedule (2 * 1 <<< k)) whole)) ∧
      (turns = inTurn → whole = inTurn) := by
  have hpos := one_shiftLeft_pos k
  -- The first pass pairs the arrays with each other, every later one stays inside of them.
  obtain ⟨rest, hrest, hin⟩ := exists_turns_runHalves (α := α) (ε := ε) (fun p => unit_dvd_of_mem_forwardPasses (k := k) (p := p))
    fun run => turns (run + 1)
  refine ⟨(turns 0).first rest, fun exchange x y hx hy => ?_, ?_⟩
  · rw [mergeNetwork, hx, mergeSchedule_eq, Nat.two_mul, stagePasses, List.tail_cons, runPasses]
    have across := SplitRun.foldlM (f := exchangeAcross exchange) (g := exchangeLane exchange)
      (l := (turns 0).arrange (List.range (1 <<< k)))
      (fun x y hx hy i hi => exchangeAcross_split exchange hx hy (List.mem_range.mp (Turns.mem_arrange.mp hi))) hx hy
    rw [← Turns.arrange_map, ← Pass.lanes_flip hpos] at across
    have hrun : Pass.run exchange (1 <<< k + 1 <<< k) (x ++ y) ⟨1 <<< k + 1 <<< k, true⟩ (turns 0) =
        ((turns 0).arrange ((Pass.mk (1 <<< k + 1 <<< k) true).lanes (1 <<< k + 1 <<< k) (1 <<< k + 1 <<< k))).foldlM
          (exchangeLane exchange) (x ++ y) := by
      rw [Pass.run, Array.size_append, hx, hy]
    rw [← hrun] at across
    exact across.bind fun x y hx hy => hrest exchange x y hx hy
  · rintro rfl
    rw [hin rfl]
    funext pass
    cases pass <;> rfl

theorem mergeNetwork_split {k : Nat} {x y : Array α} (hx : x.size = 1 <<< k) (hy : y.size = 1 <<< k) :
    SplitRun (1 <<< k) (mergeNetwork exchange x y)
      (runPasses exchange (2 * 1 <<< k) (x ++ y) (mergeSchedule (2 * 1 <<< k))) := by
  obtain ⟨whole, hsplit, hin⟩ := exists_turns_mergeNetwork (α := α) (ε := ε) (k := k) inTurn
  rw [hin rfl] at hsplit
  exact hsplit exchange x y hx hy

theorem mergeNetwork_eq_ok_iff {k : Nat} {x y : Array α} (hx : x.size = 1 <<< k) (hy : y.size = 1 <<< k)
    {turns : Nat → Turns} {halves : Array α × Array α} :
    mergeNetwork exchange x y turns = .ok halves ↔ mergeNetwork exchange x y = .ok halves := by
  obtain ⟨whole, hsplit, -⟩ := exists_turns_mergeNetwork (α := α) (ε := ε) (k := k) turns
  have hturns := hsplit exchange x y hx hy
  have hinTurn := mergeNetwork_split exchange hx hy
  constructor
  · intro h
    obtain ⟨s, hs⟩ := (h ▸ hturns).exists_of_ok
    rw [runPasses_eq_ok_iff.mp hs] at hinTurn
    rw [hs] at hturns
    exact (hinTurn.unique hturns).trans h
  · intro h
    obtain ⟨s, hs⟩ := (h ▸ hinTurn).exists_of_ok
    rw [runPasses_eq_ok_iff.mpr hs] at hturns
    rw [hs] at hinTurn
    exact (hturns.unique hinTurn).trans h

theorem mergeNetwork_congr {exchange' : α → α → Except ε Bool} {k : Nat} {x y : Array α} (hx : x.size = 1 <<< k)
    (hy : y.size = 1 <<< k)
    (agree : ∀ a ∈ x.toList ++ y.toList, ∀ b ∈ x.toList ++ y.toList, exchange a b = exchange' a b)
    (turns : Nat → Turns) : mergeNetwork exchange x y turns = mergeNetwork exchange' x y turns := by
  obtain ⟨whole, hsplit, -⟩ := exists_turns_mergeNetwork (α := α) (ε := ε) (k := k) turns
  have hlive : ∀ e ∈ liveEntries (x ++ y) (2 * 1 <<< k), e ∈ x.toList ++ y.toList := by
    intro e he
    rw [← Array.toList_append]
    exact List.mem_of_mem_take he
  have hleft := hsplit exchange x y hx hy
  rw [runPasses_congr fun a ha b hb => agree a (hlive a ha) b (hlive b hb)] at hleft
  exact hleft.unique (hsplit exchange' x y hx hy)

/-- Two arrays are merged as their concatenation is: the network over it succeeds with what they end as, or fails for
the same reason. -/
theorem mergeNetwork_eq_whole {half : Nat} (hhalf : half.isPowerOfTwo) {x y : Array α} (hx : x.size = half)
    (hy : y.size = half) :
    (mergeNetwork exchange x y).map (fun halves => halves.1 ++ halves.2) =
        (runPasses exchange (2 * half) (x ++ y) (mergeSchedule (2 * half))).mapError Halted.stop ∧
      ∀ x' y', mergeNetwork exchange x y = .ok (x', y') → x'.size = half ∧ y'.size = half := by
  obtain ⟨k, rfl⟩ := hhalf
  rw [← Nat.one_shiftLeft] at hx hy ⊢
  have hsplit := mergeNetwork_split exchange hx hy
  refine ⟨hsplit.map_append, fun x' y' hmerged => ?_⟩
  rw [hmerged] at hsplit
  exact hsplit.size_eq

def exceptThreeFour (a b : Nat) : Except (Nat × Nat) Bool :=
  if a + b = 7 then .error (a, b) else .ok (b < a)

theorem mergeNetwork_eq_whole_fault :
    (2 : Nat).isPowerOfTwo ∧
      (mergeNetwork exceptThreeFour #[1, 4] #[2, 3]).map (fun halves => halves.1 ++ halves.2) = .error (.failed (4, 3)) ∧
      (mergeNetwork exceptThreeFour #[1, 5] #[3, 4]).map (fun halves => halves.1 ++ halves.2) = .ok #[1, 3, 4, 5] := by
  have hpower : (2 : Nat).isPowerOfTwo := ⟨1, rfl⟩
  have hschedule : mergeSchedule (2 * 2) = stagePasses 1 := mergeSchedule_eq 1
  refine ⟨hpower, ?_, ?_⟩
  · rw [(mergeNetwork_eq_whole exceptThreeFour hpower (x := #[1, 4]) (y := #[2, 3]) rfl rfl).1, hschedule]
    rfl
  · rw [(mergeNetwork_eq_whole exceptThreeFour hpower (x := #[1, 5]) (y := #[3, 4]) rfl rfl).1, hschedule]
    rfl

end ChunkSort
