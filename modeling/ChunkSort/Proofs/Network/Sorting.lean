import ChunkSort.Proofs.Network.Bitonic
import ChunkSort.Proofs.Network.Order

/-!
Runs of a network over entries that the exchange puts in a total preorder. A threshold turns the slots into
bits, slots that are not live count as ones, and the run acts on the bits as the network does.
-/

namespace ChunkSort

variable {α ε : Type}

/-- On the entries in `S` the exchange never fails, and asks for an exchange exactly when its entries are out of
order. -/
structure Decides (exchange : α → α → Except ε Bool) (S : α → Prop) (le : α → α → Prop) : Prop where
  keep : ∀ {a b}, S a → S b → le a b → exchange a b = .ok false
  swap : ∀ {a b}, S a → S b → ¬le a b → exchange a b = .ok true
  total : ∀ {a b}, S a → S b → le a b ∨ le b a
  trans : ∀ {a b c}, S a → S b → S c → le a b → le b c → le a c

def UpClosed (S : α → Prop) (le : α → α → Prop) (P : α → Bool) : Prop :=
  ∀ {a b}, S a → S b → le a b → P a = true → P b = true

def bits (P : α → Bool) (live : Nat) (slots : Array α) (k : Nat) : Bool :=
  if k < live then slots[k]?.any P else true

theorem bits_of_lt {P : α → Bool} {live k : Nat} {slots : Array α} (hl : k < live) (hk : k < slots.size) :
    bits P live slots k = P slots[k] := by
  rw [bits, if_pos hl, Array.getElem?_eq_getElem hk, Option.any_some]

theorem bits_swap (P : α → Bool) {live i j : Nat} {slots : Array α} (hi : i < slots.size) (hj : j < slots.size)
    (hil : i < live) (hjl : j < live) (k : Nat) :
    bits P live (slots.swap i j hi hj) k =
      if k = i then bits P live slots j else if k = j then bits P live slots i else bits P live slots k := by
  rw [bits_of_lt hil hi, bits_of_lt hjl hj]
  by_cases hki : k = i
  · subst hki
    rw [if_pos rfl, bits_of_lt hil (by simpa using hi), Array.getElem_swap_left]
  by_cases hkj : k = j
  · subst hkj
    rw [if_neg hki, if_pos rfl, bits_of_lt hjl (by simpa using hj), Array.getElem_swap_right]
  · rw [if_neg hki, if_neg hkj, bits, bits, Array.getElem?_swap, if_neg (Ne.symm hkj), if_neg (Ne.symm hki)]

section Run

variable {exchange : α → α → Except ε Bool} {S : α → Prop} {le : α → α → Prop} {live : Nat} {slots : Array α}

/-- What a successful run over `slots` did to the bits of any threshold is `T`. -/
def RunsTo (S : α → Prop) (le : α → α → Prop) (live : Nat) (slots : Array α)
    (T : (Nat → Bool) → (Nat → Bool) → Prop) (r : Except (Halted α ε) (Array α)) : Prop :=
  ∃ s, r = .ok s ∧ Shuffled live slots s ∧
    ∀ P : α → Bool, UpClosed S le P → T (bits P live slots) (bits P live s)

theorem Shuffled.mem_live {s : Array α} (h : Shuffled live slots s) (hS : ∀ a ∈ liveEntries slots live, S a) :
    ∀ a ∈ liveEntries s live, S a := fun a ha => hS a (h.perm.mem_iff.mp ha)

theorem exchangeLane_runsTo (hd : Decides exchange S le) (hS : ∀ a ∈ liveEntries slots live, S a)
    (hlive : live ≤ slots.size) {lane : Nat × Nat} (hlt : lane.1 < lane.2) (hl : lane.2 < live) :
    RunsTo S le live slots (fun b b' => b' = exchangeBits b lane) (exchangeLane exchange slots lane) := by
  obtain ⟨i, j⟩ := lane
  simp only at hlt hl
  have hi : i < slots.size := by omega
  have hj : j < slots.size := by omega
  have hil : i < live := by omega
  have hSi := hS _ (getElem_mem_liveEntries hi hil)
  have hSj := hS _ (getElem_mem_liveEntries hj hl)
  rw [exchangeLane, dif_pos ⟨hi, hj⟩]
  by_cases hle : le slots[i] slots[j]
  · refine ⟨slots, ?_, .refl _ _, fun P hP => ?_⟩
    · simp only [hd.keep hSi hSj hle]
    -- In order already, so the upper bit is the larger one.
    · have himp : bits P live slots i = true → bits P live slots j = true := by
        rw [bits_of_lt hil hi, bits_of_lt hl hj]
        exact hP hSi hSj hle
      exact (exchangeBits_of_le himp).symm
  · refine ⟨slots.swap i j hi hj, ?_, shuffled_swap hi hj hil hl, fun P hP => ?_⟩
    · simp only [hd.swap hSi hSj hle]
    · have himp : bits P live slots j = true → bits P live slots i = true := by
        rw [bits_of_lt hil hi, bits_of_lt hl hj]
        exact hP hSj hSi ((hd.total hSi hSj).resolve_left hle)
      funext k
      rw [bits_swap P hi hj hil hl, exchangeBits_of_ge himp]

theorem lanes_runsTo (hd : Decides exchange S le) (hS : ∀ a ∈ liveEntries slots live, S a)
    (hlive : live ≤ slots.size) (lanes : List (Nat × Nat)) (hl : ∀ l ∈ lanes, l.1 < l.2 ∧ l.2 < live) :
    RunsTo S le live slots (fun b b' => b' = lanes.foldl exchangeBits b)
      (lanes.foldlM (exchangeLane exchange) slots) := by
  induction lanes generalizing slots with
  | nil => exact ⟨slots, rfl, .refl _ _, fun _ _ => rfl⟩
  | cons l ls ih =>
    have hl₁ := hl l (List.mem_cons_self ..)
    obtain ⟨s, hs, hsh, hb⟩ := exchangeLane_runsTo hd hS hlive hl₁.1 hl₁.2
    obtain ⟨t, ht, hth, hb'⟩ := ih (hsh.mem_live hS) (by rwa [hsh.size_eq])
      fun m hm => hl m (List.mem_cons_of_mem _ hm)
    refine ⟨t, ?_, hsh.trans hth, fun P hP => ?_⟩
    · rw [List.foldlM_cons, hs]
      exact ht
    · simp only [hb' P hP, hb P hP, List.foldl_cons]

theorem acts_of_foldl (p : Pass) {size : Nat} {b b' : Nat → Bool}
    (hb : ∀ k, live ≤ k → b k = true) (hb' : ∀ k, live ≤ k → b' k = true)
    (h : b' = (p.lanes size live).foldl exchangeBits b) : p.Acts size b b' := by
  intro block hblock r hr
  by_cases hup : p.upper (block * p.unit) r < live
  · rw [h]
    exact foldl_exchangeBits_of_mem (p.lanes_apart size live) (fun l hl => (Pass.lt_of_mem_lanes hl).1)
      (Pass.mem_lanes_of_block hblock hr hup)
  -- The slot past the live ones holds a one, so a lane to it would change nothing.
  · have hone := hb _ (Nat.le_of_not_lt hup)
    have hone' := hb' _ (Nat.le_of_not_lt hup)
    refine ⟨?_, by rw [hone, hone', Bool.or_true]⟩
    rw [hone, Bool.and_true, h]
    exact foldl_exchangeBits_of_notMem (Pass.notMem_lanes_of_le hr (Nat.le_of_not_lt hup))

theorem bits_of_ge {P : α → Bool} {k : Nat} (hk : live ≤ k) : bits P live slots k = true :=
  if_neg (Nat.not_lt.mpr hk)

theorem run_runsTo (hd : Decides exchange S le) (hS : ∀ a ∈ liveEntries slots live, S a)
    (hlive : live ≤ slots.size) (p : Pass) :
    RunsTo S le live slots (p.Acts slots.size) (p.run exchange live slots) := by
  obtain ⟨s, hs, hsh, hb⟩ := lanes_runsTo hd hS hlive (p.lanes slots.size live)
    fun l hl => Pass.lt_of_mem_lanes hl
  exact ⟨s, hs, hsh, fun P hP =>
    acts_of_foldl p (fun _ => bits_of_ge) (fun _ => bits_of_ge) (hb P hP)⟩

theorem runPasses_runsTo (hd : Decides exchange S le) (hS : ∀ a ∈ liveEntries slots live, S a)
    (hlive : live ≤ slots.size) (passes : List Pass) :
    RunsTo S le live slots (ActsAll slots.size passes) (runPasses exchange live slots passes) := by
  induction passes generalizing slots with
  | nil => exact ⟨slots, rfl, .refl _ _, fun _ _ => rfl⟩
  | cons p ps ih =>
    obtain ⟨s, hs, hsh, hb⟩ := run_runsTo hd hS hlive p
    obtain ⟨t, ht, hth, hb'⟩ := ih (hsh.mem_live hS) (by rwa [hsh.size_eq])
    rw [hsh.size_eq] at hb'
    exact ⟨t, runPasses_cons_eq_ok_iff.mpr ⟨s, hs, ht⟩, hsh.trans hth, fun P hP => ⟨_, hb P hP, hb' P hP⟩⟩

theorem pairwise_of_rising (hd : Decides exchange S le) (hS : ∀ a ∈ liveEntries slots live, S a)
    (h : ∀ P : α → Bool, UpClosed S le P → Rising (bits P live slots) 0 slots.size) :
    (liveEntries slots live).Pairwise le := by
  classical
  rw [List.pairwise_iff_getElem]
  intro i j hi hj hij
  have hj' : j < slots.size ∧ j < live := by simp [liveEntries] at hj; omega
  have hi' : i < slots.size ∧ i < live := by omega
  have ei : (liveEntries slots live)[i] = slots[i] := by simp [liveEntries]
  have ej : (liveEntries slots live)[j] = slots[j] := by simp [liveEntries]
  rw [ei, ej]
  have hSj := hS _ (getElem_mem_liveEntries hj'.1 hj'.2)
  by_contra hle
  -- the entries that are not at most the later one
  let P : α → Bool := fun a => decide ¬le a slots[j]
  have hP : UpClosed S le P := by
    intro a b ha hb hab hPa
    simp only [P, decide_eq_true_eq] at hPa ⊢
    exact fun hbj => hPa (hd.trans ha hb hSj hab hbj)
  have hbit : bits P live slots (0 + i) = true := by
    rw [Nat.zero_add, bits_of_lt hi'.2 hi'.1]
    simpa only [P, decide_eq_true_eq] using hle
  have key := h P hP i j (Nat.le_of_lt hij) hj'.1 hbit
  rw [Nat.zero_add, bits_of_lt hj'.2 hj'.1] at key
  simp only [P, decide_eq_true_eq] at key
  exact key (or_self_iff.mp (hd.total hSj hSj))

theorem rising_of_pairwise {base n : Nat} (hS : ∀ a ∈ liveEntries slots live, S a) (hlive : live ≤ slots.size)
    (hn : base + n ≤ live) (h : ((slots.toList.drop base).take n).Pairwise le) {P : α → Bool}
    (hP : UpClosed S le P) : Rising (bits P live slots) base n := by
  intro i j hij hj hi
  rcases Nat.eq_or_lt_of_le hij with rfl | hij
  · exact hi
  have hjs : base + j < slots.size := by omega
  rw [bits_of_lt (by omega) (by omega)] at hi ⊢
  rw [List.pairwise_iff_getElem] at h
  have key := h i j (by simp; omega) (by simp; omega) hij
  simp only [List.getElem_take, List.getElem_drop, Array.getElem_toList] at key
  exact hP (hS _ (getElem_mem_liveEntries (by omega) (by omega)))
    (hS _ (getElem_mem_liveEntries hjs (by omega))) key hi

/-! ### Entries that are in order already -/

theorem exchangeLane_of_pairwise (hd : Decides exchange S le) (hS : ∀ a ∈ liveEntries slots live, S a)
    (hp : (liveEntries slots live).Pairwise le) {lane : Nat × Nat} (hlt : lane.1 < lane.2) (hl : lane.2 < live)
    (hsize : lane.2 < slots.size) : exchangeLane exchange slots lane = .ok slots := by
  have hin : lane.1 < slots.size ∧ lane.2 < slots.size := ⟨Nat.lt_trans hlt hsize, hsize⟩
  have hle : le slots[lane.1] slots[lane.2] := by
    have key := List.pairwise_iff_getElem.mp hp lane.1 lane.2 (by simp [liveEntries]; omega)
      (by simp [liveEntries]; omega) hlt
    simpa only [liveEntries, List.getElem_take, Array.getElem_toList] using key
  have hfirst := hS _ (getElem_mem_liveEntries hin.1 (Nat.lt_trans hlt hl))
  have hsecond := hS _ (getElem_mem_liveEntries hin.2 hl)
  rw [exchangeLane, dif_pos hin, hd.keep hfirst hsecond hle]

theorem runPasses_of_pairwise (hd : Decides exchange S le) (hS : ∀ a ∈ liveEntries slots live, S a)
    (hp : (liveEntries slots live).Pairwise le) (passes : List Pass) (turns : Nat → Turns) :
    runPasses exchange live slots passes turns = .ok slots := by
  induction passes generalizing turns with
  | nil => rfl
  | cons p passes ih =>
    refine runPasses_cons_eq_ok_iff.mpr ⟨slots, ?_, ih _⟩
    apply foldlM_fixed
    intro lane hlane
    have hmem := Turns.mem_arrange.mp hlane
    exact exchangeLane_of_pairwise hd hS hp (Pass.lt_of_mem_lanes hmem).1 (Pass.lt_of_mem_lanes hmem).2
      (Pass.lt_length_of_mem_lanes hmem)

end Run

/-! ### The schedules sort -/

theorem runPasses_sortSchedule {exchange : α → α → Except ε Bool} {S : α → Prop} {le : α → α → Prop}
    {live k : Nat} {slots : Array α} (hd : Decides exchange S le) (hS : ∀ a ∈ liveEntries slots live, S a)
    (hlive : live ≤ slots.size) (hsize : slots.size = 1 <<< k) (turns : Nat → Turns) :
    ∃ s, runPasses exchange live slots (sortSchedule slots.size) turns = .ok s ∧ Shuffled live slots s ∧
      (liveEntries s live).Pairwise le := by
  obtain ⟨s, hs, hsh, hb⟩ := runPasses_runsTo hd hS hlive (sortSchedule slots.size)
  refine ⟨s, runPasses_eq_ok_iff.mpr hs, hsh, ?_⟩
  apply pairwise_of_rising hd (hsh.mem_live hS)
  intro P hP
  have hacts := hb P hP
  rw [hsize] at hacts
  have key := sortSchedule_sort k hacts 0 (by omega)
  rwa [Nat.zero_mul, ← hsize, ← hsh.size_eq] at key

theorem runPasses_mergeSchedule {exchange : α → α → Except ε Bool} {S : α → Prop} {le : α → α → Prop}
    {k : Nat} {x y : Array α} (hd : Decides exchange S le) (hx : ∀ a ∈ x.toList, S a) (hy : ∀ a ∈ y.toList, S a)
    (hxs : x.size = 1 <<< k) (hys : y.size = 1 <<< k) (hxp : x.toList.Pairwise le) (hyp : y.toList.Pairwise le)
    (turns : Nat → Turns) :
    ∃ s, runPasses exchange (2 * 1 <<< k) (x ++ y) (mergeSchedule (2 * 1 <<< k)) turns = .ok s ∧
      s.toList.Perm (x.toList ++ y.toList) ∧ s.toList.Pairwise le := by
  have hsize : (x ++ y).size = 2 * 1 <<< k := by
    rw [Array.size_append]
    omega
  have hlive : liveEntries (x ++ y) (2 * 1 <<< k) = x.toList ++ y.toList := by
    rw [liveEntries, List.take_of_length_le (Nat.le_of_eq (Array.length_toList.trans hsize)),
      Array.toList_append]
  have hS : ∀ a ∈ liveEntries (x ++ y) (2 * 1 <<< k), S a := by
    intro a ha
    rw [hlive, List.mem_append] at ha
    exact ha.elim (hx a) (hy a)
  obtain ⟨s, hs, hsh, hb⟩ := runPasses_runsTo hd hS (Nat.le_of_eq hsize.symm) (mergeSchedule (2 * 1 <<< k))
  have hfull : liveEntries s (2 * 1 <<< k) = s.toList := by
    rw [liveEntries, List.take_of_length_le (Nat.le_of_eq ?_)]
    rw [Array.length_toList, hsh.size_eq, hsize]
  refine ⟨s, runPasses_eq_ok_iff.mpr hs, Array.toList_append ▸ hsh.toList_perm, ?_⟩
  rw [← hfull]
  apply pairwise_of_rising hd (hsh.mem_live hS)
  intro P hP
  have hacts := hb P hP
  rw [mergeSchedule_eq, hsize, Nat.two_mul] at hacts
  rw [hsh.size_eq, hsize, Nat.two_mul]
  rw [Nat.two_mul] at hS hsize
  have key := stagePasses_sort k hacts 0 (by omega)
  rw [Nat.zero_mul, Nat.zero_add] at key
  apply key
  · apply rising_of_pairwise hS (Nat.le_of_eq hsize.symm) (by omega) _ hP
    rw [List.drop_zero, Array.toList_append, List.take_left' (by rw [Array.length_toList, hxs])]
    exact hxp
  · apply rising_of_pairwise hS (Nat.le_of_eq hsize.symm) (by omega) _ hP
    rw [Array.toList_append, List.drop_left' (by rw [Array.length_toList, hxs]),
      List.take_of_length_le (Nat.le_of_eq (Array.length_toList.trans hys))]
    exact hyp

end ChunkSort
