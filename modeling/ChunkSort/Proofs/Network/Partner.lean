import ChunkSort.Proofs.Network.Screening
import Mathlib.Data.Nat.Bitwise

/-!
Lanes by number. The bit formula pairs every slot with one other, blocks are left to right in the order of the
lanes, and a run of a pass is the run of its lanes: in that order on a single thread, else in the order of the turns.
Two lanes share no slot, so where none of them fails any order ends in the same array.
-/

namespace ChunkSort

variable {α ε : Type}

/-! ### The bit formula -/

theorem xor_two_pow_sub_one {k a : Nat} (h : a < 2 ^ k) : a ^^^ (2 ^ k - 1) = 2 ^ k - 1 - a := by
  apply Nat.eq_of_testBit_eq
  intro i
  rw [Nat.testBit_xor, Nat.testBit_two_pow_sub_one, show 2 ^ k - 1 - a = 2 ^ k - (a + 1) by omega,
    Nat.testBit_two_pow_sub_succ h]
  by_cases hi : i < k
  · simp [hi]
  · have hbit : a.testBit i = false :=
      Nat.testBit_lt_two_pow (Nat.lt_of_lt_of_le h (Nat.pow_le_pow_right Nat.two_pos (Nat.le_of_not_lt hi)))
    simp [hi, hbit]

theorem block_xor_mask (block : Nat) {k a : Nat} (h : a < 2 ^ k) :
    (block * 2 ^ k + a) ^^^ (2 ^ k - 1) = block * 2 ^ k + (2 ^ k - 1 - a) := by
  -- The mask has no bit in the number of the block, so quotient and remainder are compared apart.
  have hpos := Nat.two_pow_pos k
  have hmask : 2 ^ k - 1 < 2 ^ k := by omega
  rw [Nat.mul_comm]
  apply Nat.ext_div_mod (n := 2 ^ k)
  · rw [Nat.xor_div_two_pow, Nat.mul_add_div hpos, Nat.mul_add_div hpos, Nat.div_eq_of_lt h,
      Nat.div_eq_of_lt hmask, Nat.div_eq_of_lt (by omega), Nat.add_zero, Nat.xor_zero]
  · rw [Nat.xor_mod_two_pow, Nat.mul_add_mod, Nat.mul_add_mod, Nat.mod_eq_of_lt h, Nat.mod_eq_of_lt hmask,
      Nat.mod_eq_of_lt (by omega), xor_two_pow_sub_one h]

namespace Pass

variable {p : Pass}

def pair (p : Pass) (lane : Nat) : Nat × Nat :=
  let base := lane / (p.unit / 2) * p.unit
  (base + lane % (p.unit / 2), p.upper base (lane % (p.unit / 2)))

structure Proper (p : Pass) : Prop where
  isPowerOfTwo : p.unit.isPowerOfTwo
  two_le : 2 ≤ p.unit

theorem Proper.half_pos (hp : p.Proper) : 0 < p.unit / 2 := Nat.div_pos hp.two_le Nat.two_pos

theorem Proper.unit_eq (hp : p.Proper) : p.unit = p.unit / 2 + p.unit / 2 := by
  obtain ⟨k, hk⟩ := hp.isPowerOfTwo
  have h := hp.two_le
  cases k with
  | zero => omega
  | succ k =>
    rw [Nat.pow_succ] at hk
    omega

theorem partner?_eq (hp : p.Proper) (lane : Nat) : p.partner? lane = some (p.pair lane) := by
  have hhalf := hp.half_pos
  have hplace : lane % (p.unit / 2) < p.unit / 2 := Nat.mod_lt _ hhalf
  rw [partner?, if_neg (Nat.ne_of_gt hhalf)]
  cases hflip : p.flip with
  | false => simp only [pair, upper, hflip, Bool.false_eq_true, if_false, Nat.add_right_comm]
  | true =>
    obtain ⟨k, hk⟩ := hp.isPowerOfTwo
    have hunit := hp.unit_eq
    have hmask := block_xor_mask (lane / (p.unit / 2)) (show lane % (p.unit / 2) < 2 ^ k by omega)
    rw [← hk] at hmask
    simp only [pair, upper, hflip, if_true, hmask, ← hunit]

theorem pair_block (hp : p.Proper) (block : Nat) {r : Nat} (hr : r < p.unit / 2) :
    p.pair (block * (p.unit / 2) + r) = (block * p.unit + r, p.upper (block * p.unit) r) := by
  have hdiv : (block * (p.unit / 2) + r) / (p.unit / 2) = block := by
    rw [Nat.mul_comm, Nat.mul_add_div hp.half_pos, Nat.div_eq_of_lt hr, Nat.add_zero]
  rw [pair, hdiv, Nat.mul_add_mod_of_lt hr]

theorem exists_block (hp : p.Proper) {c lane : Nat} (h : lane < c * (p.unit / 2)) :
    ∃ block < c, ∃ r < p.unit / 2, lane = block * (p.unit / 2) + r :=
  ⟨lane / (p.unit / 2), Nat.div_lt_of_lt_mul (Nat.mul_comm _ _ ▸ h), lane % (p.unit / 2),
    Nat.mod_lt _ hp.half_pos, (Nat.div_add_mod' ..).symm⟩

theorem pair_apart (hp : p.Proper) {lane lane' : Nat} (h : lane ≠ lane') : Apart (p.pair lane) (p.pair lane') := by
  have hplace := Nat.mod_lt lane hp.half_pos
  have hplace' := Nat.mod_lt lane' hp.half_pos
  rcases Nat.lt_trichotomy (lane / (p.unit / 2)) (lane' / (p.unit / 2)) with hlt | heq | hlt
  · exact p.apart_of_block_lt hlt hplace hplace'
  · have hne : lane % (p.unit / 2) ≠ lane' % (p.unit / 2) := fun hmod => h (Nat.ext_div_mod heq hmod)
    rw [pair, pair, ← heq]
    exact p.apart_of_place_ne _ hne hplace hplace'
  · exact (p.apart_of_block_lt hlt hplace' hplace).symm

/-! ### Every slot is in one pair -/

theorem div_unit_eq (block : Nat) {slot : Nat} (hle : block * p.unit ≤ slot) (hlt : slot < block * p.unit + p.unit) :
    slot / p.unit = block := by
  apply Nat.div_eq_of_lt_le hle
  rwa [Nat.succ_mul]

theorem pair_bounds (hp : p.Proper) {c lane : Nat} (h : lane < c * (p.unit / 2)) :
    (p.pair lane).1 < (p.pair lane).2 ∧ (p.pair lane).2 < c * p.unit ∧
      (p.pair lane).1 / p.unit = (p.pair lane).2 / p.unit := by
  obtain ⟨block, hb, r, hr, rfl⟩ := exists_block hp h
  have hbounds := p.upper_bounds (block * p.unit) hr
  have hend := block_end_le hb p.unit
  rw [pair_block hp block hr]
  refine ⟨by simp only; omega, Nat.lt_of_lt_of_le hbounds.2 hend, ?_⟩
  rw [div_unit_eq block (by omega) (by omega), div_unit_eq block (by omega) hbounds.2]

theorem exists_lane (hp : p.Proper) {c slot : Nat} (h : slot < c * p.unit) :
    ∃ lane < c * (p.unit / 2), slot = (p.pair lane).1 ∨ slot = (p.pair lane).2 := by
  have hb : slot / p.unit < c := Nat.div_lt_of_lt_mul (Nat.mul_comm _ _ ▸ h)
  have hlt : slot < slot / p.unit * p.unit + p.unit := Nat.lt_div_mul_add (Nat.lt_of_lt_of_le Nat.two_pos hp.two_le)
  obtain ⟨r, hr, hin⟩ := exists_place hp.unit_eq (Nat.div_mul_le_self ..) hlt
  refine ⟨slot / p.unit * (p.unit / 2) + r, ?_, by rwa [pair_block hp _ hr]⟩
  calc slot / p.unit * (p.unit / 2) + r < slot / p.unit * (p.unit / 2) + p.unit / 2 := Nat.add_lt_add_left hr _
    _ ≤ c * (p.unit / 2) := block_end_le hb _

theorem lane_unique (hp : p.Proper) {lane lane' slot : Nat} (h : slot = (p.pair lane).1 ∨ slot = (p.pair lane).2)
    (h' : slot = (p.pair lane').1 ∨ slot = (p.pair lane').2) : lane = lane' := by
  by_contra hne
  obtain ⟨h₁, h₂, h₃, h₄⟩ := pair_apart hp hne
  rcases h with rfl | rfl <;> rcases h' with h' | h' <;> contradiction

/-- The lanes of so many slots pair each slot with another one of its block, and no slot twice. -/
structure PairsOff (p : Pass) (length : Nat) : Prop where
  ordered : ∀ lane < length / 2, ∃ i j, p.partner? lane = some (i, j) ∧ i < j ∧ j < length ∧
    i / p.unit = j / p.unit
  once : ∀ slot < length, ∃! lane, lane < length / 2 ∧
    ∃ i j, p.partner? lane = some (i, j) ∧ (slot = i ∨ slot = j)

theorem half_length (hp : p.Proper) (c : Nat) : c * p.unit / 2 = c * (p.unit / 2) :=
  Nat.mul_div_assoc c (by have := hp.unit_eq; omega)

theorem pairsOff (hp : p.Proper) {length : Nat} (hd : p.unit ∣ length) : p.PairsOff length := by
  obtain ⟨c, rfl⟩ := exists_eq_mul_left_of_dvd hd
  constructor
  · intro lane hlane
    rw [half_length hp] at hlane
    exact ⟨_, _, partner?_eq hp lane, pair_bounds hp hlane⟩
  · intro slot hslot
    rw [half_length hp]
    obtain ⟨lane, hlane, hin⟩ := exists_lane hp hslot
    refine ⟨lane, ⟨hlane, _, _, partner?_eq hp lane, hin⟩, ?_⟩
    rintro lane' ⟨-, i, j, hpair, hin'⟩
    rw [partner?_eq hp, Option.some.injEq] at hpair
    refine lane_unique hp ?_ hin
    rwa [hpair]

end Pass

/-! ### Runs lane by lane -/

namespace Pass

variable {p : Pass} (exchange : α → α → Except ε Bool) (live : Nat)

def runLane (p : Pass) (exchange : α → α → Except ε Bool) (live : Nat) (slots : Array α) (lane : Nat) :
    Except (Halted α ε) (Array α) :=
  match p.partner? lane with
  | some pair => if pair.2 < live then exchangeLane exchange slots pair else .ok slots
  | none => .ok slots

theorem lanes_eq_filter_pair (hp : p.Proper) {length : Nat} (hd : p.unit ∣ length) :
    p.lanes length live = ((List.range (length / 2)).map p.pair).filter (·.2 < live) := by
  obtain ⟨c, rfl⟩ := exists_eq_mul_left_of_dvd hd
  rw [lanes_eq, Nat.mul_div_cancel _ (Nat.lt_of_lt_of_le Nat.two_pos hp.two_le), half_length hp]
  congr 1
  induction c with
  | zero => simp
  | succ c ih =>
    rw [List.range_succ, List.flatMap_append, ih (Nat.dvd_mul_left ..), Nat.succ_mul, List.range_add, List.map_append,
      List.flatMap_singleton, List.map_map]
    congr 1
    apply List.map_congr_left
    intro r hr
    exact (pair_block hp c (List.mem_range.mp hr)).symm

def liveLanes (p : Pass) (length live : Nat) : List Nat := (List.range (length / 2)).filter fun lane => (p.pair lane).2 < live

theorem lanes_eq_map_pair (hp : p.Proper) {length : Nat} (hd : p.unit ∣ length) :
    p.lanes length live = (p.liveLanes length live).map p.pair := by
  rw [lanes_eq_filter_pair live hp hd, List.filter_map]
  rfl

theorem runLane_live (hp : p.Proper) (slots : Array α) {lane : Nat} (h : (p.pair lane).2 < live) :
    p.runLane exchange live slots lane = exchangeLane exchange slots (p.pair lane) := by
  simp only [runLane, partner?_eq hp, if_pos h]

theorem runLane_dead (hp : p.Proper) (slots : Array α) {lane : Nat} (h : ¬(p.pair lane).2 < live) :
    p.runLane exchange live slots lane = .ok slots := by
  simp only [runLane, partner?_eq hp, if_neg h]

theorem foldlM_runLane_filter (hp : p.Proper) (order : List Nat) (slots : Array α) :
    (order.filter fun lane => (p.pair lane).2 < live).foldlM (p.runLane exchange live) slots =
      order.foldlM (p.runLane exchange live) slots := by
  rw [List.foldlM_filter]
  congr 1
  funext s lane
  split
  next => rfl
  next h => exact (runLane_dead exchange live hp s (by simpa using h)).symm

theorem foldlM_runLane (hp : p.Proper) {length : Nat} {order : List Nat}
    (horder : ∀ lane ∈ order, lane ∈ p.liveLanes length live) (slots : Array α) :
    order.foldlM (p.runLane exchange live) slots = (order.map p.pair).foldlM (exchangeLane exchange) slots := by
  rw [List.foldlM_map]
  apply Outcome.foldlM_congr (I := fun _ => True) (E := fun _ => True) _ (fun _ _ _ _ => .of_forall fun _ => trivial) _ trivial
  intro s lane hlane _
  have hlive := (List.mem_filter.mp (horder lane hlane)).2
  exact runLane_live exchange live hp s (by simpa using hlive)

theorem run_eq_foldlM_runLane (hp : p.Proper) {slots : Array α} (hd : p.unit ∣ slots.size) (turns : Turns) :
    p.run exchange live slots turns =
      (turns.arrange (p.liveLanes slots.size live)).foldlM (p.runLane exchange live) slots := by
  rw [run, lanes_eq_map_pair live hp hd, Turns.arrange_map]
  exact (foldlM_runLane exchange live hp (fun _ => Turns.mem_arrange.mp) slots).symm

/-- Where a run halts, some other lanes were done before, and a lane fails that would have failed on the array as it
was at first. -/
def HaltsAt (p : Pass) (exchange : α → α → Except ε Bool) (live : Nat) (slots : Array α) (h : Halted α ε) : Prop :=
  ∃ done lane error, (done ++ [lane]).Subperm (List.range (slots.size / 2)) ∧
    done.foldlM (p.runLane exchange live) slots = .ok h.slots ∧
    p.runLane exchange live slots lane = .error ⟨slots, .failed error⟩ ∧ h.stop = .failed error

theorem haltsAt (hp : p.Proper) {slots : Array α} (hd : p.unit ∣ slots.size) {turns : Turns} {h : Halted α ε}
    (hrun : p.run exchange live slots turns = .error h) : p.HaltsAt exchange live slots h := by
  have hlanes := (turns.arrange_perm (p.lanes slots.size live))
  obtain ⟨done, lane, rest, error, heq, hdone, hlane, hstop⟩ := exists_of_foldlM_exchangeLane_eq_error
    (hlanes.symm.pairwise (p.lanes_apart ..) fun h => h.symm)
    (fun l hl => ⟨(lt_of_mem_lanes (hlanes.mem_iff.mp hl)).1, lt_length_of_mem_lanes (hlanes.mem_iff.mp hl)⟩) hrun
  rw [lanes_eq_map_pair live hp hd, Turns.arrange_map] at heq
  obtain ⟨done', more, hnumbers, rfl, hmore⟩ := List.map_eq_append_iff.mp heq
  obtain ⟨lane', rest', rfl, rfl, -⟩ := List.map_eq_cons_iff.mp hmore
  have hmem : ∀ n ∈ done' ++ lane' :: rest', n ∈ p.liveLanes slots.size live := fun n hn =>
    Turns.mem_arrange.mp (hnumbers ▸ hn)
  refine ⟨done', lane', error, ?_, ?_, ?_, hstop⟩
  · have hperm := (turns.arrange_perm (p.liveLanes slots.size live)).subperm
    rw [hnumbers, List.append_cons] at hperm
    exact ((List.sublist_append_left ..).subperm.trans hperm).trans List.filter_sublist.subperm
  · rwa [foldlM_runLane exchange live hp fun n hn => hmem n (List.mem_append_left _ hn)]
  · have hlive := (List.mem_filter.mp (hmem lane' (List.mem_append_right _ List.mem_cons_self))).2
    rwa [runLane_live exchange live hp slots (by simpa using hlive)]

def exceptNine (a b : Nat) : Except (Nat × Nat) Bool :=
  if a = 9 ∨ b = 9 then .error (a, b) else .ok (b < a)

end Pass
end ChunkSort
