import ChunkSort.Network.Run

/-!
The lanes of a pass: which slots they pair, and that no slot is in two of them. Below, a block is counted
from the left and `r` is a place in its lower half.
-/

namespace ChunkSort

namespace Pass

def upper (p : Pass) (base r : Nat) : Nat :=
  if p.flip then base + (p.unit / 2 + p.unit / 2 - 1 - r) else base + p.unit / 2 + r

theorem upper_bounds (p : Pass) (base : Nat) {r : Nat} (hr : r < p.unit / 2) :
    base + p.unit / 2 ≤ p.upper base r ∧ p.upper base r < base + p.unit := by
  unfold upper
  split <;> omega

theorem upper_injective (p : Pass) {base r r' : Nat} (hr : r < p.unit / 2) (hr' : r' < p.unit / 2)
    (h : p.upper base r = p.upper base r') : r = r' := by
  unfold upper at h
  split at h <;> omega

theorem blockLanes_eq (p : Pass) (base : Nat) :
    p.blockLanes base = (List.range (p.unit / 2)).map fun r => (base + r, p.upper base r) := by
  apply List.ext_getElem
  · unfold blockLanes
    split <;> simp
  · intro i h₁ h₂
    have hi : i < p.unit / 2 := by simpa using h₂
    cases hf : p.flip
    · simp [blockLanes, upper, hf]
    · simp [blockLanes, upper, hf]
      omega

theorem lanes_eq (p : Pass) (length live : Nat) :
    p.lanes length live = ((List.range (length / p.unit)).flatMap fun block =>
      (List.range (p.unit / 2)).map fun r =>
        (block * p.unit + r, p.upper (block * p.unit) r)).filter (·.2 < live) := by
  -- Leaving out whole blocks changes nothing: none of their upper slots is live.
  unfold lanes
  rw [List.filter_flatMap]
  congr 1
  funext block
  simp only [blockLanes_eq]
  split
  next hlive =>
    symm
    rw [List.filter_eq_nil_iff]
    intro lane hlane
    obtain ⟨r, hr, rfl⟩ := List.mem_map.mp hlane
    have := p.upper_bounds (block * p.unit) (List.mem_range.mp hr)
    simp only [decide_eq_true_eq]
    omega
  next => rfl

theorem mem_lanes {p : Pass} {length live : Nat} {lane : Nat × Nat} :
    lane ∈ p.lanes length live ↔ ∃ block < length / p.unit, ∃ r < p.unit / 2,
      lane = (block * p.unit + r, p.upper (block * p.unit) r) ∧ p.upper (block * p.unit) r < live := by
  rw [lanes_eq, List.mem_filter, List.mem_flatMap]
  constructor
  · rintro ⟨⟨block, hb, hl⟩, hlive⟩
    obtain ⟨r, hr, rfl⟩ := List.mem_map.mp hl
    exact ⟨block, List.mem_range.mp hb, r, List.mem_range.mp hr, rfl, by simpa using hlive⟩
  · rintro ⟨block, hb, r, hr, rfl, hlive⟩
    exact ⟨⟨block, List.mem_range.mpr hb, List.mem_map.mpr ⟨r, List.mem_range.mpr hr, rfl⟩⟩, by simpa using hlive⟩

theorem mem_lanes_of_block {p : Pass} {length live block r : Nat} (hblock : (block + 1) * p.unit ≤ length)
    (hr : r < p.unit / 2) (hup : p.upper (block * p.unit) r < live) :
    (block * p.unit + r, p.upper (block * p.unit) r) ∈ p.lanes length live := by
  have hdiv : block < length / p.unit := by
    rw [← Nat.succ_le_iff, Nat.le_div_iff_mul_le (by omega)]
    exact hblock
  exact mem_lanes.mpr ⟨block, hdiv, r, hr, rfl, hup⟩

theorem block_end_le {block c : Nat} (h : block < c) (unit : Nat) : block * unit + unit ≤ c * unit := by
  rw [← Nat.succ_mul]
  exact Nat.mul_le_mul_right _ h

theorem lt_length_of_mem_lanes {p : Pass} {length live : Nat} {lane : Nat × Nat} (h : lane ∈ p.lanes length live) :
    lane.2 < length := by
  obtain ⟨block, hb, r, hr, rfl, -⟩ := mem_lanes.mp h
  calc p.upper (block * p.unit) r < block * p.unit + p.unit := (p.upper_bounds _ hr).2
    _ ≤ length / p.unit * p.unit := block_end_le hb _
    _ ≤ length := Nat.div_mul_le_self ..

theorem lt_of_mem_lanes {p : Pass} {length live : Nat} {lane : Nat × Nat} (h : lane ∈ p.lanes length live) :
    lane.1 < lane.2 ∧ lane.2 < live := by
  obtain ⟨block, _, r, hr, rfl, hlive⟩ := mem_lanes.mp h
  have := p.upper_bounds (block * p.unit) hr
  exact ⟨by simp only; omega, hlive⟩

end Pass

def Apart (l m : Nat × Nat) : Prop := l.1 ≠ m.1 ∧ l.1 ≠ m.2 ∧ l.2 ≠ m.1 ∧ l.2 ≠ m.2

theorem Apart.symm {l m : Nat × Nat} (h : Apart l m) : Apart m l := ⟨h.1.symm, h.2.2.1.symm, h.2.1.symm, h.2.2.2.symm⟩

namespace Pass

theorem apart_of_block_lt (p : Pass) {block block' r r' : Nat} (h : block < block') (hr : r < p.unit / 2)
    (hr' : r' < p.unit / 2) :
    Apart (block * p.unit + r, p.upper (block * p.unit) r) (block' * p.unit + r', p.upper (block' * p.unit) r') := by
  have hb := block_end_le h p.unit
  have hu := p.upper_bounds (block * p.unit) hr
  have hu' := p.upper_bounds (block' * p.unit) hr'
  refine ⟨?_, ?_, ?_, ?_⟩ <;> simp only <;> omega

theorem apart_of_place_ne (p : Pass) (base : Nat) {r r' : Nat} (h : r ≠ r') (hr : r < p.unit / 2)
    (hr' : r' < p.unit / 2) : Apart (base + r, p.upper base r) (base + r', p.upper base r') := by
  have hu := p.upper_bounds base hr
  have hu' := p.upper_bounds base hr'
  refine ⟨?_, ?_, ?_, fun he => h (p.upper_injective hr hr' he)⟩ <;> simp only <;> omega

theorem lanes_apart (p : Pass) (length live : Nat) : (p.lanes length live).Pairwise Apart := by
  rw [lanes_eq]
  apply List.Pairwise.filter
  rw [List.pairwise_flatMap]
  constructor
  · intro block _
    rw [List.pairwise_map]
    exact List.pairwise_lt_range.imp_of_mem fun ha hb hlt =>
      p.apart_of_place_ne _ (Nat.ne_of_lt hlt) (List.mem_range.mp ha) (List.mem_range.mp hb)
  · apply List.pairwise_lt_range.imp
    intro block block' hlt l hl m hm
    obtain ⟨r, hr, rfl⟩ := List.mem_map.mp hl
    obtain ⟨r', hr', rfl⟩ := List.mem_map.mp hm
    exact p.apart_of_block_lt hlt (List.mem_range.mp hr) (List.mem_range.mp hr')

theorem notMem_lanes_of_le {p : Pass} {length live block r : Nat} (hr : r < p.unit / 2)
    (hup : live ≤ p.upper (block * p.unit) r) : ∀ l ∈ p.lanes length live, block * p.unit + r ≠ l.1 ∧
      block * p.unit + r ≠ l.2 := by
  -- A lane with the same lower slot has the same upper one, which is not live.
  intro l hl
  obtain ⟨block', _, r', hr', rfl, hup'⟩ := mem_lanes.mp hl
  rcases Nat.lt_trichotomy block block' with hlt | rfl | hlt
  · have hap := p.apart_of_block_lt hlt hr hr'
    exact ⟨hap.1, hap.2.1⟩
  · have hne : r ≠ r' := fun he => absurd (he ▸ hup') (Nat.not_lt_of_le hup)
    have hap := p.apart_of_place_ne (block * p.unit) hne hr hr'
    exact ⟨hap.1, hap.2.1⟩
  · have hap := (p.apart_of_block_lt hlt hr' hr).symm
    exact ⟨hap.1, hap.2.1⟩

end Pass
end ChunkSort
