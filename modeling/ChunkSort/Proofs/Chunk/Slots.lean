import ChunkSort.Chunk.Basic
import Mathlib.Algebra.BigOperators.Group.List.Basic
import Mathlib.Algebra.Ring.Nat
import Mathlib.Data.List.Nodup

/-!
The slots that a chunk grants. Whoever asks, a request is one step, so that the requests of all callers form one
sequence. Each is granted what is free from where the last one ended, and no slot is granted twice. Requests are
numbers without a bound here, so that no sum of them overflows.
-/

namespace ChunkSort

def SlotRange.slots (r : SlotRange) : List Nat := List.range' r.start (r.stop - r.start)

/-- The end of a reservation as 64-bit words compute it. -/
def wordStop (rows capacity wanted : UInt64) : UInt64 := rows + min wanted (capacity - rows)

namespace Chunk

def reserveAll (c : Chunk) : List Nat → List SlotRange × Chunk
  | [] => ([], c)
  | n :: wanted =>
    let (range, c') := c.reserve n
    let (ranges, c'') := c'.reserveAll wanted
    (range :: ranges, c'')

variable {c : Chunk}

/-! ### One request -/

theorem reserve_stop (h : c.rows ≤ c.capacity) (n : Nat) : (c.reserve n).1.stop = min c.capacity (c.rows + n) := by
  show c.rows + min n (c.capacity - c.rows) = _
  omega

theorem reserve_rows_le (h : c.rows ≤ c.capacity) (n : Nat) : (c.reserve n).2.rows ≤ (c.reserve n).2.capacity :=
  (reserve_stop h n).trans_le (Nat.min_le_left ..)

theorem le_reserve_rows (c : Chunk) (n : Nat) : c.rows ≤ (c.reserve n).2.rows := Nat.le_add_right ..

theorem toNat_wordStop (h : c.rows ≤ c.capacity) (hcapacity : c.capacity < UInt64.size) (wanted : UInt64) :
    (wordStop (.ofNat c.rows) (.ofNat c.capacity) wanted).toNat = (c.reserve wanted.toNat).1.stop := by
  have hrows : (UInt64.ofNat c.rows).toNat = c.rows := UInt64.toNat_ofNat_of_lt' (Nat.lt_of_le_of_lt h hcapacity)
  have hcap : (UInt64.ofNat c.capacity).toNat = c.capacity := UInt64.toNat_ofNat_of_lt' hcapacity
  have hle : UInt64.ofNat c.rows ≤ UInt64.ofNat c.capacity := by
    rwa [UInt64.le_iff_toNat_le, hrows, hcap]
  rw [wordStop, UInt64.toNat_add, UInt64.toNat_min, UInt64.toNat_sub_of_le _ _ hle, hrows, hcap]
  show _ = c.rows + min wanted.toNat (c.capacity - c.rows)
  apply Nat.mod_eq_of_lt
  simp only [UInt64.size] at hcapacity
  omega

/-! ### Any number of requests -/

theorem reserveAll_eq (h : c.rows ≤ c.capacity) (wanted : List Nat) :
    (c.reserveAll wanted).2 = { c with rows := min c.capacity (c.rows + wanted.sum) } := by
  induction wanted generalizing c with
  | nil =>
    show c = _
    rw [List.sum_nil, Nat.add_zero, Nat.min_eq_right h]
  | cons n wanted ih =>
    have key := ih (reserve_rows_le h n)
    have hrows : (c.reserve n).2.rows = min c.capacity (c.rows + n) := reserve_stop h n
    show ((c.reserve n).2.reserveAll wanted).2 = _
    rw [key, hrows, List.sum_cons]
    show ({ c with rows := min c.capacity (min c.capacity (c.rows + n) + wanted.sum) } : Chunk) = _
    congr 1
    omega

theorem le_reserveAll_rows (c : Chunk) (wanted : List Nat) : c.rows ≤ (c.reserveAll wanted).2.rows := by
  induction wanted generalizing c with
  | nil => exact Nat.le_refl _
  | cons n wanted ih => exact Nat.le_trans (c.le_reserve_rows n) (ih _)

theorem reserveAll_lengths (c : Chunk) (wanted : List Nat) :
    List.Forall₂ (fun n r => r.stop = r.start + min n (c.capacity - r.start)) wanted (c.reserveAll wanted).1 := by
  induction wanted generalizing c with
  | nil => exact .nil
  | cons n wanted ih => exact .cons rfl (ih (c.reserve n).2)

theorem reserveAll_boundaries (c : Chunk) (wanted : List Nat) :
    (c.reserveAll wanted).1.map SlotRange.start ++ [(c.reserveAll wanted).2.rows] =
      c.rows :: (c.reserveAll wanted).1.map SlotRange.stop := by
  induction wanted generalizing c with
  | nil => rfl
  | cons n wanted ih => exact congrArg (c.rows :: ·) (ih (c.reserve n).2)

theorem reserveAll_slots (c : Chunk) (wanted : List Nat) :
    (c.reserveAll wanted).1.flatMap SlotRange.slots = List.range' c.rows ((c.reserveAll wanted).2.rows - c.rows) := by
  induction wanted generalizing c with
  | nil =>
    show [] = List.range' c.rows (c.rows - c.rows)
    rw [Nat.sub_self]
    rfl
  | cons n wanted ih =>
    have hfirst := c.le_reserve_rows n
    have hrest := (c.reserve n).2.le_reserveAll_rows wanted
    have hgap : (c.reserve n).2.rows = c.rows + ((c.reserve n).2.rows - c.rows) := by omega
    calc (c.reserveAll (n :: wanted)).1.flatMap SlotRange.slots
      _ = List.range' c.rows ((c.reserve n).2.rows - c.rows) ++
            ((c.reserve n).2.reserveAll wanted).1.flatMap SlotRange.slots := rfl
      _ = List.range' c.rows ((c.reserve n).2.rows - c.rows) ++
            List.range' (c.rows + ((c.reserve n).2.rows - c.rows))
              (((c.reserve n).2.reserveAll wanted).2.rows - (c.reserve n).2.rows) := by rw [ih, ← hgap]
      _ = List.range' c.rows ((c.reserveAll (n :: wanted)).2.rows - c.rows) := by
        rw [List.range'_append_1]
        congr 1
        show _ = ((c.reserve n).2.reserveAll wanted).2.rows - c.rows
        omega

/-! ### The slots of a chunk -/

structure Partitions (c : Chunk) (wanted : List Nat) (ranges : List SlotRange) (c' : Chunk) : Prop where
  lengths : List.Forall₂ (fun n r => r.stop = r.start + min n (c.capacity - r.start)) wanted ranges
  boundaries : ranges.map SlotRange.start ++ [c'.rows] = c.rows :: ranges.map SlotRange.stop
  disjoint : ranges.Pairwise fun r r' => List.Disjoint r.slots r'.slots
  covers : ∀ slot, (∃ r ∈ ranges, slot ∈ r.slots) ↔ c.rows ≤ slot ∧ slot < c'.rows
  served : ∀ before, before <+: wanted → (c.reserveAll before).2.rows ≤ c.capacity
  rows : c'.rows = min c.capacity (c.rows + wanted.sum)
  rest : c' = { c with rows := c'.rows }
  anyOrder : ∀ wanted', wanted'.Perm wanted → (c.reserveAll wanted').2 = c'
  words : c.capacity < UInt64.size → ∀ n : UInt64,
    (wordStop (.ofNat c'.rows) (.ofNat c'.capacity) n).toNat = (c'.reserve n.toNat).1.stop

theorem reserveAll_partitions (h : c.rows ≤ c.capacity) (wanted : List Nat) :
    c.Partitions wanted (c.reserveAll wanted).1 (c.reserveAll wanted).2 := by
  have heq := reserveAll_eq h wanted
  have hle := c.le_reserveAll_rows wanted
  have hslots := c.reserveAll_slots wanted
  have hnodup : ((c.reserveAll wanted).1.flatMap SlotRange.slots).Nodup := hslots ▸ List.nodup_range'
  refine ⟨c.reserveAll_lengths wanted, c.reserveAll_boundaries wanted, (List.nodup_flatMap.mp hnodup).2, fun slot => ?_,
    fun before _ => ?_, ?_, ?_, fun wanted' hperm => ?_, fun hcapacity => toNat_wordStop ?_ ?_⟩
  · rw [← List.mem_flatMap, hslots, List.mem_range'_1, Nat.add_sub_cancel' hle]
  · rw [reserveAll_eq h before]
    exact Nat.min_le_left ..
  · rw [heq]
  · rw [heq]
  · rw [heq, reserveAll_eq h wanted', hperm.sum_eq]
  · rw [heq]
    exact Nat.min_le_left ..
  · rwa [heq]

def begunChunk : Chunk := { Chunk.empty 3 [] 6 none with rows := 1 }

theorem reserveAll_partitions_begun :
    begunChunk.rows ≤ begunChunk.capacity ∧
      begunChunk.Partitions [2, 0, 0xFFFFFFFFFFFFFFFF, 1] [⟨1, 3⟩, ⟨3, 3⟩, ⟨3, 6⟩, ⟨6, 6⟩]
        { begunChunk with rows := 6 } := by
  have hrows : begunChunk.rows ≤ begunChunk.capacity := by decide
  exact ⟨hrows, reserveAll_partitions hrows [2, 0, 0xFFFFFFFFFFFFFFFF, 1]⟩

end Chunk
end ChunkSort
