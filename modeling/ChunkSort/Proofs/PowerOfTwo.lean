import ChunkSort.Limits
import Mathlib.Init

/-!
Powers of two, written as shifted ones, and the smallest one that is not below a number.
-/

namespace ChunkSort

theorem one_shiftLeft_succ (k : Nat) : 1 <<< (k + 1) = 1 <<< k + 1 <<< k := by
  rw [Nat.shiftLeft_succ, Nat.two_mul]

theorem one_shiftLeft_pos (k : Nat) : 0 < 1 <<< k := by
  rw [Nat.one_shiftLeft]
  exact Nat.two_pow_pos k

theorem one_shiftLeft_mono {j k : Nat} (h : j ≤ k) : 1 <<< j ≤ 1 <<< k := by
  rw [Nat.one_shiftLeft, Nat.one_shiftLeft]
  exact Nat.pow_le_pow_right Nat.two_pos h

theorem paddedSize_eq (n : Nat) : ∃ k, paddedSize n = 1 <<< k := by
  unfold paddedSize
  split
  next => exact ⟨0, rfl⟩
  next => exact ⟨_, rfl⟩

theorem le_paddedSize (n : Nat) : n ≤ paddedSize n := by
  unfold paddedSize
  split
  next h => exact h
  next h =>
    have hlog : n - 1 < 2 ^ ((n - 1).log2 + 1) := Nat.lt_log2_self
    rw [Nat.one_shiftLeft]
    omega

theorem paddedSize_le {n k : Nat} (h : n ≤ 1 <<< k) : paddedSize n ≤ 1 <<< k := by
  unfold paddedSize
  split
  next => exact one_shiftLeft_pos k
  next hn =>
    apply one_shiftLeft_mono
    rw [Nat.one_shiftLeft] at h
    exact (Nat.log2_lt (by omega)).mpr (by omega)

end ChunkSort
