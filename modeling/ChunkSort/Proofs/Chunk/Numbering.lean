import ChunkSort.Proofs.Chunk.MergeOrder
import Mathlib.Algebra.Ring.Nat
import Mathlib.Data.List.Nodup

/-!
The joint numbering is exact and can be undone. Each entry stands for one slot of one input, no 32-bit sum
overflows on the way, and from any order of the entries both inputs get an index back that lists their own slots in
that order.
-/

namespace ChunkSort

theorem Chunk.Indexed.nodup_entries {c : Chunk} (h : c.Indexed) : c.entries.Nodup :=
  .of_map UInt32.toNat (h.entries_toNat_perm.nodup_iff.mpr List.nodup_range)

namespace MergeSet

structure NumberedFrom (s : MergeSet) (c : Chunk) (offset : Nat) (slots : Array UInt32) : Prop where
  size : slots.size = s.half
  entries : List.Forall₂ (fun slot e => e.toNat = slot.toNat + offset ∧ s.locate e = (c, slot.toNat)) c.entries
    (slots.toList.take c.rows)
  padded : ∀ e ∈ slots.toList.drop c.rows, e = padding

/-- An index for an input that lists its slots in the order in which their entries come in `merged`. -/
structure Restores (s : MergeSet) (c : Chunk) (slots : Array UInt32) (merged : List UInt32) (index : Array UInt32) :
    Prop where
  size : index.size = c.index.size
  order : (index.toList.take c.rows).map UInt32.toNat =
    (merged.filter (· ∈ slots.toList)).map fun e => (s.locate e).2
  perm : (index.toList.take c.rows).Perm c.entries
  padded : ∀ e ∈ index.toList.drop c.rows, e = padding

theorem numbered_of_toList {s : MergeSet} {c : Chunk} (hc : c.Indexed) {offset n : Nat} {slots : Array UInt32}
    {f : UInt32 → UInt32} (hsize : slots.size = s.half)
    (hlist : slots.toList = c.entries.map f ++ List.replicate n padding)
    (hnumber : ∀ e ∈ c.entries, (f e).toNat = e.toNat + offset ∧ s.locate (f e) = (c, e.toNat)) :
    s.NumberedFrom c offset slots where
  size := hsize
  entries := by
    rw [hlist, List.take_left' (by rw [List.length_map, hc.length_entries]), List.forall₂_map_right_iff,
      List.forall₂_same]
    exact hnumber
  padded := by
    intro e he
    rw [hlist, List.drop_left' (by rw [List.length_map, hc.length_entries])] at he
    exact List.eq_of_mem_replicate he

namespace WellFormed

variable {s : MergeSet} (h : s.WellFormed)
include h

/-! ### Entries and what they stand for -/

theorem numbered_left : s.NumberedFrom s.x 0 s.leftSlots := by
  apply numbered_of_toList h.x.toIndexed (f := id) s.size_leftSlots
  · rw [List.map_id]
    exact h.toList_leftSlots
  · exact fun e he => ⟨rfl, (h.locate_left he).2⟩

theorem numbered_right : s.NumberedFrom s.y s.half s.rightSlots :=
  numbered_of_toList h.y.toIndexed s.size_rightSlots h.toList_rightSlots fun _ he =>
    ⟨h.toNat_shifted he, (h.locate_right he).2.2⟩

theorem nodup_joint : s.joint.Nodup := by
  have hright : (s.y.entries.map (· + UInt32.ofNat s.half)).Nodup := by
    apply h.y.nodup_entries.map_on
    intro e _ f _ hef
    rw [← UInt32.add_sub_cancel e (UInt32.ofNat s.half), ← UInt32.add_sub_cancel f (UInt32.ofNat s.half), hef]
  apply h.x.nodup_entries.append hright
  intro e hx hy
  obtain ⟨f, hf, rfl⟩ := List.mem_map.mp hy
  exact Nat.not_lt_of_le (h.locate_right hf).1 (h.locate_left hx).1

theorem lt_of_mem_joint {e : UInt32} (he : e ∈ s.joint) : e.toNat < 2 * s.half := by
  rcases List.mem_append.mp he with hx | hy
  · have hlt := (h.locate_left hx).1
    omega
  · obtain ⟨f, hf, rfl⟩ := List.mem_map.mp hy
    exact (h.locate_right hf).2.1

/-! ### Back to the indexes -/

section Restored

variable {merged : List UInt32} (hm : merged.Perm s.joint)
include hm

theorem filter_mem_slots {slots : Array UInt32} {numbered : List UInt32} {n : Nat} {p : UInt32 → Bool}
    (hlist : slots.toList = numbered ++ List.replicate n padding) (hnumbered : s.joint.filter p = numbered) :
    merged.filter (· ∈ slots.toList) = merged.filter p := by
  apply List.filter_congr
  intro e he
  have hjoint := hm.subset he
  rw [Bool.eq_iff_iff, decide_eq_true_iff, hlist, ← hnumbered, List.mem_append, List.mem_filter]
  constructor
  · rintro (⟨_, hp⟩ | hpadding)
    · exact hp
    · exact absurd (List.eq_of_mem_replicate hpadding) (h.ne_padding_of_mem_joint hjoint)
  · exact fun hp => .inl ⟨hjoint, hp⟩

omit h hm in
theorem restores_of_filter {c : Chunk} (hc : c.WellFormed) {slots : Array UInt32} {start stop : Nat}
    (hfilter : merged.filter (· ∈ slots.toList) = merged.filter fun e => start ≤ e.toNat && e.toNat < stop)
    (hperm : ((merged.filter fun e => start ≤ e.toNat && e.toNat < stop).map (· - UInt32.ofNat start)).Perm c.entries)
    (hslot : ∀ e ∈ merged.filter (fun e => start ≤ e.toNat && e.toNat < stop),
      (e - UInt32.ofNat start).toNat = (s.locate e).2) :
    s.Restores c slots merged (restoreIndex c.index.size merged start stop) where
  size := (hc.restored hperm).wellFormed.index_size.trans hc.index_size.symm
  order := by
    have hentries := hc.entries_restored hperm
    rw [Chunk.entries] at hentries
    rw [hentries, hfilter, List.map_map]
    exact List.map_congr_left hslot
  perm := (hc.restored hperm).entries
  padded := (hc.restored hperm).wellFormed.index_padding

theorem restores_left : s.Restores s.x s.leftSlots merged (restoreIndex s.x.index.size merged 0 s.half) := by
  apply restores_of_filter h.x (h.filter_mem_slots hm h.toList_leftSlots h.filter_left) (h.restored_entries_x hm)
  intro e he
  have hx := (hm.filter _).subset he
  rw [h.filter_left] at hx
  rw [(h.locate_left hx).2]
  exact congrArg UInt32.toNat (UInt32.sub_zero e)

theorem restores_right :
    s.Restores s.y s.rightSlots merged (restoreIndex s.y.index.size merged s.half (2 * s.half)) := by
  apply restores_of_filter h.y (h.filter_mem_slots hm h.toList_rightSlots h.filter_right) (h.restored_entries_y hm)
  intro e he
  have hy := (hm.filter _).subset he
  rw [h.filter_right] at hy
  obtain ⟨f, hf, rfl⟩ := List.mem_map.mp hy
  rw [(h.locate_right hf).2.2, UInt32.add_sub_cancel]

end Restored

end WellFormed

/-! ### The numbering -/

def numbers (s : MergeSet) : List UInt32 := (s.leftSlots.toList ++ s.rightSlots.toList).filter (· ≠ padding)

/-- Nothing is lost by numbering the inputs jointly: entries keep apart from each other and from the padding, lead
back to where they came from, and in any order give both indexes back. -/
structure Numbering (s : MergeSet) : Prop where
  left : s.NumberedFrom s.x 0 s.leftSlots
  right : s.NumberedFrom s.y s.half s.rightSlots
  nodup : s.numbers.Nodup
  below : ∀ e ∈ s.numbers, e.toNat < 2 * s.half
  half_le : 2 * s.half ≤ 2 ^ 31
  lt_padding : 2 ^ 31 < padding.toNat
  offset : (UInt32.ofNat s.half).toNat = s.half
  restores : ∀ merged, merged.Perm s.numbers →
    s.Restores s.x s.leftSlots merged (restoreIndex s.x.index.size merged 0 s.half) ∧
      s.Restores s.y s.rightSlots merged (restoreIndex s.y.index.size merged s.half (2 * s.half))

theorem numbering_exact (s : MergeSet) (hx : s.x.WellFormed) (hy : s.y.WellFormed) : s.Numbering := by
  -- The destinations play no part in the numbering, so the inputs stand in for them.
  have h : ({ s with low := s.x, high := s.y } : MergeSet).WellFormed := ⟨hx, hy, hx, hy⟩
  have hnumbers : s.numbers = s.joint := h.filter_slots
  have hhalf : s.half ≤ 2 ^ 30 := h.half_le
  refine ⟨?_, ?_, ?_, ?_, ?_, by decide, ?_, fun merged hm => ?_⟩
  · exact ⟨h.numbered_left.size, h.numbered_left.entries, h.numbered_left.padded⟩
  · exact ⟨h.numbered_right.size, h.numbered_right.entries, h.numbered_right.padded⟩
  · rw [hnumbers]
    exact h.nodup_joint
  · rw [hnumbers]
    exact fun e he => h.lt_of_mem_joint he
  · omega
  · exact UInt32.toNat_ofNat_of_lt' (Nat.lt_of_le_of_lt hhalf (by decide))
  · rw [hnumbers] at hm
    have hleft := h.restores_left hm
    have hright := h.restores_right hm
    exact ⟨⟨hleft.size, hleft.order, hleft.perm, hleft.padded⟩,
      ⟨hright.size, hright.order, hright.perm, hright.padded⟩⟩

def unevenInputs : MergeSet where
  x := { Chunk.empty 0 [] 8 none with rows := 3, index := #[2, 0, 1] ++ Array.replicate 5 padding }
  y := { Chunk.empty 1 [] 2 none with rows := 2, index := #[1, 0] }
  low := .empty 2 [] 8 none
  high := .empty 3 [] 8 none

theorem unevenInputs_wellFormed : unevenInputs.x.WellFormed ∧ unevenInputs.y.WellFormed where
  left :=
    { (Chunk.wellFormed_empty 0 [] (by decide) none : (Chunk.empty 0 [] 8 none).WellFormed) with
      rows_le := by decide
      index_size := by decide +kernel
      index_perm := by decide +kernel
      index_padding := fun _ he => List.eq_of_mem_replicate (n := 5) he
      resolves := fun _ hc => nomatch hc }
  right :=
    { (Chunk.wellFormed_empty 1 [] (by decide) none : (Chunk.empty 1 [] 2 none).WellFormed) with
      rows_le := by decide
      index_size := by decide +kernel
      index_perm := by decide +kernel
      index_padding := fun _ he => nomatch he
      resolves := fun _ hc => nomatch hc }

theorem numbering_exact_unevenInputs :
    unevenInputs.x.WellFormed ∧ unevenInputs.y.WellFormed ∧ unevenInputs.Numbering ∧
      unevenInputs.numbers = [2, 0, 1, 5, 4] ∧ [5, 2, 4, 0, 1].Perm unevenInputs.numbers ∧
      unevenInputs.Restores unevenInputs.x unevenInputs.leftSlots [5, 2, 4, 0, 1]
        (#[2, 0, 1] ++ Array.replicate 5 padding) := by
  obtain ⟨hx, hy⟩ := unevenInputs_wellFormed
  have hnumbers : unevenInputs.numbers = [2, 0, 1, 5, 4] := by decide +kernel
  have hperm : [5, 2, 4, 0, 1].Perm unevenInputs.numbers := by
    rw [hnumbers]
    decide
  have hnumbering := numbering_exact unevenInputs hx hy
  have hindex : restoreIndex unevenInputs.x.index.size [5, 2, 4, 0, 1] 0 unevenInputs.half =
      #[2, 0, 1] ++ Array.replicate 5 padding := by decide +kernel
  exact ⟨hx, hy, hnumbering, hnumbers, hperm, hindex ▸ (hnumbering.restores _ hperm).1⟩

end MergeSet
end ChunkSort
