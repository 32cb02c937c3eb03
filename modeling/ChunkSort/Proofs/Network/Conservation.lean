import ChunkSort.Proofs.Network.Lanes
import ChunkSort.Proofs.Schedule
import Mathlib.Data.List.Perm.Subperm

/-!
What a run of passes keeps, whatever the exchange answers: the live slots keep their entries up to order, the
others are not touched, and the exchange is asked about live entries only.
-/

namespace ChunkSort

variable {α ε : Type}

/-- The slots below `live` hold the same entries in some order, all others are the same. -/
structure Shuffled (live : Nat) (a b : Array α) : Prop where
  perm : (b.toList.take live).Perm (a.toList.take live)
  drop : b.toList.drop live = a.toList.drop live

namespace Shuffled

variable {live : Nat} {a b c : Array α}

theorem refl (live : Nat) (a : Array α) : Shuffled live a a := ⟨.refl _, rfl⟩

theorem trans (h : Shuffled live a b) (h' : Shuffled live b c) : Shuffled live a c :=
  ⟨h'.perm.trans h.perm, h'.drop.trans h.drop⟩

theorem size_eq (h : Shuffled live a b) : b.size = a.size := by
  have ht := h.perm.length_eq
  have hd := congrArg List.length h.drop
  simp only [List.length_take, List.length_drop, Array.length_toList] at ht hd
  omega

theorem toList_perm (h : Shuffled live a b) : b.toList.Perm a.toList := by
  rw [← List.take_append_drop live b.toList, ← List.take_append_drop live a.toList, h.drop]
  exact h.perm.append_right _

end Shuffled

theorem shuffled_swap {live : Nat} {slots : Array α} {i j : Nat} (hi : i < slots.size) (hj : j < slots.size)
    (hil : i < live) (hjl : j < live) : Shuffled live slots (slots.swap i j hi hj) := by
  have hit : i < (slots.toList.take live).length := by simp; omega
  have hjt : j < (slots.toList.take live).length := by simp; omega
  constructor
  · rw [Array.toList_swap, List.take_set, List.take_set]
    simpa using List.set_set_perm hit hjt
  · rw [Array.toList_swap, List.drop_set_of_lt hjl, List.drop_set_of_lt hil]

def liveEntries (slots : Array α) (live : Nat) : List α := slots.toList.take live

theorem getElem_mem_liveEntries {slots : Array α} {live i : Nat} (hi : i < slots.size) (hl : i < live) :
    slots[i] ∈ liveEntries slots live := by
  rw [liveEntries, List.mem_take_iff_getElem]
  exact ⟨i, by simp; omega, by simp⟩

theorem pair_subperm_liveEntries {slots : Array α} {live i j : Nat} (hij : i < j) (hj : j < slots.size) (hl : j < live) :
    [slots[i], slots[j]].Subperm (liveEntries slots live) := by
  have hlen : j < (liveEntries slots live).length := by simp [liveEntries]; omega
  let places : List (Fin (liveEntries slots live).length) := [⟨i, Nat.lt_trans hij hlen⟩, ⟨j, hlen⟩]
  have hsub : (places.map ((liveEntries slots live)[·])).Sublist (liveEntries slots live) :=
    List.map_getElem_sublist (List.pairwise_pair.mpr hij)
  simp only [places, List.map_cons, List.map_nil, Fin.getElem_fin, liveEntries, List.getElem_take,
    Array.getElem_toList] at hsub
  exact hsub.subperm

structure HaltedFrom (exchange : α → α → Except ε Bool) (live : Nat) (slots : Array α)
    (h : Halted α ε) : Prop where
  shuffled : Shuffled live slots h.slots
  failed : ∃ a b error, [a, b].Subperm (liveEntries slots live) ∧ exchange a b = .error error ∧ h.stop = .failed error

variable (exchange : α → α → Except ε Bool) (live : Nat)

theorem exchangeLane_outcome {slots s : Array α} (hs : Shuffled live slots s) {lane : Nat × Nat}
    (h₁ : lane.1 < lane.2) (h₂ : lane.2 < live) (h₃ : lane.2 < s.size) :
    Outcome (Shuffled live slots) (HaltedFrom exchange live slots) (exchangeLane exchange s lane) := by
  have hin : lane.1 < s.size ∧ lane.2 < s.size := ⟨Nat.lt_trans h₁ h₃, h₃⟩
  have hpair := hs.perm.subperm_left.mp (pair_subperm_liveEntries h₁ h₃ h₂)
  rw [exchangeLane, dif_pos hin]
  split
  next => exact hs.trans (shuffled_swap hin.1 hin.2 (Nat.lt_trans h₁ h₂) h₂)
  next => exact hs
  next error he => exact ⟨hs, _, _, error, hpair, he, rfl⟩

theorem lanes_outcome {slots s : Array α} (hs : Shuffled live slots s) {p : Pass} {lanes : List (Nat × Nat)}
    (hlanes : ∀ lane ∈ lanes, lane ∈ p.lanes slots.size live) :
    Outcome (Shuffled live slots) (HaltedFrom exchange live slots) (lanes.foldlM (exchangeLane exchange) s) := by
  apply Outcome.foldlM _ _ hs
  intro t lane hl ht
  have hlane := hlanes lane hl
  have hlt := Pass.lt_of_mem_lanes hlane
  exact exchangeLane_outcome exchange live ht hlt.1 hlt.2 (ht.size_eq ▸ Pass.lt_length_of_mem_lanes hlane)

theorem run_outcome {slots s : Array α} (hs : Shuffled live slots s) (p : Pass) (turns : Turns) :
    Outcome (Shuffled live slots) (HaltedFrom exchange live slots) (p.run exchange live s turns) := by
  apply lanes_outcome exchange live hs
  intro lane hlane
  rwa [Turns.mem_arrange, hs.size_eq] at hlane

theorem runPasses_outcome_of_shuffled {slots s : Array α} (hs : Shuffled live slots s) (passes : List Pass)
    (turns : Nat → Turns) :
    Outcome (Shuffled live slots) (HaltedFrom exchange live slots) (runPasses exchange live s passes turns) := by
  induction passes generalizing s turns with
  | nil => exact hs
  | cons p passes ih => exact (run_outcome exchange live hs p _).bind fun t ht => ih ht _

theorem runPasses_outcome (slots : Array α) (passes : List Pass) (turns : Nat → Turns) :
    Outcome (Shuffled live slots) (HaltedFrom exchange live slots) (runPasses exchange live slots passes turns) :=
  runPasses_outcome_of_shuffled exchange live (.refl live slots) passes turns

section Congr

variable {exchange live} {exchange' : α → α → Except ε Bool} {slots : Array α}
  (agree : ∀ a ∈ liveEntries slots live, ∀ b ∈ liveEntries slots live, exchange a b = exchange' a b)
include agree

theorem run_congr {s : Array α} (hs : Shuffled live slots s) (p : Pass) (turns : Turns) :
    p.run exchange live s turns = p.run exchange' live s turns := by
  apply Outcome.foldlM_congr (I := Shuffled live slots) (E := HaltedFrom exchange live slots) _ _ _ hs
  all_goals
    intro t lane hl ht
    rw [Turns.mem_arrange, hs.size_eq] at hl
    have hlt := Pass.lt_of_mem_lanes hl
    have hsize : lane.2 < t.size := ht.size_eq ▸ Pass.lt_length_of_mem_lanes hl
  · exact exchangeLane_outcome exchange live ht hlt.1 hlt.2 hsize
  · have hin : lane.1 < t.size ∧ lane.2 < t.size := ⟨Nat.lt_trans hlt.1 hsize, hsize⟩
    have ha := ht.perm.mem_iff.mp (getElem_mem_liveEntries hin.1 (Nat.lt_trans hlt.1 hlt.2))
    have hb := ht.perm.mem_iff.mp (getElem_mem_liveEntries hin.2 hlt.2)
    rw [exchangeLane, exchangeLane, dif_pos hin, dif_pos hin, agree _ ha _ hb]

theorem runPasses_congr_of_shuffled {s : Array α} (hs : Shuffled live slots s) (passes : List Pass)
    (turns : Nat → Turns) : runPasses exchange live s passes turns = runPasses exchange' live s passes turns := by
  induction passes generalizing s turns with
  | nil => rfl
  | cons p passes ih =>
    rw [runPasses, runPasses, ← run_congr agree hs p]
    have hrun := run_outcome exchange live hs p (turns 0)
    cases hp : p.run exchange live s (turns 0) with
    | error h => rfl
    | ok t => exact ih (hrun.of_ok hp) _

theorem runPasses_congr (passes : List Pass) (turns : Nat → Turns) :
    runPasses exchange live slots passes turns = runPasses exchange' live slots passes turns :=
  runPasses_congr_of_shuffled agree (.refl live slots) passes turns

end Congr
end ChunkSort
