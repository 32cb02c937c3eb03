import Mathlib.Data.List.Chain
import ChunkSort.Chunk.Basic
import ChunkSort.Proofs.Row

/-!
The greedy division of a sequence of rows: a chunk takes what comes next for as long as it fits, and is closed
in front of the first one that does not.
-/

namespace ChunkSort

namespace Layout

variable (l : Layout)

def Fits (lengths : List Nat) : Prop :=
  lengths.length ≤ l.capacity ∧ ∀ limit ∈ l.sideLimit, totalLength lengths ≤ limit

instance (lengths : List Nat) : Decidable (l.Fits lengths) := inferInstanceAs (Decidable (_ ∧ _))

variable {l}

theorem Fits.sublist {xs ys : List Nat} (h : l.Fits ys) (hs : xs.Sublist ys) : l.Fits xs :=
  ⟨Nat.le_trans hs.length_le h.1, fun limit hl => Nat.le_trans (totalLength_le_of_sublist hs) (h.2 limit hl)⟩

theorem fits_singleton_iff {n : Nat} : l.Fits [n] ↔ ∀ limit ∈ l.sideLimit, n ≤ limit :=
  and_iff_right l.capacity_pos

variable {α β : Type}

variable (l) in
/-- What comes is divided into chunks, the first of which holds `opened` already. -/
def packFrom (size : α → Nat) (opened : List α) : List α → List (List α)
  | [] => if opened.isEmpty then [] else [opened]
  | a :: as =>
    if l.Fits ((opened ++ [a]).map size) then packFrom size (opened ++ [a]) as else opened :: packFrom size [a] as

variable (l) in
def pack (size : α → Nat) (as : List α) : List (List α) := l.packFrom size [] as

variable {size : α → Nat} {opened : List α}

theorem packFrom_append {as : List α} (h : l.Fits ((opened ++ as).map size)) (more : List α) :
    l.packFrom size opened (as ++ more) = l.packFrom size (opened ++ as) more := by
  induction as generalizing opened with
  | nil => rw [List.nil_append, List.append_nil]
  | cons a as ih =>
    rw [List.append_cons] at h ⊢
    have hfirst : l.Fits ((opened ++ [a]).map size) := h.sublist ((List.sublist_append_left _ as).map size)
    rw [List.cons_append, packFrom, if_pos hfirst, ih h]

theorem packFrom_close {a : α} (h : ¬l.Fits ((opened ++ [a]).map size)) (ha : l.Fits [size a]) (as : List α) :
    l.packFrom size opened (a :: as) = opened :: l.packFrom size [] (a :: as) := by
  have hfirst : l.packFrom size [] ([a] ++ as) = l.packFrom size [a] as := packFrom_append ha as
  rw [packFrom, if_neg h, ← hfirst]
  rfl

theorem flatten_packFrom (size : α → Nat) (opened as : List α) : (l.packFrom size opened as).flatten = opened ++ as := by
  induction as generalizing opened with
  | nil =>
    rw [packFrom, List.append_nil]
    split
    next he => rw [List.isEmpty_iff.mp he, List.flatten_nil]
    next => rw [List.flatten_singleton]
  | cons a as ih =>
    rw [packFrom]
    split
    next => rw [ih, ← List.append_cons]
    next => rw [List.flatten_cons, ih, List.singleton_append]

theorem pack_eq_nil_iff {as : List α} : l.pack size as = [] ↔ as = [] := by
  constructor
  · intro h
    exact (flatten_packFrom size [] as).symm.trans (congrArg List.flatten h)
  · rintro rfl
    rfl

theorem exists_packFrom_eq_cons (size : α → Nat) (a : α) (opened as : List α) :
    ∃ more groups, l.packFrom size (a :: opened) as = (a :: more) :: groups := by
  induction as generalizing opened with
  | nil => exact ⟨opened, [], rfl⟩
  | cons b as ih =>
    rw [packFrom]
    split
    next => exact ih (opened ++ [b])
    next => exact ⟨opened, _, rfl⟩

theorem isChain_packFrom (size : α → Nat) (opened as : List α) :
    (l.packFrom size opened as).IsChain fun xs ys => ∃ a ∈ ys.head?, ¬l.Fits ((xs ++ [a]).map size) := by
  induction as generalizing opened with
  | nil =>
    rw [packFrom]
    split
    next => exact .nil
    next => exact .singleton opened
  | cons a as ih =>
    rw [packFrom]
    split
    next => exact ih (opened ++ [a])
    next hfull =>
      have hrest := ih [a]
      obtain ⟨more, groups, heq⟩ := exists_packFrom_eq_cons (l := l) size a [] as
      rw [heq] at hrest ⊢
      exact .cons_cons ⟨a, rfl, hfull⟩ hrest

theorem map_packFrom (f : α → β) (size : β → Nat) (opened as : List α) :
    (l.packFrom (size ∘ f) opened as).map (List.map f) = l.packFrom size (opened.map f) (as.map f) := by
  induction as generalizing opened with
  | nil =>
    rw [packFrom, List.map_nil, packFrom, List.isEmpty_map]
    split <;> rfl
  | cons a as ih =>
    have hfits : (opened ++ [a]).map (size ∘ f) = (opened.map f ++ [f a]).map size := by
      rw [← List.map_map, List.map_append, List.map_singleton]
    rw [packFrom, List.map_cons, packFrom, hfits]
    split
    next => rw [ih, List.map_append, List.map_singleton]
    next => rw [List.map_cons, ih, List.map_singleton]

end Layout
end ChunkSort
