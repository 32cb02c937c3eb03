import ChunkSort.Schedule
import ChunkSort.Proofs.Outcome
import Mathlib.Data.List.Perm.Basic

/-!
Turns arrange a list in every order and in no other way. So what holds of a list in all its orders holds
whatever the schedule is, and a collection succeeds or not whatever the schedule is.
-/

namespace ChunkSort

variable {α β ε : Type}

namespace Turns

@[simp] theorem arrange_nil (l : List α) : arrange [] l = l := rfl

theorem arrange_perm (turns : Turns) (l : List α) : (turns.arrange l).Perm l := by
  induction turns generalizing l with
  | nil => exact .refl l
  | cons turn turns ih =>
    unfold arrange
    split
    next a ha =>
      obtain ⟨hlt, rfl⟩ := List.getElem?_eq_some_iff.mp ha
      exact ((ih _).cons _).trans (List.getElem_cons_eraseIdx_perm hlt)
    next => exact ih l

@[simp] theorem mem_arrange {turns : Turns} {l : List α} {a : α} : a ∈ turns.arrange l ↔ a ∈ l :=
  (arrange_perm turns l).mem_iff

theorem exists_arrange_eq {l order : List α} (h : order.Perm l) : ∃ turns : Turns, turns.arrange l = order := by
  induction order generalizing l with
  | nil =>
    obtain rfl := List.nil_perm.mp h
    exact ⟨[], rfl⟩
  | cons a order ih =>
    obtain ⟨turn, hlt, rfl⟩ := List.getElem_of_mem (h.mem_iff.mp List.mem_cons_self)
    obtain ⟨turns, hturns⟩ := ih ((h.trans (List.getElem_cons_eraseIdx_perm hlt).symm).cons_inv)
    refine ⟨turn :: turns, ?_⟩
    simp only [arrange, List.getElem?_eq_getElem hlt, hturns]

theorem arrange_map (turns : Turns) (f : α → β) (l : List α) : turns.arrange (l.map f) = (turns.arrange l).map f := by
  induction turns generalizing l with
  | nil => rfl
  | cons turn turns ih =>
    unfold arrange
    rw [List.getElem?_map]
    cases l[turn]? with
    | none => exact ih l
    | some a => simp only [Option.map_some, List.eraseIdx_map, ih, List.map_cons]

theorem forall₂_arrange {R : α → β → Prop} (turns : Turns) {l : List α} {l' : List β} (h : List.Forall₂ R l l') :
    List.Forall₂ R (turns.arrange l) (turns.arrange l') := by
  induction turns generalizing l l' with
  | nil => exact h
  | cons turn turns ih =>
    unfold arrange
    by_cases hlt : turn < l.length
    · have hlt' : turn < l'.length := h.length_eq ▸ hlt
      rw [List.getElem?_eq_getElem hlt, List.getElem?_eq_getElem hlt', List.eraseIdx_eq_take_drop_succ,
        List.eraseIdx_eq_take_drop_succ]
      refine .cons (h.get hlt hlt') (ih ?_)
      exact List.rel_append (List.forall₂_take _ h) (List.forall₂_drop _ h)
    · rw [List.getElem?_eq_none (Nat.le_of_not_lt hlt), List.getElem?_eq_none (by rw [← h.length_eq]; omega)]
      exact ih h

end Turns

section Collect

variable {turns : Turns} {f : α → Except ε β} {l : List α}

theorem collect_eq_ok_iff {vs : List β} : collect turns f l = .ok vs ↔ l.mapM f = .ok vs := by
  unfold collect
  constructor
  · intro h
    cases hm : (turns.arrange l).mapM f with
    | error e => rw [hm] at h; cases h
    | ok us => rwa [hm] at h
  · intro h
    have hall : ∀ a ∈ turns.arrange l, ∃ b, f a = .ok b := fun a ha => by
      obtain ⟨b, -, hb⟩ := exists_right_of_forall₂ (mapM_eq_ok_iff.mp h) (Turns.mem_arrange.mp ha)
      exact ⟨b, hb⟩
    obtain ⟨us, hus⟩ := exists_forall₂ hall
    rw [mapM_eq_ok_iff.mpr hus]
    exact h

theorem exists_error_of_collect {e : ε} (h : collect turns f l = .error e) : ∃ a ∈ l, f a = .error e := by
  unfold collect at h
  cases hm : (turns.arrange l).mapM f with
  | error e' =>
    rw [hm] at h
    cases h
    obtain ⟨a, ha, he⟩ := exists_error_of_mapM hm
    exact ⟨a, Turns.mem_arrange.mp ha, he⟩
  | ok us =>
    rw [hm] at h
    exact exists_error_of_mapM h

@[simp] theorem collect_nil (f : α → Except ε β) (l : List α) : collect [] f l = l.mapM f := by
  unfold collect
  cases hm : l.mapM f <;> simp [hm, bind, Except.bind]

theorem collect_congr_forall₂ (turns : Turns) {α' : Type} {f' : α' → Except ε β} {l' : List α'}
    (h : List.Forall₂ (fun a a' => f' a' = f a) l l') : collect turns f' l' = collect turns f l := by
  unfold collect
  rw [mapM_congr_forall₂ h, mapM_congr_forall₂ (Turns.forall₂_arrange turns h)]

end Collect
end ChunkSort
