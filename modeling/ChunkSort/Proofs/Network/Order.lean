import ChunkSort.Proofs.Network.Conservation
import Mathlib.Tactic.ByContra

/-!
Lanes of one pass share no slot. So what each of them does is seen in the slots at the end, whichever comes first,
and a run whose lanes all answer ends in the same slots whatever the turns are.
-/

namespace ChunkSort

variable {α ε : Type}

/-- What the lane did to its slots, the exchange having answered. -/
def Exchanged (exchange : α → α → Except ε Bool) (slots t : Array α) (lane : Nat × Nat) : Prop :=
  ∃ a b, slots[lane.1]? = some a ∧ slots[lane.2]? = some b ∧
    ((exchange a b = .ok false ∧ t[lane.1]? = some a ∧ t[lane.2]? = some b) ∨
      (exchange a b = .ok true ∧ t[lane.1]? = some b ∧ t[lane.2]? = some a))

section Lanes

variable {exchange : α → α → Except ε Bool} {slots t : Array α}

theorem exchangeLane_ok {lane : Nat × Nat} (hlt : lane.1 < lane.2) (hsize : lane.2 < slots.size)
    (h : exchangeLane exchange slots lane = .ok t) :
    t.size = slots.size ∧ (∀ k, k ≠ lane.1 → k ≠ lane.2 → t[k]? = slots[k]?) ∧ Exchanged exchange slots t lane := by
  have hin : lane.1 < slots.size ∧ lane.2 < slots.size := ⟨Nat.lt_trans hlt hsize, hsize⟩
  have hfirst := Array.getElem?_eq_getElem hin.1
  have hsecond := Array.getElem?_eq_getElem hin.2
  rw [exchangeLane, dif_pos hin] at h
  split at h
  next he =>
    cases h
    refine ⟨Array.size_swap .., fun k h₁ h₂ => ?_, _, _, hfirst, hsecond, .inr ⟨he, ?_, ?_⟩⟩
    · rw [Array.getElem?_swap, if_neg (Ne.symm h₂), if_neg (Ne.symm h₁)]
    · rw [Array.getElem?_swap, if_neg (Nat.ne_of_gt hlt), if_pos rfl]
    · rw [Array.getElem?_swap, if_pos rfl]
  next he =>
    cases h
    exact ⟨rfl, fun _ _ _ => rfl, _, _, hfirst, hsecond, .inl ⟨he, hfirst, hsecond⟩⟩
  next => cases h

theorem foldlM_exchangeLane_ok {lanes : List (Nat × Nat)} (hapart : lanes.Pairwise Apart)
    (hin : ∀ l ∈ lanes, l.1 < l.2 ∧ l.2 < slots.size) (h : lanes.foldlM (exchangeLane exchange) slots = .ok t) :
    (∀ k, (∀ l ∈ lanes, k ≠ l.1 ∧ k ≠ l.2) → t[k]? = slots[k]?) ∧ ∀ l ∈ lanes, Exchanged exchange slots t l := by
  -- What the first lane did stays, since no other lane has one of its slots.
  induction lanes generalizing slots with
  | nil =>
    cases h
    exact ⟨fun _ _ => rfl, fun _ hl => absurd hl List.not_mem_nil⟩
  | cons l ls ih =>
    obtain ⟨hl, hls⟩ := List.pairwise_cons.mp hapart
    have hin₁ := hin l List.mem_cons_self
    rw [List.foldlM_cons] at h
    cases hs : exchangeLane exchange slots l with
    | error e => rw [hs] at h; cases h
    | ok s =>
      rw [hs] at h
      obtain ⟨hsize, hothers, hlane⟩ := exchangeLane_ok hin₁.1 hin₁.2 hs
      obtain ⟨hrest, hexchanged⟩ := ih hls (fun m hm => hsize ▸ hin m (.tail _ hm)) h
      refine ⟨fun k hk => ?_, fun m hm => ?_⟩
      · rw [hrest k fun m hm => hk m (.tail _ hm)]
        exact hothers k (hk l List.mem_cons_self).1 (hk l List.mem_cons_self).2
      rcases List.mem_cons.mp hm with rfl | hm
      · obtain ⟨a, b, ha, hb, hab⟩ := hlane
        have h₁ := hrest m.1 fun m' hm' => ⟨(hl m' hm').1, (hl m' hm').2.1⟩
        have h₂ := hrest m.2 fun m' hm' => ⟨(hl m' hm').2.2.1, (hl m' hm').2.2.2⟩
        exact ⟨a, b, ha, hb, by rwa [h₁, h₂]⟩
      · obtain ⟨a, b, ha, hb, hab⟩ := hexchanged m hm
        obtain ⟨h₁, h₂, h₃, h₄⟩ := hl m hm
        rw [hothers m.1 h₁.symm h₃.symm] at ha
        rw [hothers m.2 h₂.symm h₄.symm] at hb
        exact ⟨a, b, ha, hb, hab⟩

end Lanes

section Order

variable {exchange : α → α → Except ε Bool} {slots t : Array α} {lanes : List (Nat × Nat)}

theorem Exchanged.exchangeLane_eq {lane : Nat × Nat} (h : Exchanged exchange slots t lane) :
    ∃ s, exchangeLane exchange slots lane = .ok s ∧ s[lane.1]? = t[lane.1]? ∧ s[lane.2]? = t[lane.2]? := by
  obtain ⟨a, b, ha, hb, hab⟩ := h
  obtain ⟨h₁, rfl⟩ := Array.getElem?_eq_some_iff.mp ha
  obtain ⟨h₂, rfl⟩ := Array.getElem?_eq_some_iff.mp hb
  rw [exchangeLane, dif_pos ⟨h₁, h₂⟩]
  rcases hab with ⟨he, hta, htb⟩ | ⟨he, hta, htb⟩
  · exact ⟨slots, by simp only [he], ha.trans hta.symm, hb.trans htb.symm⟩
  · refine ⟨slots.swap lane.1 lane.2 h₁ h₂, by simp only [he], ?_, ?_⟩
    · rw [hta, Array.getElem?_swap]
      split
      next heq => simp only [heq]
      next => rw [if_pos rfl]
    · rw [htb, Array.getElem?_swap, if_pos rfl]

theorem foldlM_exchangeLane_eq_ok_iff (hapart : lanes.Pairwise Apart)
    (hin : ∀ l ∈ lanes, l.1 < l.2 ∧ l.2 < slots.size) :
    lanes.foldlM (exchangeLane exchange) slots = .ok t ↔
      (∀ k, (∀ l ∈ lanes, k ≠ l.1 ∧ k ≠ l.2) → t[k]? = slots[k]?) ∧ ∀ l ∈ lanes, Exchanged exchange slots t l := by
  refine ⟨foldlM_exchangeLane_ok hapart hin, ?_⟩
  rintro ⟨hothers, hlanes⟩
  induction lanes generalizing slots with
  | nil =>
    have heq : slots = t := Array.ext_getElem? fun k => (hothers k fun _ hl => absurd hl List.not_mem_nil).symm
    rw [List.foldlM_nil, heq]
    rfl
  | cons l ls ih =>
    obtain ⟨hl, hls⟩ := List.pairwise_cons.mp hapart
    have hin₁ := hin l List.mem_cons_self
    obtain ⟨s, hs, hfirst, hsecond⟩ := (hlanes l List.mem_cons_self).exchangeLane_eq
    obtain ⟨hsize, hkept, -⟩ := exchangeLane_ok hin₁.1 hin₁.2 hs
    rw [List.foldlM_cons, hs]
    refine ih hls (fun m hm => hsize ▸ hin m (.tail _ hm)) (fun k hk => ?_) fun m hm => ?_
    · by_cases h₁ : k = l.1
      · rw [h₁, hfirst]
      by_cases h₂ : k = l.2
      · rw [h₂, hsecond]
      · rw [hkept k h₁ h₂]
        exact hothers k (List.forall_mem_cons.mpr ⟨⟨h₁, h₂⟩, hk⟩)
    · obtain ⟨h₁, h₂, h₃, h₄⟩ := hl m hm
      rw [Exchanged, hkept _ h₁.symm h₃.symm, hkept _ h₂.symm h₄.symm]
      exact hlanes m (.tail _ hm)

theorem foldlM_exchangeLane_perm {lanes' : List (Nat × Nat)} (hperm : lanes'.Perm lanes)
    (hapart : lanes.Pairwise Apart) (hin : ∀ l ∈ lanes, l.1 < l.2 ∧ l.2 < slots.size) :
    lanes'.foldlM (exchangeLane exchange) slots = .ok t ↔ lanes.foldlM (exchangeLane exchange) slots = .ok t := by
  rw [foldlM_exchangeLane_eq_ok_iff hapart hin,
    foldlM_exchangeLane_eq_ok_iff (hperm.symm.pairwise hapart fun h => h.symm)
      fun l hl => hin l (hperm.mem_iff.mp hl)]
  simp only [hperm.mem_iff]

theorem exchangeLane_eq_error_iff {lane : Nat × Nat} {a b : α} (ha : slots[lane.1]? = some a)
    (hb : slots[lane.2]? = some b) {h : Halted α ε} :
    exchangeLane exchange slots lane = .error h ↔ ∃ error, exchange a b = .error error ∧ h = ⟨slots, .failed error⟩ := by
  obtain ⟨h₁, rfl⟩ := Array.getElem?_eq_some_iff.mp ha
  obtain ⟨h₂, rfl⟩ := Array.getElem?_eq_some_iff.mp hb
  rw [exchangeLane, dif_pos ⟨h₁, h₂⟩]
  rcases exchange slots[lane.1] slots[lane.2] with error | _ | _
  · simp [eq_comm]
  · simp
  · simp

theorem exists_of_foldlM_exchangeLane_eq_error {h : Halted α ε} (hapart : lanes.Pairwise Apart)
    (hin : ∀ l ∈ lanes, l.1 < l.2 ∧ l.2 < slots.size) (herr : lanes.foldlM (exchangeLane exchange) slots = .error h) :
    ∃ done lane rest error, lanes = done ++ lane :: rest ∧ done.foldlM (exchangeLane exchange) slots = .ok h.slots ∧
      exchangeLane exchange slots lane = .error ⟨slots, .failed error⟩ ∧ h.stop = .failed error := by
  -- No lane before had a slot of the one that failed, so it would have failed at once.
  obtain ⟨done, lane, rest, s, rfl, hdone, hlane⟩ := exists_of_foldlM_eq_error herr
  obtain ⟨hdoneApart, -, hcross⟩ := List.pairwise_append.mp hapart
  obtain ⟨hothers, -⟩ := foldlM_exchangeLane_ok hdoneApart (fun l hl => hin l (List.mem_append_left _ hl)) hdone
  obtain ⟨hlt, hsize⟩ := hin lane (List.mem_append_right _ List.mem_cons_self)
  have hapartLane : ∀ l ∈ done, Apart l lane := fun l hl => hcross l hl lane List.mem_cons_self
  have hfirst := hothers lane.1 fun l hl => ⟨(hapartLane l hl).1.symm, (hapartLane l hl).2.2.1.symm⟩
  have hsecond := hothers lane.2 fun l hl => ⟨(hapartLane l hl).2.1.symm, (hapartLane l hl).2.2.2.symm⟩
  have ha := Array.getElem?_eq_getElem (Nat.lt_trans hlt hsize)
  have hb := Array.getElem?_eq_getElem hsize
  obtain ⟨error, he, rfl⟩ := (exchangeLane_eq_error_iff (hfirst.trans ha) (hsecond.trans hb)).mp hlane
  exact ⟨done, lane, rest, error, rfl, hdone, (exchangeLane_eq_error_iff ha hb).mpr ⟨error, he, rfl⟩, rfl⟩

end Order

/-! ### Runs with turns -/

section Turns

variable {exchange : α → α → Except ε Bool} {live : Nat} {slots t : Array α}

theorem Pass.run_eq_ok_iff {p : Pass} {turns : Turns} :
    p.run exchange live slots turns = .ok t ↔ p.run exchange live slots = .ok t :=
  foldlM_exchangeLane_perm (turns.arrange_perm _) (p.lanes_apart ..) fun _ hl =>
    ⟨(Pass.lt_of_mem_lanes hl).1, Pass.lt_length_of_mem_lanes hl⟩

theorem runPasses_cons_eq_ok_iff {p : Pass} {passes : List Pass} {turns : Nat → Turns} :
    runPasses exchange live slots (p :: passes) turns = .ok t ↔ ∃ s, p.run exchange live slots (turns 0) = .ok s ∧
      runPasses exchange live s passes (fun pass => turns (pass + 1)) = .ok t :=
  except_bind_eq_ok

theorem runPasses_append (exchange : α → α → Except ε Bool) (live : Nat) (slots : Array α) (passes passes' : List Pass) :
    runPasses exchange live slots (passes ++ passes') =
      runPasses exchange live slots passes >>= fun s => runPasses exchange live s passes' := by
  induction passes generalizing slots with
  | nil => rfl
  | cons p passes ih =>
    rw [List.cons_append, runPasses, runPasses, bind_assoc]
    exact bind_congr fun s => ih s

theorem runPasses_eq_ok_iff {passes : List Pass} {turns : Nat → Turns} :
    runPasses exchange live slots passes turns = .ok t ↔ runPasses exchange live slots passes = .ok t := by
  induction passes generalizing slots turns with
  | nil => rfl
  | cons p passes ih =>
    rw [runPasses_cons_eq_ok_iff, runPasses_cons_eq_ok_iff]
    refine exists_congr fun s => ?_
    rw [Pass.run_eq_ok_iff, ih]
    rfl

end Turns
end ChunkSort
