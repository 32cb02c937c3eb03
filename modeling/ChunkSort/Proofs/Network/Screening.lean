import ChunkSort.Proofs.Network.Sorting

/-!
Runs of a network over entries that the exchange may fail on. A bad entry gets through a pass only opposite a slot
that stands for no row, and comes to the lower slot of its lane. An entry for a row comes to the lower slot of
every lane that has one, so in the passes of a stage a bad entry stays in one block with another row, and the
blocks get smaller until the two meet.
-/

namespace ChunkSort

variable {α ε : Type}

namespace Pass

theorem exists_place {p : Pass} {n : Nat} (hp : p.unit = n + n) {base k : Nat} (hk : base ≤ k) (hk' : k < base + p.unit) :
    ∃ r < p.unit / 2, k = base + r ∨ k = p.upper base r := by
  by_cases hlow : k < base + n
  · exact ⟨k - base, by omega, .inl (by omega)⟩
  · cases hf : p.flip
    · refine ⟨k - base - n, by omega, .inr ?_⟩
      simp only [upper, hf, Bool.false_eq_true, if_false]
      omega
    · refine ⟨n + n - 1 - (k - base), by omega, .inr ?_⟩
      simp only [upper, hf, if_true]
      omega

end Pass

/-! ### One pass -/

def Sinks (exchange : α → α → Except ε Bool) (S P : α → Prop) : Prop :=
  ∀ {a b}, S a → S b → P a ∨ P b → (exchange a b = .ok false → P a) ∧ (exchange a b = .ok true → P b)

/-- The exchange keeps what is not real behind all that is, and fails on two real entries of which one is bad. -/
structure Screens (exchange : α → α → Except ε Bool) (S real bad : α → Prop) : Prop where
  upper : ∀ {a b}, S b → ¬real b → exchange a b = .ok false
  lower : ∀ {a b}, S a → ¬real a → real b → exchange a b = .ok true
  fails : ∀ {a b}, real a → real b → bad a ∨ bad b → ∀ swap, exchange a b ≠ .ok swap

namespace Screens

variable {exchange : α → α → Except ε Bool} {S real bad : α → Prop} (h : Screens exchange S real bad)
include h

theorem real_sinks : Sinks exchange S real := by
  intro a b ha hb hab
  constructor
  · intro hfalse
    by_contra hna
    rw [h.lower ha hna (hab.resolve_left hna)] at hfalse
    cases hfalse
  · intro htrue
    by_contra hnb
    rw [h.upper hb hnb] at htrue
    cases htrue

theorem bad_sinks : Sinks exchange S fun a => real a ∧ bad a := by
  intro a b ha hb hab
  constructor
  · intro hfalse
    by_contra hna
    obtain ⟨hrb, hbb⟩ := hab.resolve_left hna
    by_cases hra : real a
    · exact h.fails hra hrb (.inr hbb) _ hfalse
    · rw [h.lower ha hra hrb] at hfalse
      cases hfalse
  · intro htrue
    by_contra hnb
    obtain ⟨hra, hba⟩ := hab.resolve_right hnb
    by_cases hrb : real b
    · exact h.fails hra hrb (.inl hba) _ htrue
    · rw [h.upper hb hrb] at htrue
      cases htrue

end Screens

def Occupied (P : α → Prop) (live : Nat) (slots : Array α) (k : Nat) : Prop := k < live ∧ ∃ a, slots[k]? = some a ∧ P a

section Run

variable {exchange : α → α → Except ε Bool} {S real bad : α → Prop} {live : Nat} {slots t : Array α}
  (hlive : live ≤ slots.size) {p : Pass} (h : p.run exchange live slots = .ok t)

section Lane

variable {block r : Nat} (hblock : (block + 1) * p.unit ≤ slots.size) (hr : r < p.unit / 2)
include hlive h hblock hr

theorem run_lane : if p.upper (block * p.unit) r < live
    then Exchanged exchange slots t (block * p.unit + r, p.upper (block * p.unit) r)
    else t[block * p.unit + r]? = slots[block * p.unit + r]? := by
  have hin : ∀ l ∈ p.lanes slots.size live, l.1 < l.2 ∧ l.2 < slots.size := fun l hl =>
    ⟨(Pass.lt_of_mem_lanes hl).1, Nat.lt_of_lt_of_le (Pass.lt_of_mem_lanes hl).2 hlive⟩
  obtain ⟨hothers, hlanes⟩ := foldlM_exchangeLane_ok (p.lanes_apart slots.size live) hin h
  split
  next hup => exact hlanes _ (Pass.mem_lanes_of_block hblock hr hup)
  next hup => exact hothers _ (Pass.notMem_lanes_of_le hr (Nat.le_of_not_lt hup))

theorem run_sinks {P : α → Prop} (hP : Sinks exchange S P) (hS : ∀ a ∈ liveEntries slots live, S a)
    (hocc : Occupied P live slots (block * p.unit + r) ∨ Occupied P live slots (p.upper (block * p.unit) r)) :
    Occupied P live t (block * p.unit + r) := by
  have hbounds := p.upper_bounds (block * p.unit) hr
  have hlane := run_lane hlive h hblock hr
  split at hlane
  next hup =>
    obtain ⟨a, b, ha, hb, hab⟩ := hlane
    have hlow : block * p.unit + r < live := by omega
    have hmem : ∀ k c, k < live → slots[k]? = some c → S c := by
      intro k c hk hc
      obtain ⟨hsize, rfl⟩ := Array.getElem?_eq_some_iff.mp hc
      exact hS _ (getElem_mem_liveEntries hsize hk)
    have hPab : P a ∨ P b := by
      rcases hocc with ⟨_, a', ha', hPa⟩ | ⟨_, b', hb', hPb⟩
      · exact .inl (Option.some.inj (ha'.symm.trans ha) ▸ hPa)
      · exact .inr (Option.some.inj (hb'.symm.trans hb) ▸ hPb)
    obtain ⟨hfalse, htrue⟩ := hP (hmem _ _ hlow ha) (hmem _ _ hup hb) hPab
    rcases hab with ⟨he, hta, _⟩ | ⟨he, htb, _⟩
    · exact ⟨hlow, a, hta, hfalse he⟩
    · exact ⟨hlow, b, htb, htrue he⟩
  next hup =>
    rcases hocc with ⟨hlow, a, ha, hPa⟩ | ⟨hup', _⟩
    · exact ⟨hlow, a, hlane.trans ha, hPa⟩
    · exact absurd hup' hup

theorem run_apart (hs : Screens exchange S real bad) (hlow : Occupied real live slots (block * p.unit + r))
    (hup : Occupied real live slots (p.upper (block * p.unit) r)) :
    ¬(Occupied (fun a => real a ∧ bad a) live slots (block * p.unit + r) ∨
      Occupied (fun a => real a ∧ bad a) live slots (p.upper (block * p.unit) r)) := by
  -- The pass went through, so the exchange did not fail on this lane.
  have hlane := run_lane hlive h hblock hr
  obtain ⟨_, a, ha, hra⟩ := hlow
  obtain ⟨hlt, b, hb, hrb⟩ := hup
  rw [if_pos hlt] at hlane
  obtain ⟨a', b', ha', hb', hab⟩ := hlane
  obtain rfl : a = a' := Option.some.inj (ha.symm.trans ha')
  obtain rfl : b = b' := Option.some.inj (hb.symm.trans hb')
  have hfails : ¬(bad a ∨ bad b) := fun hbad =>
    hab.elim (fun he => hs.fails hra hrb hbad _ he.1) fun he => hs.fails hra hrb hbad _ he.1
  rintro (⟨_, c, hc, _, hbad⟩ | ⟨_, c, hc, _, hbad⟩)
  · exact hfails (.inl (Option.some.inj (hc.symm.trans ha) ▸ hbad))
  · exact hfails (.inr (Option.some.inj (hc.symm.trans hb) ▸ hbad))

end Lane

/-- The segment of slots holds a bad entry, and another row. -/
def Infected (real bad : α → Prop) (live : Nat) (slots : Array α) (base n : Nat) : Prop :=
  ∃ i < n, ∃ j < n, i ≠ j ∧ Occupied (fun a => real a ∧ bad a) live slots (base + i) ∧
    Occupied real live slots (base + j)

include hlive h in
theorem run_infected (hs : Screens exchange S real bad) (hS : ∀ a ∈ liveEntries slots live, S a) {n : Nat}
    (hn : p.unit = n + n) (block : Nat) (hblock : (block + 1) * (n + n) ≤ slots.size)
    (hinf : Infected real bad live slots (block * (n + n)) (n + n)) : Infected real bad live t (block * (n + n)) n := by
  -- The two are in different lanes, and what is real sinks to the lower slot of its lane.
  obtain ⟨i, hi, j, hj, hij, hbad, hreal⟩ := hinf
  rw [← hn] at hblock hi hj hbad hreal ⊢
  have hhalf : p.unit / 2 = n := by omega
  obtain ⟨r, hr, hir⟩ := Pass.exists_place hn (Nat.le_add_right (block * p.unit) i) (by omega)
  obtain ⟨q, hq, hjq⟩ := Pass.exists_place hn (Nat.le_add_right (block * p.unit) j) (by omega)
  have hne : r ≠ q := by
    rintro rfl
    have hbad' := hbad
    obtain ⟨hlt, a, ha, hra, hba⟩ := hbad
    -- Two places of one lane, both with a row.
    rcases hir with hir | hir <;> rcases hjq with hjq | hjq
    · omega
    · exact run_apart hlive h hblock hr hs (hir ▸ ⟨hlt, a, ha, hra⟩) (hjq ▸ hreal) (.inl (hir ▸ hbad'))
    · exact run_apart hlive h hblock hr hs (hjq ▸ hreal) (hir ▸ ⟨hlt, a, ha, hra⟩) (.inr (hir ▸ hbad'))
    · omega
  refine ⟨r, hhalf ▸ hr, q, hhalf ▸ hq, hne, ?_, ?_⟩
  · apply run_sinks hlive h hblock hr hs.bad_sinks hS
    rcases hir with hir | hir
    · exact .inl (hir ▸ hbad)
    · exact .inr (hir ▸ hbad)
  · apply run_sinks hlive h hblock hq hs.real_sinks hS
    rcases hjq with hjq | hjq
    · exact .inl (hjq ▸ hreal)
    · exact .inr (hjq ▸ hreal)

end Run

/-! ### Whole runs -/

theorem runPasses_cons_ok {exchange : α → α → Except ε Bool} {live : Nat} {slots t : Array α} {p : Pass} {ps : List Pass}
    (h : runPasses exchange live slots (p :: ps) = .ok t) :
    ∃ u, p.run exchange live slots = .ok u ∧ Shuffled live slots u ∧ runPasses exchange live u ps = .ok t := by
  obtain ⟨u, hu, hrest⟩ := runPasses_cons_eq_ok_iff.mp h
  exact ⟨u, hu, (run_outcome exchange live (.refl live slots) p []).of_ok hu, hrest⟩

theorem exists_occupied_of_mem {P : α → Prop} {live : Nat} {slots : Array α} {a : α} (ha : a ∈ liveEntries slots live)
    (hP : P a) : ∃ i < slots.size, Occupied P live slots i := by
  rw [liveEntries, List.mem_take_iff_getElem] at ha
  obtain ⟨i, hi, rfl⟩ := ha
  rw [Array.length_toList] at hi
  exact ⟨i, by omega, by omega, _, Array.getElem?_eq_getElem (by omega), hP⟩

section Stages

variable {exchange : α → α → Except ε Bool} {S real bad : α → Prop} {live : Nat} {slots : Array α}
  (hs : Screens exchange S real bad)
include hs

theorem runPasses_forwardPasses_infected (k : Nat) (hlive : live ≤ slots.size) (hS : ∀ a ∈ liveEntries slots live, S a)
    (block : Nat) (hblock : (block + 1) * 1 <<< k ≤ slots.size)
    (hinf : Infected real bad live slots (block * 1 <<< k) (1 <<< k)) (t : Array α) :
    runPasses exchange live slots (forwardPasses k) ≠ .ok t := by
  induction k generalizing slots block with
  | zero =>
    obtain ⟨i, hi, j, hj, hij, _⟩ := hinf
    simp only [Nat.shiftLeft_zero] at hi hj
    omega
  | succ k ih =>
    rw [forwardPasses_succ]
    intro hok
    obtain ⟨u, hu, hsh, hrest⟩ := runPasses_cons_ok hok
    rw [one_shiftLeft_succ] at hblock hinf
    obtain ⟨e₁, _, hlow, _⟩ := half_blocks hblock
    have hinf' := run_infected hlive hu hs hS rfl block hblock hinf
    rw [e₁] at hinf'
    exact ih (by rwa [hsh.size_eq]) (hsh.mem_live hS) (2 * block) (by rwa [hsh.size_eq]) hinf' hrest

theorem runPasses_stagePasses_infected (k : Nat) (hlive : live ≤ slots.size) (hS : ∀ a ∈ liveEntries slots live, S a)
    (hsize : slots.size = 1 <<< k + 1 <<< k) (hinf : Infected real bad live slots 0 (1 <<< k + 1 <<< k)) (t : Array α) :
    runPasses exchange live slots (stagePasses k) ≠ .ok t := by
  intro hok
  obtain ⟨u, hu, hsh, hrest⟩ := runPasses_cons_ok hok
  have hinf' := run_infected hlive hu hs hS rfl 0 (by omega) (by rwa [Nat.zero_mul])
  refine runPasses_forwardPasses_infected hs k (by rwa [hsh.size_eq]) (hsh.mem_live hS) 0 ?_ ?_ t hrest
  · rw [hsh.size_eq]
    omega
  · rwa [Nat.zero_mul] at hinf' ⊢

theorem runPasses_sortSchedule_bad {k : Nat} (hsize : slots.size = 1 <<< k) (hlive : live ≤ slots.size)
    (hS : ∀ a ∈ liveEntries slots live, S a ∧ real a) (htwo : 2 ≤ live) {a : α} (ha : a ∈ liveEntries slots live)
    (hbad : bad a) (t : Array α) (turns : Nat → Turns) :
    runPasses exchange live slots (sortSchedule slots.size) turns ≠ .ok t := by
  -- Whatever the stages before do, the last one brings the bad entry together with another row.
  rw [hsize, ne_eq, runPasses_eq_ok_iff]
  cases k with
  | zero =>
    rw [hsize, Nat.shiftLeft_zero] at hlive
    omega
  | succ k =>
    rw [sortSchedule_succ, runPasses_append, except_bind_eq_ok]
    rintro ⟨u, hr, hok⟩
    have hfirst := (runPasses_outcome exchange live slots (sortSchedule (1 <<< k)) inTurn).of_ok hr
    have hreal : ∀ b ∈ liveEntries u live, S b ∧ real b := hfirst.mem_live hS
    have hmem : a ∈ liveEntries u live := hfirst.perm.mem_iff.mpr ha
    obtain ⟨i, hi, hocc⟩ := exists_occupied_of_mem (P := fun b => real b ∧ bad b) hmem ⟨(hreal a hmem).2, hbad⟩
    rw [one_shiftLeft_succ] at hsize
    rw [hfirst.size_eq, hsize] at hi
    -- Any other live slot will do.
    obtain ⟨j, hj, hij⟩ : ∃ j < live, i ≠ j := by
      by_cases hz : i = 0
      · exact ⟨1, by omega, by omega⟩
      · exact ⟨0, by omega, hz⟩
    have hju : j < u.size := by rw [hfirst.size_eq]; omega
    have hother : Occupied real live u (0 + j) :=
      ⟨by omega, u[j], by rw [Nat.zero_add]; exact Array.getElem?_eq_getElem hju,
        (hreal _ (getElem_mem_liveEntries hju hj)).2⟩
    refine runPasses_stagePasses_infected hs k (by rwa [hfirst.size_eq]) (fun b hb => (hreal b hb).1)
      (by rwa [hfirst.size_eq]) ⟨i, hi, j, by omega, hij, ?_, hother⟩ t hok
    rwa [Nat.zero_add]

end Stages
end ChunkSort
