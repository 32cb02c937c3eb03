import ChunkSort.Proofs.Network.Lanes
import ChunkSort.Proofs.PowerOfTwo

/-!
Bitonic networks on bits. A pass over a block that is bitonic, or whose halves are sorted, leaves two bitonic
halves, and one of them is constant: the lower one with zeros or the upper one with ones. Later passes stay
inside the halves, so by induction the block ends up sorted.
-/

namespace ChunkSort

def exchangeBits (b : Nat → Bool) (lane : Nat × Nat) (k : Nat) : Bool :=
  if k = lane.1 then b lane.1 && b lane.2 else if k = lane.2 then b lane.1 || b lane.2 else b k

theorem exchangeBits_of_le {b : Nat → Bool} {i j : Nat} (h : b i = true → b j = true) : exchangeBits b (i, j) = b := by
  funext k
  unfold exchangeBits
  split
  next hki =>
    subst hki
    cases hb : b k with
    | false => rfl
    | true => simp [h hb]
  next =>
    split
    next hkj =>
      subst hkj
      cases hb : b i with
      | false => rfl
      | true => simp [h hb]
    next => rfl

theorem exchangeBits_of_ge {b : Nat → Bool} {i j : Nat} (h : b j = true → b i = true) (k : Nat) :
    exchangeBits b (i, j) k = if k = i then b j else if k = j then b i else b k := by
  unfold exchangeBits
  cases hb : b j with
  | false => simp
  | true => simp [h hb]

theorem foldl_exchangeBits_of_notMem {lanes : List (Nat × Nat)} {b : Nat → Bool} {k : Nat}
    (h : ∀ l ∈ lanes, k ≠ l.1 ∧ k ≠ l.2) : lanes.foldl exchangeBits b k = b k := by
  induction lanes generalizing b with
  | nil => rfl
  | cons m ms ih =>
    rw [List.foldl_cons, ih fun l hl => h l (List.mem_cons_of_mem _ hl)]
    have hm := h m (List.mem_cons_self ..)
    rw [exchangeBits, if_neg hm.1, if_neg hm.2]

theorem foldl_exchangeBits_of_mem {lanes : List (Nat × Nat)} (hapart : lanes.Pairwise Apart)
    (hlt : ∀ l ∈ lanes, l.1 < l.2) {b : Nat → Bool} {l : Nat × Nat} (hl : l ∈ lanes) :
    lanes.foldl exchangeBits b l.1 = (b l.1 && b l.2) ∧
      lanes.foldl exchangeBits b l.2 = (b l.1 || b l.2) := by
  induction lanes generalizing b with
  | nil => cases hl
  | cons m ms ih =>
    obtain ⟨hm, hms⟩ := List.pairwise_cons.mp hapart
    rw [List.foldl_cons]
    rcases List.mem_cons.mp hl with rfl | hl
    · have hne : l.2 ≠ l.1 := Nat.ne_of_gt (hlt l (List.mem_cons_self ..))
      rw [foldl_exchangeBits_of_notMem fun m h => ⟨(hm m h).1, (hm m h).2.1⟩,
        foldl_exchangeBits_of_notMem fun m h => ⟨(hm m h).2.2.1, (hm m h).2.2.2⟩]
      simp only [exchangeBits, if_true, if_neg hne, and_self]
    · obtain ⟨h₁, h₂, h₃, h₄⟩ := hm l hl
      have key := ih hms (fun l h => hlt l (List.mem_cons_of_mem _ h)) (b := exchangeBits b m) hl
      have e₁ : exchangeBits b m l.1 = b l.1 := by rw [exchangeBits, if_neg h₁.symm, if_neg h₃.symm]
      have e₂ : exchangeBits b m l.2 = b l.2 := by rw [exchangeBits, if_neg h₂.symm, if_neg h₄.symm]
      rwa [e₁, e₂] at key

/-- The bits `b'` come from `b` by one pass over all whole blocks of `size` slots. -/
def Pass.Acts (p : Pass) (size : Nat) (b b' : Nat → Bool) : Prop :=
  ∀ block, (block + 1) * p.unit ≤ size → ∀ r < p.unit / 2,
    b' (block * p.unit + r) = (b (block * p.unit + r) && b (p.upper (block * p.unit) r)) ∧
      b' (p.upper (block * p.unit) r) = (b (block * p.unit + r) || b (p.upper (block * p.unit) r))

def ActsAll (size : Nat) : List Pass → (Nat → Bool) → (Nat → Bool) → Prop
  | [], b, b' => b = b'
  | p :: ps, b, b' => ∃ c, p.Acts size b c ∧ ActsAll size ps c b'

theorem actsAll_append {size : Nat} {ps qs : List Pass} {b b' : Nat → Bool} :
    ActsAll size (ps ++ qs) b b' ↔ ∃ c, ActsAll size ps b c ∧ ActsAll size qs c b' := by
  induction ps generalizing b with
  | nil => simp [ActsAll]
  | cons p ps ih =>
    simp only [List.cons_append, ActsAll, ih]
    constructor
    · rintro ⟨c, hc, d, hd, h⟩
      exact ⟨d, ⟨c, hc, hd⟩, h⟩
    · rintro ⟨d, ⟨c, hc, hd⟩, h⟩
      exact ⟨c, hc, d, hd, h⟩

/-! ### Bits of a segment of `n` slots -/

def Rising (b : Nat → Bool) (base n : Nat) : Prop :=
  ∀ i j, i ≤ j → j < n → b (base + i) = true → b (base + j) = true

def Constant (v : Bool) (b : Nat → Bool) (base n : Nat) : Prop := ∀ i < n, b (base + i) = v

/-- The ones form an interval, or the zeros do. -/
def Bitonic (b : Nat → Bool) (base n : Nat) : Prop :=
  ∃ lo hi, (∀ i < n, b (base + i) = true ↔ lo ≤ i ∧ i < hi) ∨
    (∀ i < n, b (base + i) = true ↔ ¬(lo ≤ i ∧ i < hi))

def Divided (b : Nat → Bool) (base n : Nat) : Prop :=
  Constant false b base n ∨ Constant true b (base + n) n

theorem constant_false_of_not {b : Nat → Bool} {base n : Nat} (h : ∀ i < n, ¬b (base + i) = true) :
    Constant false b base n := fun i hi => Bool.eq_false_iff.mpr (h i hi)

theorem Rising.threshold {b : Nat → Bool} {base n : Nat} (h : Rising b base n) :
    ∃ t, ∀ i < n, b (base + i) = true ↔ t ≤ i := by
  induction n with
  | zero => exact ⟨0, fun i hi => absurd hi (Nat.not_lt_zero i)⟩
  | succ n ih =>
    obtain ⟨t, ht⟩ := ih fun i j hij hj => h i j hij (Nat.lt_succ_of_lt hj)
    by_cases hn : b (base + n) = true
    · refine ⟨min t n, fun i hi => ?_⟩
      rcases Nat.lt_succ_iff_lt_or_eq.mp hi with hi | rfl
      · rw [ht i hi]
        omega
      · simp only [hn, Nat.min_le_right]
    · refine ⟨n + 1, fun i hi => ⟨fun hb => ?_, fun hle => by omega⟩⟩
      exact absurd (h i n (Nat.lt_succ_iff.mp hi) (Nat.lt_succ_self n) hb) hn

theorem rising_of_divided {b : Nat → Bool} {base n : Nat} (hl : Rising b base n)
    (hu : Rising b (base + n) n) (hd : Divided b base n) : Rising b base (n + n) := by
  intro i j hij hj hi
  by_cases hin : i < n
  · by_cases hjn : j < n
    · exact hl i j hij hjn hi
    · rcases hd with hd | hd
      · rw [hd i hin] at hi
        cases hi
      · have := hd (j - n) (by omega)
        rwa [show base + n + (j - n) = base + j by omega] at this
  · have key := hu (i - n) (j - n) (by omega) (by omega)
    rw [show base + n + (i - n) = base + i by omega, show base + n + (j - n) = base + j by omega] at key
    exact key hi

section Halves

variable {b b' : Nat → Bool} {base n : Nat}

theorem bitonic_halves_of_forward (hb : Bitonic b base (n + n))
    (hl : ∀ r < n, b' (base + r) = (b (base + r) && b (base + (n + r))))
    (hu : ∀ r < n, b' (base + n + r) = (b (base + r) || b (base + (n + r)))) :
    Bitonic b' base n ∧ Bitonic b' (base + n) n ∧ Divided b' base n := by
  obtain ⟨lo, hi, hw | hw⟩ := hb
  · have el : ∀ r < n, b' (base + r) = true ↔ lo ≤ r ∧ r < hi - n := by
      intro r hr
      rw [hl r hr, Bool.and_eq_true, hw r (by omega), hw (n + r) (by omega)]
      omega
    have eu : ∀ r < n, b' (base + n + r) = true ↔ (lo ≤ r ∧ r < hi) ∨ (lo ≤ n + r ∧ n + r < hi) := by
      intro r hr
      rw [hu r hr, Bool.or_eq_true, hw r (by omega), hw (n + r) (by omega)]
    refine ⟨⟨lo, hi - n, .inl el⟩, ?_, ?_⟩
    · by_cases h₁ : hi ≤ n
      · exact ⟨lo, hi, .inl fun r hr => by rw [eu r hr]; omega⟩
      by_cases h₂ : n ≤ lo
      · exact ⟨lo - n, hi - n, .inl fun r hr => by rw [eu r hr]; omega⟩
      · exact ⟨hi - n, lo, .inr fun r hr => by rw [eu r hr]; omega⟩
    · by_cases h : hi ≤ lo + n ∨ n ≤ lo
      · exact .inl (constant_false_of_not fun r hr => by rw [el r hr]; omega)
      · exact .inr fun r hr => by rw [eu r hr]; omega
  · have el : ∀ r < n, b' (base + r) = true ↔ ¬(lo ≤ r ∧ r < hi) ∧ ¬(lo ≤ n + r ∧ n + r < hi) := by
      intro r hr
      rw [hl r hr, Bool.and_eq_true, hw r (by omega), hw (n + r) (by omega)]
    have eu : ∀ r < n, b' (base + n + r) = true ↔ ¬(lo ≤ r ∧ r < hi - n) := by
      intro r hr
      rw [hu r hr, Bool.or_eq_true, hw r (by omega), hw (n + r) (by omega)]
      omega
    refine ⟨?_, ⟨lo, hi - n, .inr eu⟩, ?_⟩
    · by_cases h₁ : hi ≤ n
      · exact ⟨lo, hi, .inr fun r hr => by rw [el r hr]; omega⟩
      by_cases h₂ : n ≤ lo
      · exact ⟨lo - n, hi - n, .inr fun r hr => by rw [el r hr]; omega⟩
      · exact ⟨hi - n, lo, .inl fun r hr => by rw [el r hr]; omega⟩
    · by_cases h : hi ≤ lo + n ∨ n ≤ lo
      · exact .inr fun r hr => by rw [eu r hr]; omega
      · exact .inl (constant_false_of_not fun r hr => by rw [el r hr]; omega)

theorem bitonic_halves_of_flip (hrl : Rising b base n) (hru : Rising b (base + n) n)
    (hl : ∀ r < n, b' (base + r) = (b (base + r) && b (base + (n + n - 1 - r))))
    (hu : ∀ r < n, b' (base + (n + n - 1 - r)) = (b (base + r) || b (base + (n + n - 1 - r)))) :
    Bitonic b' base n ∧ Bitonic b' (base + n) n ∧ Divided b' base n := by
  obtain ⟨s, hs⟩ := hrl.threshold
  obtain ⟨t, ht⟩ := hru.threshold
  have mirrored : ∀ r < n, b (base + (n + n - 1 - r)) = true ↔ t ≤ n - 1 - r := by
    intro r hr
    have key := ht (n - 1 - r) (by omega)
    rwa [show base + n + (n - 1 - r) = base + (n + n - 1 - r) by omega] at key
  have el : ∀ r < n, b' (base + r) = true ↔ s ≤ r ∧ r < n - t := by
    intro r hr
    rw [hl r hr, Bool.and_eq_true, hs r hr, mirrored r hr]
    omega
  have eu : ∀ r < n, b' (base + n + r) = true ↔ ¬(n - s ≤ r ∧ r < t) := by
    intro r hr
    have key := hu (n - 1 - r) (by omega)
    rw [show base + (n + n - 1 - (n - 1 - r)) = base + n + r by omega] at key
    have hm := mirrored (n - 1 - r) (by omega)
    rw [show base + (n + n - 1 - (n - 1 - r)) = base + n + r by omega] at hm
    rw [key, Bool.or_eq_true, hs (n - 1 - r) (by omega), hm]
    omega
  refine ⟨⟨s, n - t, .inl el⟩, ⟨n - s, t, .inr eu⟩, ?_⟩
  by_cases h : n ≤ s + t
  · exact .inl (constant_false_of_not fun r hr => by rw [el r hr]; omega)
  · exact .inr fun r hr => by rw [eu r hr]; omega

end Halves

/-! ### Passes -/

def forwardPasses (k : Nat) : List Pass := (List.range' 1 k).reverse.map fun step => ⟨1 <<< step, false⟩

theorem forwardPasses_succ (k : Nat) :
    forwardPasses (k + 1) = ⟨1 <<< k + 1 <<< k, false⟩ :: forwardPasses k := by
  rw [forwardPasses, List.range'_concat, List.reverse_append, List.map_append, ← one_shiftLeft_succ]
  simp [forwardPasses, Nat.add_comm]

/-- The passes that merge neighbouring segments of `1 <<< k` sorted slots. -/
def stagePasses (k : Nat) : List Pass := ⟨1 <<< k + 1 <<< k, true⟩ :: forwardPasses k

theorem Pass.Acts.forward {n size : Nat} {b b' : Nat → Bool} (h : Pass.Acts ⟨n + n, false⟩ size b b')
    {block : Nat} (hb : (block + 1) * (n + n) ≤ size) (r : Nat) (hr : r < n) :
    b' (block * (n + n) + r) = (b (block * (n + n) + r) && b (block * (n + n) + (n + r))) ∧
      b' (block * (n + n) + n + r) = (b (block * (n + n) + r) || b (block * (n + n) + (n + r))) := by
  have hn : (n + n) / 2 = n := by omega
  have key := h block hb r (by simp only [hn]; exact hr)
  simpa only [Pass.upper, Bool.false_eq_true, if_false, hn, Nat.add_assoc] using key

theorem Pass.Acts.flip {n size : Nat} {b b' : Nat → Bool} (h : Pass.Acts ⟨n + n, true⟩ size b b')
    {block : Nat} (hb : (block + 1) * (n + n) ≤ size) (r : Nat) (hr : r < n) :
    b' (block * (n + n) + r) = (b (block * (n + n) + r) && b (block * (n + n) + (n + n - 1 - r))) ∧
      b' (block * (n + n) + (n + n - 1 - r)) =
        (b (block * (n + n) + r) || b (block * (n + n) + (n + n - 1 - r))) := by
  have hn : (n + n) / 2 = n := by omega
  have key := h block hb r (by simp only [hn]; exact hr)
  simpa only [Pass.upper, if_true, hn] using key

theorem half_blocks {block n size : Nat} (h : (block + 1) * (n + n) ≤ size) :
    block * (n + n) = (2 * block) * n ∧ block * (n + n) + n = (2 * block + 1) * n ∧
      (2 * block + 1) * n ≤ size ∧ (2 * block + 1 + 1) * n ≤ size := by
  have e : block * (n + n) = (2 * block) * n := by rw [← Nat.two_mul, ← Nat.mul_assoc, Nat.mul_comm block 2]
  have e₁ : (2 * block + 1) * n = (2 * block) * n + n := Nat.succ_mul _ _
  have e₂ : (2 * block + 1 + 1) * n = (2 * block) * n + n + n := by rw [Nat.succ_mul, e₁]
  have e₃ : (block + 1) * (n + n) = block * (n + n) + (n + n) := Nat.succ_mul _ _
  omega

theorem forwardPasses_sort (k : Nat) {size : Nat} {b b' : Nat → Bool}
    (h : ActsAll size (forwardPasses k) b b') (block : Nat) (hb : (block + 1) * 1 <<< k ≤ size) :
    (Bitonic b (block * 1 <<< k) (1 <<< k) → Rising b' (block * 1 <<< k) (1 <<< k)) ∧
      ∀ v, Constant v b (block * 1 <<< k) (1 <<< k) → Constant v b' (block * 1 <<< k) (1 <<< k) := by
  -- Both facts go together: of the halves that a pass leaves one is constant and the other one bitonic.
  induction k generalizing b block with
  | zero =>
    cases h
    refine ⟨fun _ i j hij hj hi => ?_, fun v hv => hv⟩
    rwa [show j = i by simp at hj; omega]
  | succ k ih =>
    rw [forwardPasses_succ] at h
    obtain ⟨c, hc, hrest⟩ := h
    rw [one_shiftLeft_succ] at hb ⊢
    generalize 1 <<< k = n at *
    obtain ⟨e₁, e₂, hlow, hhigh⟩ := half_blocks hb
    have low := ih hrest (2 * block) hlow
    have high := ih hrest (2 * block + 1) hhigh
    rw [← e₁] at low
    rw [← e₂] at high
    constructor
    -- One half is constant after the first pass, and stays so; the other one is bitonic again.
    · intro hbit
      obtain ⟨bl, bu, hd⟩ := bitonic_halves_of_forward hbit (fun r hr => (hc.forward hb r hr).1)
        (fun r hr => (hc.forward hb r hr).2)
      refine rising_of_divided (low.1 bl) (high.1 bu) ?_
      exact hd.imp (low.2 false) (high.2 true)
    · intro v hv i hi
      have cl : Constant v c (block * (n + n)) n := fun r hr => by
        rw [(hc.forward hb r hr).1, hv r (by omega), hv (n + r) (by omega), Bool.and_self]
      have cu : Constant v c (block * (n + n) + n) n := fun r hr => by
        rw [(hc.forward hb r hr).2, hv r (by omega), hv (n + r) (by omega), Bool.or_self]
      by_cases hin : i < n
      · exact low.2 v cl i hin
      · have := high.2 v cu (i - n) (by omega)
        rwa [show block * (n + n) + n + (i - n) = block * (n + n) + i by omega] at this

theorem stagePasses_sort (k : Nat) {size : Nat} {b b' : Nat → Bool} (h : ActsAll size (stagePasses k) b b')
    (block : Nat) (hb : (block + 1) * (1 <<< k + 1 <<< k) ≤ size)
    (hl : Rising b (block * (1 <<< k + 1 <<< k)) (1 <<< k))
    (hu : Rising b (block * (1 <<< k + 1 <<< k) + 1 <<< k) (1 <<< k)) :
    Rising b' (block * (1 <<< k + 1 <<< k)) (1 <<< k + 1 <<< k) := by
  obtain ⟨c, hc, hrest⟩ := h
  obtain ⟨e₁, e₂, hlow, hhigh⟩ := half_blocks hb
  have low := forwardPasses_sort k hrest (2 * block) hlow
  have high := forwardPasses_sort k hrest (2 * block + 1) hhigh
  rw [← e₁] at low
  rw [← e₂] at high
  obtain ⟨bl, bu, hd⟩ := bitonic_halves_of_flip hl hu (fun r hr => (hc.flip hb r hr).1)
    (fun r hr => (hc.flip hb r hr).2)
  exact rising_of_divided (low.1 bl) (high.1 bu) (hd.imp (low.2 false) (high.2 true))

/-! ### Schedules -/

@[simp] theorem trailingZeros_one_shiftLeft (k : Nat) : trailingZeros (1 <<< k) = k := by
  induction k with
  | zero => simp [trailingZeros]
  | succ k ih =>
    have hpos := one_shiftLeft_pos k
    rw [one_shiftLeft_succ, trailingZeros, if_pos (by omega),
      show (1 <<< k + 1 <<< k) / 2 = 1 <<< k by omega, ih]

theorem mergeSchedule_eq (k : Nat) : mergeSchedule (2 * 1 <<< k) = stagePasses k := by
  have hpos := one_shiftLeft_pos k
  rw [mergeSchedule, if_neg (by omega), Nat.two_mul, ← one_shiftLeft_succ, trailingZeros_one_shiftLeft,
    Nat.add_sub_cancel, one_shiftLeft_succ]
  rfl

theorem sortSchedule_succ (k : Nat) :
    sortSchedule (1 <<< (k + 1)) = sortSchedule (1 <<< k) ++ stagePasses k := by
  rw [sortSchedule, sortSchedule, trailingZeros_one_shiftLeft, trailingZeros_one_shiftLeft,
    List.range'_concat, List.flatMap_append]
  simp [stagePasses, forwardPasses, Nat.add_comm 1 k, one_shiftLeft_succ]

theorem sortSchedule_sort (k : Nat) {size : Nat} {b b' : Nat → Bool}
    (h : ActsAll size (sortSchedule (1 <<< k)) b b') (block : Nat) (hb : (block + 1) * 1 <<< k ≤ size) :
    Rising b' (block * 1 <<< k) (1 <<< k) := by
  induction k generalizing b' block with
  | zero =>
    intro i j hij hj hi
    rwa [show j = i by simp at hj; omega]
  | succ k ih =>
    rw [sortSchedule_succ, actsAll_append] at h
    obtain ⟨c, hc, hstage⟩ := h
    rw [one_shiftLeft_succ] at hb ⊢
    obtain ⟨e₁, e₂, hlow, hhigh⟩ := half_blocks hb
    -- Both halves of the block are sorted before the last stage.
    apply stagePasses_sort k hstage block hb
    · rw [e₁]
      exact ih hc (2 * block) hlow
    · rw [e₂]
      exact ih hc (2 * block + 1) hhigh

/-! ### Parameters of passes -/

theorem Pass.decode_encode {shift : Nat} (h : 0 < shift) (flip : Bool) :
    decode (encode ⟨1 <<< shift, flip⟩) = ⟨1 <<< shift, flip⟩ := by
  have hpos := one_shiftLeft_pos shift
  have hparam : encode ⟨1 <<< shift, flip⟩ = if flip then -(shift : Int) else shift := by
    rw [encode, if_neg (show (1 <<< shift : Nat) ≠ 0 by omega), trailingZeros_one_shiftLeft]
  rw [hparam, decode]
  cases flip with
  | true => simp [h]
  | false => simp

theorem decode_encode_of_mem_sortSchedule {length : Nat} {p : Pass} (hp : p ∈ sortSchedule length) :
    Pass.decode p.encode = p := by
  obtain ⟨stage, hstage, hp⟩ := List.mem_flatMap.mp hp
  rcases List.mem_cons.mp hp with rfl | hp
  · exact Pass.decode_encode (List.mem_range'_1.mp hstage).1 true
  · obtain ⟨step, hstep, rfl⟩ := List.mem_map.mp hp
    exact Pass.decode_encode (List.mem_range'_1.mp (List.mem_reverse.mp hstep)).1 false

theorem decode_encode_of_mem_mergeSchedule {k : Nat} {p : Pass} (hp : p ∈ mergeSchedule (1 <<< k)) :
    Pass.decode p.encode = p := by
  unfold mergeSchedule at hp
  split at hp
  next => cases hp
  next hlen =>
    rcases List.mem_cons.mp hp with rfl | hp
    · refine Pass.decode_encode (Nat.pos_of_ne_zero ?_) true
      rintro rfl
      exact hlen (by decide)
    · obtain ⟨step, hstep, rfl⟩ := List.mem_map.mp hp
      exact Pass.decode_encode (List.mem_range'_1.mp (List.mem_reverse.mp hstep)).1 false

end ChunkSort
