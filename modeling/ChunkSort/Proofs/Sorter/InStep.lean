import ChunkSort.Proofs.Chunk.Rescheduled
import ChunkSort.Proofs.Sorter.Job

/-!
Pairs of jobs that go the same way with chunks of different numbers. If they are to agree exactly then their windows are
equal all the time. Otherwise both windows have room for one more merge, so that no lease is refused.
-/

namespace ChunkSort

structure JobState.Roomy (n : Nat) (st : JobState) : Prop where
  held : n ≤ st.window.resident
  room : st.window.resident + chunksPerMerge ≤ st.window.limit + n

/-- States from which two jobs go the same way. As many merges were counted in both, if that is to be so. -/
structure JobState.Level (exact counted : Prop) (n : Nat) (st st' : JobState) : Prop where
  window : exact → st.window = st'.window
  merges : counted → st.merges = st'.merges
  room : ¬exact → st.Roomy n ∧ st'.Roomy n

namespace JobState

variable {exact counted : Prop} {n : Nat} {st st' : JobState}

theorem Holds.roomy (h : st.Holds 0) : st.Roomy 0 where
  held := Nat.zero_le _
  room := by
    rw [h.resident, Nat.zero_add]
    exact h.limit

theorem Roomy.lease (h : st.Roomy 0) (hn : n ≤ chunksPerMerge) :
    ∃ w, st.window.lease n = .ok w ∧ Roomy n { st with window := w } := by
  have hroom := h.room
  have hfits : st.window.resident + n ≤ st.window.limit := Nat.le_trans (Nat.add_le_add_left hn _) hroom
  exact ⟨_, if_pos hfits, Nat.le_add_left .., by
    change st.window.resident + n + chunksPerMerge ≤ st.window.limit + n
    omega⟩

theorem Roomy.release (h : st.Roomy n) : Roomy 0 { st with window := st.window.release n } where
  held := Nat.zero_le _
  room := by
    obtain ⟨hheld, hroom⟩ := h
    change st.window.resident - n + chunksPerMerge ≤ st.window.limit + 0
    omega

theorem Roomy.of_window (h : st.Roomy n) (hw : st'.window = st.window) : st'.Roomy n :=
  ⟨hw ▸ h.held, hw ▸ h.room⟩

namespace Level

variable (h : st.Level exact counted n st')
include h

theorem of_windows {t t' : JobState} (hw : t.window = st.window) (hw' : t'.window = st'.window)
    (hm : counted → t.merges = t'.merges) : t.Level exact counted n t' where
  window hx := by rw [hw, hw', h.window hx]
  merges := hm
  room hx := ⟨(h.room hx).1.of_window hw, (h.room hx).2.of_window hw'⟩

theorem of_exact (hx : exact) (m : Nat) : st.Level exact counted m st' := ⟨h.window, h.merges, fun hn => absurd hx hn⟩

theorem release :
    Level exact counted 0 { st with window := st.window.release n } { st' with window := st'.window.release n } where
  window hx := congrArg (·.release n) (h.window hx)
  merges := h.merges
  room hx := ⟨(h.room hx).1.release, (h.room hx).2.release⟩

omit h in
theorem lease (h : st.Level exact counted 0 st') (hn : n ≤ chunksPerMerge) :
    Outcomes (fun w w' => Level exact counted n { st with window := w } { st' with window := w' }) Eq (st.window.lease n)
      (st'.window.lease n) := by
  by_cases hx : exact
  · rw [h.window hx]
    cases st'.window.lease n with
    | ok w => exact ⟨fun _ => rfl, h.merges, fun hn => absurd hx hn⟩
    | error v => exact rfl
  · obtain ⟨hroom, hroom'⟩ := h.room hx
    obtain ⟨w, hw, hheld⟩ := hroom.lease hn
    obtain ⟨w', hw', hheld'⟩ := hroom'.lease hn
    rw [hw, hw']
    exact ⟨fun hx' => absurd hx' hx, h.merges, fun _ => ⟨hheld, hheld'⟩⟩

end Level
end JobState

namespace Job

def Together {α β : Type} (exact : Prop) (R : α → JobState → β → JobState → Prop) :
    EStateM.Result SortError JobState α → EStateM.Result SortError JobState β → Prop
  | .ok a t, .ok b t' => R a t b t'
  | .error e _, .error e' _ => e.Alike exact e'
  | _, _ => False

variable {α β α' β' σ : Type} {exact counted : Prop} {n m k : Nat}

theorem Together.bind {R : α → JobState → β → JobState → Prop} {R' : α' → JobState → β' → JobState → Prop} {job : Job α}
    {job' : Job β} {f : α → Job α'} {f' : β → Job β'} {st st' : JobState} (h : Together exact R (job st) (job' st'))
    (hf : ∀ a t b t', job st = .ok a t → job' st' = .ok b t' → R a t b t' → Together exact R' (f a t) (f' b t')) :
    Together exact R' ((job >>= f) st) ((job' >>= f') st') := by
  rw [bind_apply, bind_apply]
  cases hj : job st with
  | error e t =>
    rw [hj] at h
    match job' st', h with
    | .error _ _, he => exact he
  | ok a t =>
    rw [hj] at h
    cases hj' : job' st' with
    | error e t' => exact (hj' ▸ h).elim
    | ok b t' =>
      rw [hj'] at h
      exact hf a t b t' hj hj' h

theorem Together.mono {R R' : α → JobState → β → JobState → Prop} {r : EStateM.Result SortError JobState α}
    {r' : EStateM.Result SortError JobState β} (h : Together exact R r r') (hR : ∀ a t b t', R a t b t' → R' a t b t') :
    Together exact R' r r' := by
  match r, r', h with
  | .ok _ _, .ok _ _, hab => exact hR _ _ _ _ hab
  | .error _ _, .error _ _, he => exact he

/-- Jobs that go the same way. They hold `n` chunks at the start and `m` of them at the end. -/
def InStep (exact counted : Prop) (n m : Nat) (Q : α → β → Prop) (job : Job α) (job' : Job β) : Prop :=
  ∀ st st' : JobState, st.Level exact counted n st' →
    Together exact (fun a t b t' => t.Level exact counted m t' ∧ Q a b) (job st) (job' st')

namespace InStep

variable {Q : α → β → Prop} {job : Job α} {job' : Job β}

theorem pure {a : α} {b : β} (h : Q a b) : InStep exact counted n n Q (Pure.pure a) (Pure.pure b) :=
  fun _ _ hst => ⟨hst, h⟩

theorem throw {e e' : SortError} (h : e.Alike exact e') :
    InStep exact counted n m Q (MonadExcept.throw e) (MonadExcept.throw e') := fun _ _ _ => h

theorem bind {R : α' → β' → Prop} {f : α → Job α'} {f' : β → Job β'} (h : InStep exact counted n m Q job job')
    (hf : ∀ a b, Q a b → InStep exact counted m k R (f a) (f' b)) :
    InStep exact counted n k R (job >>= f) (job' >>= f') :=
  fun st st' hst => (h st st' hst).bind fun a t b t' _ _ ⟨ht, hab⟩ => hf a b hab t t' ht

theorem ofExcept {r : Except SortError α} {r' : Except SortError β} (h : Outcomes Q (SortError.Alike exact) r r') :
    InStep exact counted n n Q (MonadExcept.ofExcept r) (MonadExcept.ofExcept r') := by
  match r, r', h with
  | .ok _, .ok _, h => exact pure h
  | .error _, .error _, h => exact throw h

theorem get_bind {f : JobState → Job α} {f' : JobState → Job β}
    (h : ∀ st st', st.Level exact counted n st' → InStep exact counted n m Q (f st) (f' st')) :
    InStep exact counted n m Q (MonadState.get >>= f) (MonadState.get >>= f') := fun st st' hst => h st st' hst st st' hst

theorem takeNumber : InStep exact counted n n (fun _ _ => True) takeNumber takeNumber :=
  fun _ _ hst => ⟨hst.of_windows rfl rfl hst.merges, trivial⟩

theorem countMerge : InStep exact counted n n (fun _ _ => True) countMerge countMerge :=
  fun _ _ hst => ⟨hst.of_windows rfl rfl fun hc => congrArg (· + 1) (hst.merges hc), trivial⟩

theorem ofAttempt {S R : σ → σ → Prop} {a a' : Attempt σ α} (h : a.Alike exact S a')
    (hR : ∀ v, a.result = .ok v → S a.state a'.state → R a.state a'.state) :
    InStep exact counted n n (fun r r' => R r.2 r'.2) (ofAttempt a) (ofAttempt a') := by
  have hresult : Outcomes (fun _ _ => R a.state a'.state) (SortError.Alike exact) a.result a'.result := by
    cases hr : a.result with
    | ok v =>
      obtain ⟨hr', hstate⟩ := h.of_ok hr
      rw [hr']
      exact hR v hr hstate
    | error e =>
      obtain ⟨e', hr', halike⟩ := h.of_error hr
      rw [hr']
      exact halike
  exact (ofExcept hresult).bind fun _ _ h => pure h

theorem releasing (h : InStep exact counted n n Q job job') :
    InStep exact counted n 0 Q (releasing n job) (releasing n job') := by
  intro st st' hst
  have key := h st st' hst
  rw [releasing_apply, releasing_apply]
  match job st, job' st', key with
  | .ok _ _, .ok _ _, ⟨ht, hab⟩ => exact ⟨ht.release, hab⟩
  | .error _ _, .error _ _, he => exact he

theorem lease (hn : n ≤ chunksPerMerge) :
    InStep exact counted 0 n (fun _ _ => True) (Job.lease n) (Job.lease n) := by
  intro st st' hst
  have hlease := hst.lease hn
  cases hw : st.window.lease n with
  | ok w =>
    rw [hw] at hlease
    cases hw' : st'.window.lease n with
    | error v => exact (hw' ▸ hlease).elim
    | ok w' =>
      rw [hw'] at hlease
      rw [lease_granted hw, lease_granted hw']
      exact ⟨hlease, trivial⟩
  | error v =>
    rw [hw] at hlease
    cases hw' : st'.window.lease n with
    | ok w' => exact (hw' ▸ hlease).elim
    | error v' =>
      obtain rfl : v = v' := by rwa [hw'] at hlease
      rw [lease_refused hw, lease_refused hw']
      exact .violation v

theorem withLease (hn : n ≤ chunksPerMerge) (h : InStep exact counted n n Q job job') :
    InStep exact counted 0 0 Q (withLease n job) (withLease n job') :=
  (lease hn).bind fun _ _ _ => h.releasing

end InStep
end Job
end ChunkSort
