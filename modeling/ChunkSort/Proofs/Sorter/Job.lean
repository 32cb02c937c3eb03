import ChunkSort.Proofs.Outcome
import ChunkSort.Sorter.Job

/-!
Rules for jobs. Two jobs agree when they do the same from every state in which the same number of chunks is
resident, and then answer within a postcondition. Between two steps of a sorter no chunk is resident. A steady job
leaves the window alone, whatever becomes of it.
-/

namespace ChunkSort

/-- `n` chunks are resident, and a merge fits into the window. -/
structure JobState.Holds (n : Nat) (st : JobState) : Prop where
  resident : st.window.resident = n
  limit : chunksPerMerge ≤ st.window.limit

theorem JobState.Holds.lease {st : JobState} (h : st.Holds 0) {n : Nat} (hn : n ≤ chunksPerMerge) :
    ∃ w, st.window.lease n = .ok w ∧ w.limit = st.window.limit ∧ w.peak = max st.window.peak n ∧
      JobState.Holds n { st with window := w } := by
  have hresident : st.window.resident + n = n := by rw [h.resident, Nat.zero_add]
  exact ⟨_, if_pos (hresident.symm ▸ Nat.le_trans hn h.limit), rfl, congrArg (max st.window.peak) hresident, hresident,
    h.limit⟩

theorem JobState.Holds.release {st : JobState} {n : Nat} (h : st.Holds n) :
    JobState.Holds 0 { st with window := st.window.release n } where
  resident := by simp only [Window.release, h.resident, Nat.sub_self]
  limit := h.limit

namespace Job

variable {α β : Type}

theorem bind_apply (job : Job α) (f : α → Job β) (st : JobState) :
    (job >>= f) st = match job st with
      | .ok a mid => f a mid
      | .error e mid => .error e mid := by
  change EStateM.bind job f st = _
  unfold EStateM.bind
  cases job st <;> rfl

theorem bind_eq_ok {job : Job α} {f : α → Job β} {st st' : JobState} {b : β} :
    (job >>= f) st = .ok b st' ↔ ∃ a mid, job st = .ok a mid ∧ f a mid = .ok b st' := by
  rw [bind_apply]
  cases job st <;> simp

theorem lease_granted {st : JobState} {n : Nat} {w : Window} (h : st.window.lease n = .ok w) :
    lease n st = .ok () { st with window := w } := by
  change EStateM.bind (MonadExcept.ofExcept ((st.window.lease n).mapError SortError.contractViolation)) _ st = _
  rw [h]
  rfl

theorem lease_refused {st : JobState} {n : Nat} {violation : Violation} (h : st.window.lease n = .error violation) :
    lease n st = .error (.contractViolation violation) st := by
  change EStateM.bind (MonadExcept.ofExcept ((st.window.lease n).mapError SortError.contractViolation)) _ st = _
  rw [h]
  rfl

theorem releasing_apply (n : Nat) (job : Job α) (st : JobState) :
    releasing n job st = match job st with
      | .ok a st' => .ok a { st' with window := st'.window.release n }
      | .error e st' => .error e { st' with window := st'.window.release n } := by
  simp only [releasing, tryFinally, MonadFinally.tryFinally', Functor.map, EStateM.map]
  cases job st <;> rfl

theorem withLease_apply {st : JobState} {n : Nat} {w : Window} (h : st.window.lease n = .ok w) (job : Job α) :
    withLease n job st = releasing n job { st with window := w } := by
  rw [withLease, bind_apply, lease_granted h]

/-- Both jobs do the same. An answer satisfies `Q` and leaves as many chunks resident as before, an error
satisfies `E`. -/
def Agrees (n : Nat) (job job' : Job α) (Q : α → Prop) (E : SortError → Prop) : Prop :=
  ∀ st : JobState, st.Holds n → job st = job' st ∧
    match job st with
    | .ok a st' => st'.Holds n ∧ Q a
    | .error e _ => E e

namespace Agrees

variable {n : Nat} {job job' : Job α} {Q : α → Prop} {E : SortError → Prop}

theorem pure {a : α} (h : Q a) : Agrees n (Pure.pure a) (Pure.pure a) Q E := fun _ hst => ⟨rfl, hst, h⟩

theorem throw {e : SortError} (h : E e) : Agrees n (α := α) (MonadExcept.throw e) (MonadExcept.throw e) Q E :=
  fun _ _ => ⟨rfl, h⟩

theorem bind {f f' : α → Job β} {R : β → Prop} (h : Agrees n job job' Q E)
    (hf : ∀ a, Q a → Agrees n (f a) (f' a) R E) : Agrees n (job >>= f) (job' >>= f') R E := by
  intro st hst
  obtain ⟨heq, hout⟩ := h st hst
  rw [bind_apply, bind_apply, ← heq]
  cases hj : job st with
  | ok a st' =>
    rw [hj] at hout
    exact hf a hout.2 st' hout.1
  | error e st' =>
    rw [hj] at hout
    exact ⟨rfl, hout⟩

theorem mono {Q' : α → Prop} {E' : SortError → Prop} (h : Agrees n job job' Q E) (hQ : ∀ a, Q a → Q' a)
    (hE : ∀ e, E e → E' e) : Agrees n job job' Q' E' := by
  intro st hst
  obtain ⟨heq, hout⟩ := h st hst
  refine ⟨heq, ?_⟩
  cases hj : job st with
  | ok a st' =>
    rw [hj] at hout
    exact ⟨hout.1, hQ a hout.2⟩
  | error e st' =>
    rw [hj] at hout
    exact hE e hout

theorem of_ok (h : Agrees n job job' Q E) {st st' : JobState} (hst : st.Holds n) {a : α} (hok : job st = .ok a st') :
    st'.Holds n ∧ Q a := by
  obtain ⟨_, hout⟩ := h st hst
  rwa [hok] at hout

theorem of_error (h : Agrees n job job' Q E) {st st' : JobState} (hst : st.Holds n) {e : SortError}
    (herror : job st = .error e st') : E e := by
  obtain ⟨_, hout⟩ := h st hst
  rwa [herror] at hout

theorem ofExcept {r : Except SortError α} (h : Outcome Q E r) :
    Agrees n (MonadExcept.ofExcept r) (MonadExcept.ofExcept r) Q E := by
  cases r with
  | ok a => exact pure h
  | error e => exact throw h

theorem get_bind {f f' : JobState → Job α} (h : ∀ st, Agrees n (f st) (f' st) Q E) :
    Agrees n (MonadState.get >>= f) (MonadState.get >>= f') Q E := fun st hst => h st st hst

theorem modify {f : JobState → JobState} (h : ∀ st, st.Holds n → (f st).Holds n) :
    Agrees n (modify f) (modify f) (fun _ => True) E := fun st hst => ⟨rfl, h st hst, trivial⟩

theorem takeNumber : Agrees n takeNumber takeNumber (fun _ => True) E :=
  fun _ hst => ⟨rfl, ⟨hst.resident, hst.limit⟩, trivial⟩

theorem countMerge : Agrees n countMerge countMerge (fun _ => True) E := modify fun _ hst => ⟨hst.resident, hst.limit⟩

theorem ofAttempt {σ : Type} {a : Attempt σ α} {R : α × σ → Prop} (h : Outcome (fun v => R (v, a.state)) E a.result) :
    Agrees n (ofAttempt a) (ofAttempt a) R E :=
  bind (ofExcept h) fun _ hv => pure hv

theorem withLease (hn : n ≤ chunksPerMerge) (h : Agrees n job job' Q E) :
    Agrees 0 (Job.withLease n job) (Job.withLease n job') Q E := by
  intro st hst
  obtain ⟨w, hlease, _, _, hholds⟩ := hst.lease hn
  obtain ⟨heq, hout⟩ := h _ hholds
  rw [withLease_apply hlease, withLease_apply hlease, releasing_apply, releasing_apply, ← heq]
  refine ⟨rfl, ?_⟩
  revert hout
  cases job _ with
  | error e st' => exact id
  | ok a st' =>
    rintro ⟨hst', ha⟩
    exact ⟨hst'.release, ha⟩

end Agrees
/-- The window stays as it is, also if the job fails. For an answer `merges` merges are counted. -/
def Steady (job : Job α) (merges : Nat) (Q : α → Prop) : Prop :=
  ∀ st, match job st with
    | .ok a st' => st'.window = st.window ∧ st'.merges = st.merges + merges ∧ Q a
    | .error _ st' => st'.window = st.window

namespace Steady

variable {job : Job α} {Q : α → Prop} {merges : Nat}

theorem pure {a : α} (h : Q a) : Steady (Pure.pure a) 0 Q := fun _ => ⟨rfl, rfl, h⟩

theorem throw {e : SortError} : Steady (α := α) (MonadExcept.throw e) merges Q := fun _ => rfl

theorem bind {f : α → Job β} {R : β → Prop} (h : Steady job 0 Q) (hf : ∀ a, Q a → Steady (f a) merges R) :
    Steady (job >>= f) merges R := by
  intro st
  have hj := h st
  rw [bind_apply]
  cases hr : job st with
  | error e mid =>
    rw [hr] at hj
    exact hj
  | ok a mid =>
    rw [hr] at hj
    obtain ⟨hw, hm, ha⟩ := hj
    have hmid := hf a ha mid
    dsimp only
    rw [← hw, ← Nat.add_zero st.merges, ← hm]
    exact hmid

theorem get_bind {f : JobState → Job α} (h : ∀ st, Steady (f st) merges Q) : Steady (MonadState.get >>= f) merges Q :=
  fun st => h st st

theorem modify {f : JobState → JobState} (h : ∀ st, (f st).window = st.window ∧ (f st).merges = st.merges) :
    Steady (modify f) 0 fun _ => True := fun st => ⟨(h st).1, (h st).2, trivial⟩

theorem takeNumber : Steady takeNumber 0 fun _ => True := fun _ => ⟨rfl, rfl, trivial⟩

theorem count {f : Unit → Job α} (h : Steady (f ()) merges Q) : Steady (countMerge >>= f) (merges + 1) Q := by
  intro st
  have hf := h { st with merges := st.merges + 1 }
  rw [bind_apply]
  change match f () { st with merges := st.merges + 1 } with
    | .ok a st' => st'.window = st.window ∧ st'.merges = st.merges + (merges + 1) ∧ Q a
    | .error _ st' => st'.window = st.window
  cases hr : f () { st with merges := st.merges + 1 } with
  | error e st' =>
    rw [hr] at hf
    exact hf
  | ok a st' =>
    rw [hr] at hf
    exact ⟨hf.1, hf.2.1.trans (Nat.add_right_comm ..), hf.2.2⟩

theorem ofAttempt {σ : Type} (a : Attempt σ α) : Steady (ofAttempt a) 0 fun _ => True := by
  refine bind (Q := fun _ => True) ?_ fun v _ => pure trivial
  cases a.result with
  | ok v => exact pure trivial
  | error e => exact throw

end Steady
end Job
end ChunkSort
