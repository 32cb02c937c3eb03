import ChunkSort.Proofs.Chunk.MergeOrder
import ChunkSort.Proofs.Chunk.Sort
import ChunkSort.Proofs.Chunk.Twin

/-!
One operation under two schedules. Whether it succeeds, and what it makes of its chunks then, the schedules do not decide.
They decide only which of several failures is reported.
-/

namespace ChunkSort

variable {α ε σ : Type} {exact : Prop}

theorem Outcomes.of_eq_ok_iff {r r' : Except ε α} (h : ∀ a, r = .ok a ↔ r' = .ok a) (he : exact → r = r') :
    Outcomes Eq (fun e e' => exact → e = e') r r' := by
  cases r with
  | ok a =>
    rw [(h a).mp rfl]
    exact rfl
  | error e =>
    cases r' with
    | ok a => exact nomatch (h a).mpr rfl
    | error e' => exact fun hx => Except.error.inj (he hx)

theorem SortError.Alike.of_eq {chunk chunk' : Nat} {row row' : Option Nat} {cause cause' : DataError}
    (h : exact → SortError.fault chunk row cause = .fault chunk' row' cause') :
    SortError.Alike exact (.fault chunk row cause) (.fault chunk' row' cause') :=
  .fault _ _ fun hx => by
    cases h hx
    exact ⟨rfl, .inl rfl⟩

theorem SortError.Alike.trans {e e' e'' : SortError} (h : e.Alike exact e') (h' : e'.Alike exact e'') : e.Alike exact e'' := by
  cases h with
  | violation v => exact h'
  | fault _ _ h =>
    cases h' with
    | fault _ _ h' =>
      refine .fault _ _ fun hx => ?_
      obtain ⟨rfl, hrow⟩ := h hx
      obtain ⟨rfl, hrow'⟩ := h' hx
      refine ⟨rfl, ?_⟩
      rcases hrow with rfl | rfl
      · exact hrow'
      · exact .inr rfl

theorem Attempt.Alike.trans {S : σ → σ → Prop} {a b c : Attempt σ α} (h : a.Alike exact S b) (h' : b.Alike exact Eq c) :
    a.Alike exact S c := by
  cases ha : a.result with
  | ok v =>
    obtain ⟨hb, hstate⟩ := h.of_ok ha
    obtain ⟨hc, heq⟩ := h'.of_ok hb
    rw [Attempt.Alike, ha, hc]
    exact ⟨rfl, heq ▸ hstate⟩
  | error e =>
    obtain ⟨e', hb, halike⟩ := h.of_error ha
    obtain ⟨e'', hc, halike'⟩ := h'.of_error hb
    rw [Attempt.Alike, ha, hc]
    exact halike.trans halike'

theorem MergeSet.faultAt_alike (m : MergeSet) {f f' : EntryFault} (h : exact → f = f') :
    (m.faultAt f).Alike exact (m.faultAt f') := .of_eq fun hx => congrArg m.faultAt (h hx)

variable {schedule schedule' : Schedule} (hs : exact → schedule = schedule')
include hs

theorem collect_alike {β : Type} (f : α → Except ε β) (l : List α) :
    Outcomes Eq (fun e e' => exact → e = e') (collect schedule.rows f l) (collect schedule'.rows f l) :=
  .of_eq_ok_iff (fun vs => collect_eq_ok_iff.trans collect_eq_ok_iff.symm) fun hx => by rw [hs hx]

namespace Chunk

theorem place_alike (c : Chunk) (b : Batch) (projection : Option (List Nat)) (offset : Nat) :
    Outcomes Eq (fun e e' => exact → e = e') (c.place b projection offset schedule)
      (c.place b projection offset schedule') := by
  unfold place
  refine (collect_alike hs _ _).bind ?_
  rintro sizes _ rfl
  exact .of_eq_ok_iff (fun _ => Iff.rfl) fun _ => rfl

theorem load_alike (c : Chunk) (b : Batch) (projection : Option (List Nat)) (offset : Nat) :
    Attempt.Alike exact Eq (c.load b projection offset schedule) (c.load b projection offset schedule') := by
  have hplace := place_alike hs c b projection offset
  unfold load
  cases loadViolation? b offset with
  | some v => exact .violation v
  | none =>
    cases c.widthError? b projection with
    | some cause => exact .fault _ _ fun _ => ⟨rfl, .inl rfl⟩
    | none =>
      simp only [Option.elim]
      match c.place b projection offset schedule, c.place b projection offset schedule', hplace with
      | .ok _, .ok _, rfl => exact ⟨rfl, rfl⟩
      | .error _, .error _, he => exact .fault _ _ fun hx => ⟨he hx, .inl rfl⟩

theorem sort_alike (c : Chunk) (cmp : Comparator) :
    Attempt.Alike exact Eq (c.sort cmp schedule) (c.sort cmp schedule') := by
  have hrun : Outcomes Eq (fun e e' => exact → e = e')
      (runPasses (outOfOrder cmp c.recordOf fun _ _ => .eq) c.rows c.index (sortSchedule c.index.size) schedule.lanes)
      (runPasses (outOfOrder cmp c.recordOf fun _ _ => .eq) c.rows c.index (sortSchedule c.index.size) schedule'.lanes) :=
    .of_eq_ok_iff (fun _ => runPasses_eq_ok_iff.trans runPasses_eq_ok_iff.symm) fun hx => by rw [hs hx]
  unfold sort
  revert hrun
  match runPasses _ c.rows c.index _ schedule.lanes, runPasses _ c.rows c.index _ schedule'.lanes with
  | .ok _, .ok _ =>
    rintro rfl
    exact ⟨rfl, rfl⟩
  | .error ⟨_, stop⟩, .error ⟨_, stop'⟩ =>
    intro he
    have herror : exact → c.stopError stop = c.stopError stop' := fun hx => congrArg (c.stopError ·.stop) (he hx)
    change (c.stopError stop).Alike exact (c.stopError stop')
    cases stop <;> cases stop' <;> exact .of_eq herror
  | .ok _, .error _ | .error _, .ok _ => exact False.elim

end Chunk

namespace MergeSet

variable (m : MergeSet)

theorem deliver_alike (merged : List UInt32) :
    Attempt.Alike exact Eq (m.deliver merged schedule) (m.deliver merged schedule') := by
  have hsizes : Outcomes Eq (fun e e' => exact → e = e') (m.payloadSizes merged schedule) (m.payloadSizes merged schedule') :=
    collect_alike hs _ _
  unfold deliver
  match m.payloadSizes merged schedule, m.payloadSizes merged schedule', hsizes with
  | .error _, .error _, he => exact m.faultAt_alike fun hx => he hx
  | .ok sizes, .ok _, rfl =>
    dsimp only
    split
    next v _ => exact .violation v
    next =>
    unfold copied copyInto
    cases m.low.append _ with
    | error cause => exact .fault _ _ fun _ => ⟨rfl, .inl rfl⟩
    | ok low =>
      cases m.high.append _ with
      | error cause => exact .fault _ _ fun _ => ⟨rfl, .inl rfl⟩
      | ok high => exact ⟨rfl, rfl⟩

theorem merge_alike (cmp : Comparator) :
    Attempt.Alike exact Eq (m.merge cmp schedule) (m.merge cmp schedule') := by
  have horder : Outcomes Eq (fun e e' => exact → e = e') (m.order cmp schedule) (m.order cmp schedule') :=
    .of_eq_ok_iff (fun _ => order_eq_ok_iff.trans order_eq_ok_iff.symm) fun hx => by rw [hs hx]
  unfold merge
  split
  next v _ => exact .violation v
  next =>
  match m.order cmp schedule, m.order cmp schedule', horder with
  | .ok merged, .ok _, rfl => exact m.deliver_alike hs merged
  | .error stop, .error stop', he =>
    have herror : exact → m.stopError stop = m.stopError stop' := fun hx => congrArg m.stopError (he hx)
    change (m.stopError stop).Alike exact (m.stopError stop')
    cases stop <;> cases stop' <;> exact .of_eq herror

end MergeSet
end ChunkSort
