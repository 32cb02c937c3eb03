import ChunkSort.Proofs.Chunk.Append
import ChunkSort.Proofs.Chunk.Calls
import ChunkSort.Proofs.Chunk.Merge
import ChunkSort.Sorter.Engine

/-!
Engines that do what the comparator says as long as it is asked about rows, on chunks in good order. As soon as it would
be asked about something else, such an engine may do anything.
-/

namespace ChunkSort
namespace Handle

def front : Handle → Option Chunk
  | resident chunk => some chunk
  | spilled _ head => head

def Live (h : Handle) (r : Record) : Prop := ∃ c, h.front = some c ∧ c.Live r

theorem first?_eq (h : Handle) : h.first? = h.front.bind Chunk.first? := by
  cases h <;> rfl

theorem rows_eq (h : Handle) : h.rows = h.load.rows := by
  cases h <;> rfl

def compareFirstM {m : Type → Type} [Monad m] (cmp : ComparatorM m) (a b : Handle) : m (Except SortError Ordering) :=
  match a.first?, b.first? with
  | some ra, some rb => do
    match ← cmp ra rb with
    | .ok o => return .ok o
    | .error cause =>
      let (handle, record) := if ← cmp.chargesRight ra rb then (b, rb) else (a, ra)
      return .error (.fault handle.chunkId (if handle.isSpilled then none else some record.slot) cause)
  | _, _ => return .ok .eq

def firstCalls (cmp : Comparator) (a b : Handle) : Calls := ((compareFirstM (recorded cmp) a b).run []).2

theorem compareFirstM_recorded (cmp : Comparator) (a b : Handle) :
    ((compareFirstM (recorded cmp) a b).run []).1 = compareFirst cmp a b := by
  unfold compareFirstM compareFirst
  cases a.first? with
  | none => rfl
  | some ra =>
    cases b.first? with
    | none => rfl
    | some rb =>
      show (StateT.run (match cmp ra rb with | .ok o => _ | .error cause => _ : StateM Calls _) _).1 =
        (cmp ra rb).mapError _
      cases cmp ra rb with
      | ok o => rfl
      | error cause =>
        simp only [Except.mapError, ← recorded_chargesRight cmp ra rb [(ra, rb)]]
        rfl

variable {h x y : Handle}

theorem first?_live (hf : ∀ c, h.front = some c → c.WellFormed) {r : Record} (hr : h.first? = some r) : h.Live r := by
  rw [first?_eq] at hr
  obtain ⟨c, hc, hr⟩ := Option.bind_eq_some_iff.mp hr
  refine ⟨c, hc, ?_⟩
  rcases Nat.eq_zero_or_pos c.rows with hz | hpos
  · rw [Chunk.first?, Chunk.isEmpty, decide_eq_true hz] at hr
    cases hr
  · obtain ⟨slot, hs, hfirst, _⟩ := Chunk.exists_first (hf c hc) hpos
    rw [hfirst] at hr
    cases hr
    exact ⟨slot, hs, rfl⟩

theorem firstCalls_within (hf : ∀ c, x.front = some c ∨ y.front = some c → c.WellFormed) (cmp : Comparator) :
    (firstCalls cmp x y).Within fun r => x.Live r ∨ y.Live r := by
  unfold firstCalls compareFirstM
  cases hx : x.first? with
  | none => exact nofun
  | some ra =>
    cases hy : y.first? with
    | none => exact nofun
    | some rb =>
      have ha : x.Live ra ∨ y.Live ra := .inl (first?_live (fun c hc => hf c (.inl hc)) hx)
      have hb : x.Live rb ∨ y.Live rb := .inr (first?_live (fun c hc => hf c (.inr hc)) hy)
      have hcompare : Calls.Within (fun r => x.Live r ∨ y.Live r) [(ra, rb)] := List.forall_mem_singleton.mpr ⟨ha, hb⟩
      show Calls.Within _ (StateT.run (match cmp ra rb with | .ok o => _ | .error cause => _ : StateM Calls _) _).2
      cases cmp ra rb with
      | ok o => exact hcompare
      | error cause => exact chargesRight_within cmp ha hb hcompare

end Handle

/-- The engine does what the comparator says, on chunks in good order and while the comparator is asked about their rows. -/
structure Engine.Confined (e : Engine) (cmp : Comparator) (schedule : Schedule) : Prop where
  load : ∀ (c : Chunk) (b : Batch) projection offset, c.WellFormed → offset ≤ b.rows →
    e.load c b projection offset = c.load b projection offset schedule
  head : ∀ (c : Chunk) next, c.WellFormed → e.head c next = c.head next
  sort : ∀ c : Chunk, c.WellFormed → (c.sortCalls cmp schedule).Within c.Live → e.sort c = c.sort cmp schedule
  merge : ∀ s : MergeSet, s.WellFormed → (s.mergeCalls cmp schedule).Within s.Live → e.merge s = s.merge cmp schedule
  compareFirst : ∀ x y : Handle, (∀ c, x.front = some c ∨ y.front = some c → c.WellFormed) →
    ((Handle.firstCalls cmp x y).Within fun r => x.Live r ∨ y.Live r) → e.compareFirst x y = Handle.compareFirst cmp x y

theorem Comparator.engine_confined (cmp : Comparator) (schedule : Schedule) :
    (cmp.engine schedule).Confined cmp schedule where
  load _ _ _ _ _ _ := rfl
  head _ _ _ := rfl
  sort _ _ _ := rfl
  merge _ _ _ := rfl
  compareFirst _ _ _ _ := rfl

/-- An engine that gives up when a chunk is not in good order, or something else than a row would be compared. -/
noncomputable def Comparator.guarded (cmp : Comparator) (schedule : Schedule := {}) : Engine where
  load c b projection offset := open Classical in
    if c.WellFormed ∧ offset ≤ b.rows then c.load b projection offset schedule
    else ⟨c, .error (.contractViolation (.foreignLayout c.id))⟩
  load_progress {c b projection offset o} h hs he := by
    split at h
    next hin =>
      rw [if_pos hin] at he
      exact Chunk.load_progress h hs he
    next => cases h
  head c next := open Classical in if c.WellFormed then c.head next else (.ok none, next)
  sort c := open Classical in
    if c.WellFormed ∧ (c.sortCalls cmp schedule).Within c.Live then c.sort cmp schedule
    else ⟨c, .error (.contractViolation (.foreignLayout c.id))⟩
  merge s := open Classical in
    if s.WellFormed ∧ (s.mergeCalls cmp schedule).Within s.Live then s.merge cmp schedule
    else ⟨s, .error (.contractViolation (.foreignLayout s.x.id))⟩
  compareFirst x y := open Classical in
    if (Handle.firstCalls cmp x y).Within fun r => x.Live r ∨ y.Live r then Handle.compareFirst cmp x y
    else .error (.contractViolation (.foreignLayout x.chunkId))

theorem Comparator.guarded_confined (cmp : Comparator) (schedule : Schedule) :
    (cmp.guarded schedule).Confined cmp schedule where
  load _ _ _ _ hc hoff := if_pos ⟨hc, hoff⟩
  head _ _ hc := if_pos hc
  sort _ hc hcalls := if_pos ⟨hc, hcalls⟩
  merge _ hs hcalls := if_pos ⟨hs, hcalls⟩
  compareFirst _ _ _ hcalls := if_pos hcalls

namespace Engine.Confined

variable {e : Engine} {cmp : Comparator} {schedule : Schedule} (h : e.Confined cmp schedule)
include h

theorem load_eq {c : Chunk} (hc : c.WellFormed) (b : Batch) (projection : Option (List Nat)) {offset : Nat}
    (hoff : offset ≤ b.rows) : e.load c b projection offset = c.load b projection offset schedule :=
  h.load c b projection offset hc hoff

theorem head_eq {c : Chunk} (hc : c.WellFormed) (next : Nat) : e.head c next = c.head next := h.head c next hc

theorem sort_eq {c : Chunk} (hc : c.WellFormed) : e.sort c = c.sort cmp schedule :=
  h.sort c hc (hc.sortCalls_within cmp schedule)

theorem merge_eq {s : MergeSet} (hs : s.WellFormed) : e.merge s = s.merge cmp schedule :=
  h.merge s hs (hs.mergeCalls_within cmp schedule)

theorem compareFirst_eq {x y : Handle} (hf : ∀ c, x.front = some c ∨ y.front = some c → c.WellFormed) :
    e.compareFirst x y = Handle.compareFirst cmp x y := h.compareFirst x y hf (Handle.firstCalls_within hf cmp)

end Engine.Confined
end ChunkSort
