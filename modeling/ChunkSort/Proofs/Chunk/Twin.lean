import ChunkSort.Chunk.Load
import ChunkSort.Chunk.Merge
import ChunkSort.Proofs.Outcome

/-!
Pairs of chunks that go the same way. Those that differ in their numbers only do so in all operations, and only errors
tell the numbers.
-/

namespace ChunkSort

variable {α β ε ε' σ : Type}

def Outcomes (Q : α → β → Prop) (E : ε → ε' → Prop) : Except ε α → Except ε' β → Prop
  | .ok a, .ok b => Q a b
  | .error e, .error e' => E e e'
  | _, _ => False

theorem Outcomes.bind {α' β' : Type} {Q : α → β → Prop} {R : α' → β' → Prop} {E : ε → ε' → Prop}
    {r : Except ε α} {r' : Except ε' β} {f : α → Except ε α'} {f' : β → Except ε' β'} (h : Outcomes Q E r r')
    (hf : ∀ a b, Q a b → Outcomes R E (f a) (f' b)) : Outcomes R E (r >>= f) (r' >>= f') := by
  match r, r', h with
  | .ok a, .ok b, h => exact hf a b h
  | .error _, .error _, h => exact h

theorem Outcomes.map {α' β' : Type} {Q : α → β → Prop} {R : α' → β' → Prop} {E : ε → ε' → Prop} {r : Except ε α}
    {r' : Except ε' β} {f : α → α'} {f' : β → β'} (h : Outcomes Q E r r') (hf : ∀ a b, Q a b → R (f a) (f' b)) :
    Outcomes R E (r.map f) (r'.map f') := by
  match r, r', h with
  | .ok a, .ok b, h => exact hf a b h
  | .error _, .error _, h => exact h

theorem Outcomes.refl (r : Except ε α) : Outcomes Eq Eq r r := by
  cases r <;> exact rfl

theorem Outcomes.exists_of_isOk {Q : α → β → Prop} {E : ε → ε' → Prop} {r : Except ε α} {r' : Except ε' β}
    (h : Outcomes Q E r r') (hok : r.isOk = true) : ∃ a b, r = .ok a ∧ r' = .ok b ∧ Q a b := by
  match r, r', h with
  | .ok a, .ok b, h => exact ⟨a, b, rfl, rfl, h⟩

theorem Outcomes.meet {γ ε'' : Type} {Q : α → γ → Prop} {R : β → γ → Prop} {E : ε → ε'' → Prop} {F : ε' → ε'' → Prop}
    {r : Except ε α} {r' : Except ε' β} {t : Except ε'' γ} (h : Outcomes Q E r t) (h' : Outcomes R F r' t) :
    Outcomes (fun a b => ∃ c, Q a c ∧ R b c) (fun e e' => ∃ c, E e c ∧ F e' c) r r' := by
  match r, r', t, h, h' with
  | .ok _, .ok _, .ok c, h, h' => exact ⟨c, h, h'⟩
  | .error _, .error _, .error c, h, h' => exact ⟨c, h, h'⟩

def Attempt.Related (S : σ → σ → Prop) (E : SortError → SortError → Prop) (a a' : Attempt σ α) : Prop :=
  S a.state a'.state ∧ Outcomes Eq E a.result a'.result

/-- The same kind of failure. If they are to agree exactly then it is the same one, but for the number of the chunk and
for a row that only the second one names. -/
inductive SortError.Alike (exact : Prop) : SortError → SortError → Prop
  | fault (chunk chunk' : Nat) {row row' : Option Nat} {cause cause' : DataError}
      (h : exact → cause = cause' ∧ (row = row' ∨ row = none)) : Alike exact (.fault chunk row cause) (.fault chunk' row' cause')
  | violation (v : Violation) : Alike exact (.contractViolation v) (.contractViolation v)

def Attempt.Alike (exact : Prop) (S : σ → σ → Prop) (a a' : Attempt σ α) : Prop :=
  Outcomes (fun v v' => v = v' ∧ S a.state a'.state) (SortError.Alike exact) a.result a'.result

theorem Attempt.Related.alike {exact : Prop} {S : σ → σ → Prop} {a a' : Attempt σ α}
    (h : a.Related S (SortError.Alike exact) a') : a.Alike exact S a' := by
  obtain ⟨hstate, hresult⟩ := h
  unfold Attempt.Alike
  match a.result, a'.result, hresult with
  | .ok _, .ok _, rfl => exact ⟨rfl, hstate⟩
  | .error _, .error _, he => exact he

namespace Attempt.Alike

variable {exact : Prop} {S : σ → σ → Prop} {a a' : Attempt σ α} (h : a.Alike exact S a')
include h

theorem of_ok {v : α} (hv : a.result = .ok v) : a'.result = .ok v ∧ S a.state a'.state := by
  unfold Attempt.Alike at h
  rw [hv] at h
  match a'.result, h with
  | .ok _, ⟨rfl, hstate⟩ => exact ⟨rfl, hstate⟩

theorem of_error {e : SortError} (he : a.result = .error e) : ∃ e', a'.result = .error e' ∧ e.Alike exact e' := by
  unfold Attempt.Alike at h
  rw [he] at h
  match a'.result, h with
  | .error e', halike => exact ⟨e', rfl, halike⟩

end Attempt.Alike

namespace Chunk

section Loads

variable {S : Chunk → Chunk → Prop} {c c' : Chunk} (hschema : c'.schema = c.schema) (hside : c'.side = c.side)
  (hfree : c'.freeRows = c.freeRows) (happend : ∀ rows, Outcomes S Eq (c.append rows) (c'.append rows))
  (hstatus : ∀ {d d' : Chunk}, S d d' → ∀ status, S (d.withStatus status) (d'.withStatus status))
include hschema hside hfree happend hstatus

theorem place_related (b : Batch) (projection : Option (List Nat)) (offset : Nat) (schedule : Schedule) :
    Outcomes (fun r r' => S r.1 r'.1 ∧ r.2 = r'.2) Eq (c.place b projection offset schedule)
      (c'.place b projection offset schedule) := by
  unfold Chunk.place
  rw [hfree, hschema, hside]
  refine (Outcomes.refl _).bind ?_
  rintro sizes _ rfl
  refine (happend _).bind fun filled filled' hfilled => ?_
  exact ⟨hstatus hfilled _, rfl⟩

theorem load_related {E : SortError → SortError → Prop} (h : S c c')
    (hfault : ∀ cause, E (.fault c.id none cause) (.fault c'.id none cause))
    (hviolation : ∀ v, E (.contractViolation v) (.contractViolation v)) (b : Batch) (projection : Option (List Nat))
    (offset : Nat) (schedule : Schedule) :
    Attempt.Related S E (c.load b projection offset schedule) (c'.load b projection offset schedule) := by
  have hplace := place_related hschema hside hfree happend hstatus b projection offset schedule
  have hwidth : c'.widthError? b projection = c.widthError? b projection := by
    unfold widthError?
    rw [hschema]
  unfold Chunk.load
  rw [hwidth]
  cases loadViolation? b offset with
  | some v => exact ⟨h, hviolation v⟩
  | none =>
    cases c.widthError? b projection with
    | some cause => exact ⟨hstatus h .fault, hfault cause⟩
    | none =>
      simp only [Option.elim]
      match c.place b projection offset schedule, c'.place b projection offset schedule, hplace with
      | .ok _, .ok _, ⟨hstate, ho⟩ => exact ⟨hstate, ho⟩
      | .error cause, .error _, rfl => exact ⟨hstatus h .fault, hfault cause⟩

end Loads

def Twin (c c' : Chunk) : Prop := ∃ id, c' = { c with id }

variable {c c' : Chunk} {exact : Prop}

theorem Twin.refl (c : Chunk) : c.Twin c := ⟨c.id, rfl⟩

theorem Twin.symm (h : c.Twin c') : c'.Twin c := by
  obtain ⟨id, rfl⟩ := h
  exact ⟨c.id, rfl⟩

theorem Twin.trans {c'' : Chunk} (h : c.Twin c') (h' : c'.Twin c'') : c.Twin c'' := by
  obtain ⟨id, rfl⟩ := h
  obtain ⟨id', rfl⟩ := h'
  exact ⟨id', rfl⟩

theorem Twin.rows (h : c.Twin c') : c'.rows = c.rows := by
  obtain ⟨id, rfl⟩ := h
  rfl

theorem Twin.isEmpty (h : c.Twin c') : c'.isEmpty = c.isEmpty := by
  obtain ⟨id, rfl⟩ := h
  rfl

theorem Twin.sortedRecords (h : c.Twin c') : c'.sortedRecords = c.sortedRecords := by
  obtain ⟨id, rfl⟩ := h
  rfl

theorem Twin.clear (h : c.Twin c') : c.clear.Twin c'.clear := by
  obtain ⟨id, rfl⟩ := h
  exact ⟨id, rfl⟩

theorem Twin.withStatus (h : c.Twin c') (status : Status) : (c.withStatus status).Twin (c'.withStatus status) := by
  obtain ⟨id, rfl⟩ := h
  exact ⟨id, rfl⟩

theorem Twin.append (h : c.Twin c') (rows : List SourceRow) : Outcomes Twin Eq (c.append rows) (c'.append rows) := by
  obtain ⟨id, rfl⟩ := h
  simp only [Chunk.append, reserve, fill, freeRows]
  refine (Outcomes.refl _).bind ?_
  rintro r _ rfl
  refine (Outcomes.refl _).bind ?_
  rintro index _ rfl
  exact ⟨id, rfl⟩

theorem Twin.load (h : c.Twin c') (b : Batch) (projection : Option (List Nat)) (offset : Nat) (schedule : Schedule) :
    Attempt.Alike exact Twin (c.load b projection offset schedule) (c'.load b projection offset schedule) := by
  have happend := h.append
  obtain ⟨hschema, hside, hfree⟩ : c'.schema = c.schema ∧ c'.side = c.side ∧ c'.freeRows = c.freeRows := by
    obtain ⟨id, rfl⟩ := h
    exact ⟨rfl, rfl, rfl⟩
  exact (load_related hschema hside hfree happend Twin.withStatus h (fun cause => .fault _ _ fun _ => ⟨rfl, .inl rfl⟩)
    .violation b projection offset schedule).alike

theorem Twin.sort (h : c.Twin c') (cmp : Comparator) (schedule : Schedule) :
    Attempt.Alike exact Twin (c.sort cmp schedule) (c'.sort cmp schedule) := by
  obtain ⟨id, rfl⟩ := h
  unfold Chunk.sort afterRun
  have hrecord : recordOf { c with id } = recordOf c := rfl
  simp only [hrecord]
  split
  next index _ => exact ⟨rfl, id, rfl⟩
  next index stop _ => cases stop <;> exact .fault _ _ fun _ => ⟨rfl, .inl rfl⟩

end Chunk

namespace MergeSet

structure Twin (m m' : MergeSet) : Prop where
  x : m.x.Twin m'.x
  y : m.y.Twin m'.y
  low : m.low.Twin m'.low
  high : m.high.Twin m'.high

theorem shortfall?_of_unlimited {m : MergeSet} (hlow : m.low.side.limit = none) (hhigh : m.high.side.limit = none)
    (split : Nat) (sizes : List Nat) : m.shortfall? split sizes = none := by
  simp [shortfall?, SideBuffer.fits, SideBuffer.room, hlow, hhigh]

namespace Twin

variable {m m' : MergeSet} {exact : Prop} (h : m.Twin m')
include h

theorem half : m'.half = m.half := by rw [MergeSet.half, MergeSet.half, h.x.rows, h.y.rows]

theorem locate (entry : UInt32) :
    (m.locate entry).1.Twin (m'.locate entry).1 ∧ (m'.locate entry).2 = (m.locate entry).2 := by
  unfold MergeSet.locate
  rw [h.half]
  split
  · exact ⟨h.x, rfl⟩
  · exact ⟨h.y, rfl⟩

theorem recordOf : m'.recordOf = m.recordOf := by
  funext entry
  obtain ⟨⟨id, hchunk⟩, hslot⟩ := h.locate entry
  simp only [MergeSet.recordOf, hchunk, hslot]
  rfl

theorem order (cmp : Comparator) (schedule : Schedule) : m'.order cmp schedule = m.order cmp schedule := by
  have hties : m'.ties = m.ties := by
    funext a b
    rw [ties, ties, h.half]
  unfold MergeSet.order
  rw [h.recordOf, hties, h.half, h.x.rows, h.y.rows, h.x.isEmpty, h.y.isEmpty]
  obtain ⟨⟨_, hx⟩, ⟨_, hy⟩, _, _⟩ := h
  rw [hx, hy]

theorem payloadSizes (merged : List UInt32) (schedule : Schedule) :
    m'.payloadSizes merged schedule = m.payloadSizes merged schedule := by
  unfold MergeSet.payloadSizes
  rw [h.recordOf]
  obtain ⟨_, _, ⟨_, hlow⟩, _⟩ := h
  rw [hlow]
  rfl

theorem faultAt (f : EntryFault) : (m.faultAt f).Alike exact (m'.faultAt f) := by
  simp only [MergeSet.faultAt, (h.locate f.entry).2]
  exact .fault _ _ fun _ => ⟨rfl, .inl rfl⟩

theorem stopError (stop : Stop EntryFault) : (m.stopError stop).Alike exact (m'.stopError stop) := by
  cases stop with
  | failed f => exact h.faultAt f
  | outOfBounds slot => exact .fault _ _ fun _ => ⟨rfl, .inl rfl⟩

theorem copied (merged : List UInt32) :
    Outcomes (fun r r' => r.1.Twin r'.1 ∧ r.2.Twin r'.2) (SortError.Alike exact) (m.copied merged) (m'.copied merged) := by
  have hcopy : ∀ {c c' : Chunk} (entries : List UInt32), c.Twin c' →
      Outcomes Chunk.Twin (SortError.Alike exact) (m.copyInto c entries) (m'.copyInto c' entries) := by
    intro c c' entries hc
    unfold copyInto
    rw [h.recordOf]
    match c.append _, c'.append _, hc.append (entries.map fun e => (m.recordOf e).toSource) with
    | .ok _, .ok _, htwin => exact htwin.withStatus .success
    | .error cause, .error _, rfl => exact .fault _ _ fun _ => ⟨rfl, .inl rfl⟩
  have hsplit : m'.split merged = m.split merged := by
    obtain ⟨_, _, ⟨_, hlow⟩, _⟩ := h
    rw [split, split, hlow]
  unfold MergeSet.copied
  rw [hsplit]
  refine (hcopy _ h.low).bind fun low low' hlow => (hcopy _ h.high).bind fun high high' hhigh => ?_
  exact ⟨hlow, hhigh⟩

theorem merge (cmp : Comparator) (schedule : Schedule) (hv : m.layoutViolation? = none) (hv' : m'.layoutViolation? = none)
    (hlow : m.low.side.limit = none) (hhigh : m.high.side.limit = none) :
    Attempt.Alike exact Twin (m.merge cmp schedule) (m'.merge cmp schedule) := by
  have hbytes := shortfall?_of_unlimited hlow hhigh
  have hbytes' : ∀ split sizes, m'.shortfall? split sizes = none := by
    obtain ⟨_, _, ⟨_, hl⟩, ⟨_, hh⟩⟩ := h
    exact shortfall?_of_unlimited (hl ▸ hlow) (hh ▸ hhigh)
  unfold MergeSet.merge afterOrder deliver
  simp only [hv, hv', h.order, h.payloadSizes, hbytes, hbytes']
  split
  next stop _ => exact h.stopError stop
  next merged _ =>
  split
  next f _ => exact h.faultAt f
  next sizes _ =>
  have hcopied : Outcomes _ (SortError.Alike exact) _ _ := h.copied merged
  match m.copied merged, m'.copied merged, hcopied with
  | .ok _, .ok _, ⟨hl, hh⟩ => exact ⟨rfl, h.x.clear.withStatus _, h.y.clear.withStatus _, hl, hh⟩
  | .error _, .error _, he => exact he

end Twin
end MergeSet
end ChunkSort
