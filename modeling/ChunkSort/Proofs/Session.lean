import ChunkSort.Proofs.Chunk.Load
import ChunkSort.Proofs.Chunk.Merge
import ChunkSort.Spill.SpilledChunk

/-!
Sessions: chunks that are loaded, sorted, merged, copied from, spilled and restored in any order. Whatever
every chunk operation keeps holds of all chunks of a session, those in its files included.
-/

namespace ChunkSort

inductive Command where
  | load (place : Nat) (b : Batch) (projection : Option (List Nat)) (offset : Nat) (schedule : Schedule := {})
  | sort (place : Nat) (cmp : Comparator) (schedule : Schedule := {})
  | merge (x y low high : Nat) (cmp : Comparator) (schedule : Schedule := {})
  | head (place : Nat)
  /-- A chunk that cannot be written is lost. -/
  | spill (place : Nat) (written : Bool)
  | restore (file : Nat)

/-- A place stays empty once its chunk was spilled. -/
structure Session where
  chunks : List (Option Chunk)
  files : List SpilledChunk
  next : Nat

namespace Session

def chunk? (s : Session) (place : Nat) : Option Chunk := s.chunks[place]?.join

def put (s : Session) (place : Nat) (c : Chunk) : Session := { s with chunks := s.chunks.set place (some c) }

def add (s : Session) (c : Chunk) : Session := { s with chunks := s.chunks ++ [some c] }

def putAll (s : Session) (x y low high : Nat) (m : MergeSet) : Session :=
  (((s.put x m.x).put y m.y).put low m.low).put high m.high

/-- A failed operation keeps what it leaves behind. A command that names no chunk, or one chunk in two roles,
does nothing. -/
def step (s : Session) : Command → Session
  | .load place b projection offset schedule =>
    match s.chunk? place with
    | some c => s.put place (c.load b projection offset schedule).state
    | none => s
  | .sort place cmp schedule =>
    match s.chunk? place with
    | some c => s.put place (c.sort cmp schedule).state
    | none => s
  | .merge x y low high cmp schedule =>
    match s.chunk? x, s.chunk? y, s.chunk? low, s.chunk? high with
    | some cx, some cy, some cl, some ch =>
      if [x, y, low, high].Nodup then s.putAll x y low high (MergeSet.merge ⟨cx, cy, cl, ch⟩ cmp schedule).state else s
    | _, _, _, _ => s
  | .head place =>
    match s.chunk? place with
    | some c =>
      match c.head s.next with
      | (.ok (some h), next) => { s.add h with next }
      | (_, next) => { s with next }
    | none => s
  | .spill place written =>
    match s.chunk? place with
    | some c => { s with
        chunks := s.chunks.set place none
        files := if written then s.files ++ [c.spill] else s.files }
    | none => s
  | .restore file =>
    match s.files[file]? with
    | some f => s.add f.restore
    | none => s

def run (s : Session) (commands : List Command) : Session := commands.foldl step s

end Session

inductive Origin where
  | chunk (l : Layout)
  | destination (l : Layout)

namespace Origin

def make (number : Nat) : Origin → Chunk
  | chunk l => l.chunk number
  | destination l => l.destination number

def shape : Origin → Shape
  | chunk l => ⟨l.schema, l.capacity, l.sideLimit⟩
  | destination l => ⟨l.schema, l.capacity, none⟩

end Origin

def Session.start (next : Nat) (origins : List Origin) : Session where
  chunks := origins.mapIdx fun i o => some (o.make (next + i))
  files := []
  next := next + origins.length

/-! ### What every operation keeps -/

structure Kept (P : Chunk → Prop) : Prop where
  load : ∀ c b projection offset schedule, P c → P (c.load b projection offset schedule).state
  sort : ∀ c cmp schedule, P c → P (c.sort cmp schedule).state
  merge : ∀ (s : MergeSet) cmp schedule, P s.x → P s.y → P s.low → P s.high →
    P (s.merge cmp schedule).state.x ∧ P (s.merge cmp schedule).state.y ∧ P (s.merge cmp schedule).state.low ∧
      P (s.merge cmp schedule).state.high
  head : ∀ (c h : Chunk) next next', P c → c.head next = (.ok (some h), next') → P h

namespace Session

inductive Effect (s : Session) : Session → Prop where
  | idle (next : Nat) : Effect s { s with next }
  | loaded {place : Nat} {c : Chunk} (hc : s.chunk? place = some c) (b : Batch) (projection : Option (List Nat))
      (offset : Nat) (schedule : Schedule) : Effect s (s.put place (c.load b projection offset schedule).state)
  | sorted {place : Nat} {c : Chunk} (hc : s.chunk? place = some c) (cmp : Comparator) (schedule : Schedule) :
      Effect s (s.put place (c.sort cmp schedule).state)
  | merged {x y low high : Nat} {cx cy cl ch : Chunk} (hx : s.chunk? x = some cx) (hy : s.chunk? y = some cy)
      (hl : s.chunk? low = some cl) (hh : s.chunk? high = some ch) (cmp : Comparator) (schedule : Schedule) :
      Effect s (s.putAll x y low high (MergeSet.merge ⟨cx, cy, cl, ch⟩ cmp schedule).state)
  | copied {place : Nat} {c hd : Chunk} {next : Nat} (hc : s.chunk? place = some c)
      (hcopy : c.head s.next = (.ok (some hd), next)) : Effect s { s.add hd with next }
  | spilled {place : Nat} {c : Chunk} {files : List SpilledChunk} (hc : s.chunk? place = some c)
      (hfiles : ∀ f ∈ files, f ∈ s.files ∨ f = c.spill) :
      Effect s { s with chunks := s.chunks.set place none, files }
  | restored {file : Nat} {f : SpilledChunk} (hf : s.files[file]? = some f) : Effect s (s.add f.restore)

theorem step_effect (s : Session) (command : Command) : s.Effect (s.step command) := by
  cases command with
  | load place b projection offset schedule =>
    simp only [step]
    split
    next c hc => exact .loaded hc b projection offset schedule
    next => exact .idle s.next
  | sort place cmp schedule =>
    simp only [step]
    split
    next c hc => exact .sorted hc cmp schedule
    next => exact .idle s.next
  | merge x y low high cmp schedule =>
    simp only [step]
    split
    next cx cy cl ch hx hy hl hh =>
      split
      · exact .merged hx hy hl hh cmp schedule
      · exact .idle s.next
    next => exact .idle s.next
  | head place =>
    simp only [step]
    split
    next c hc =>
      split
      next hd next hcopy => exact .copied hc hcopy
      next => exact .idle _
    next => exact .idle s.next
  | spill place written =>
    simp only [step]
    split
    next c hc =>
      refine .spilled hc fun f hf => ?_
      cases written with
      | false => exact .inl hf
      | true => exact (List.mem_append.mp hf).imp_right List.mem_singleton.mp
    next => exact .idle s.next
  | restore file =>
    simp only [step]
    split
    next f hf => exact .restored hf
    next => exact .idle s.next

structure All (P : Chunk → Prop) (s : Session) : Prop where
  chunks : ∀ c, some c ∈ s.chunks → P c
  files : ∀ f ∈ s.files, P f.restore

theorem mem_of_chunk? {s : Session} {place : Nat} {c : Chunk} (h : s.chunk? place = some c) : some c ∈ s.chunks :=
  List.mem_of_getElem? (Option.join_eq_some_iff.mp h)

variable {P : Chunk → Prop} {s : Session}

theorem All.put (h : s.All P) {c : Chunk} (hc : P c) (place : Nat) : (s.put place c).All P where
  chunks c' hc' := by
    rcases List.mem_or_eq_of_mem_set hc' with hmem | heq
    · exact h.chunks c' hmem
    · cases heq
      exact hc
  files := h.files

theorem All.add (h : s.All P) {c : Chunk} (hc : P c) : (s.add c).All P where
  chunks c' hc' := by
    rcases List.mem_append.mp hc' with hmem | heq
    · exact h.chunks c' hmem
    · cases List.mem_singleton.mp heq
      exact hc
  files := h.files

theorem All.effect (hk : Kept P) (h : s.All P) {s' : Session} (he : s.Effect s') : s'.All P := by
  cases he with
  | idle next => exact ⟨h.chunks, h.files⟩
  | loaded hc b projection offset schedule =>
    exact h.put (hk.load _ b projection offset schedule (h.chunks _ (mem_of_chunk? hc))) _
  | sorted hc cmp schedule => exact h.put (hk.sort _ cmp schedule (h.chunks _ (mem_of_chunk? hc))) _
  | @merged x y low high cx cy cl ch hx hy hl hh cmp schedule =>
    obtain ⟨px, py, pl, ph⟩ := hk.merge ⟨cx, cy, cl, ch⟩ cmp schedule (h.chunks cx (mem_of_chunk? hx))
      (h.chunks cy (mem_of_chunk? hy)) (h.chunks cl (mem_of_chunk? hl)) (h.chunks ch (mem_of_chunk? hh))
    exact (((h.put px x).put py y).put pl low).put ph high
  | copied hc hcopy =>
    have hadd := h.add (hk.head _ _ _ _ (h.chunks _ (mem_of_chunk? hc)) hcopy)
    exact ⟨hadd.chunks, hadd.files⟩
  | @spilled place c files hc hfiles =>
    constructor
    · intro c' hc'
      rcases List.mem_or_eq_of_mem_set hc' with hmem | heq
      · exact h.chunks c' hmem
      · cases heq
    · intro f hf
      rcases hfiles f hf with hmem | rfl
      · exact h.files f hmem
      · exact h.chunks c (mem_of_chunk? hc)
  | restored hf => exact h.add (h.files _ (List.mem_of_getElem? hf))

theorem All.step (hk : Kept P) (h : s.All P) (command : Command) : (s.step command).All P :=
  h.effect hk (s.step_effect command)

theorem All.run (hk : Kept P) (h : s.All P) (commands : List Command) : (s.run commands).All P := by
  induction commands generalizing s with
  | nil => exact h
  | cons command commands ih => exact ih (h.step hk command)

end Session

theorem Chunk.WellFormed.head {c h : Chunk} (hc : c.WellFormed) {next next' : Nat}
    (hh : c.head next = (.ok (some h), next')) : h.WellFormed ∧ h.schema = c.schema := by
  rcases Chunk.head_spec hc next with ⟨_, heq⟩ | ⟨h', row, heq, _, happ⟩
  · rw [heq] at hh
    cases hh
  · rw [heq] at hh
    cases hh
    exact ⟨happ.wellFormed, by simp [happ.schema]⟩

theorem Chunk.WellFormed.kept : Kept Chunk.WellFormed where
  load _ b projection offset schedule hc := (hc.load b projection offset schedule).1
  sort _ cmp schedule hc := (Chunk.sort_reordered hc cmp schedule).1.wellFormed
  merge _ cmp schedule hx hy hl hh := by
    have hwf := (MergeSet.WellFormed.merge ⟨hx, hy, hl, hh⟩ cmp schedule).1
    exact ⟨hwf.x, hwf.y, hwf.low, hwf.high⟩
  head _ _ _ _ hc hh := (hc.head hh).1

theorem kept_wellFormed (schemas : List (List ColumnType)) : Kept fun c => c.WellFormed ∧ c.schema ∈ schemas where
  load c b projection offset schedule hc := by
    obtain ⟨hwf, hshape⟩ := hc.1.load b projection offset schedule
    exact ⟨hwf, Chunk.schema_of_shape hshape ▸ hc.2⟩
  sort c cmp schedule hc := by
    have hr := (Chunk.sort_reordered hc.1 cmp schedule).1
    exact ⟨hr.wellFormed, hr.schema ▸ hc.2⟩
  merge s cmp schedule hx hy hl hh := by
    obtain ⟨hwf, sx, sy, sl, sh⟩ := MergeSet.WellFormed.merge ⟨hx.1, hy.1, hl.1, hh.1⟩ cmp schedule
    exact ⟨⟨hwf.x, Chunk.schema_of_shape sx ▸ hx.2⟩, ⟨hwf.y, Chunk.schema_of_shape sy ▸ hy.2⟩,
      ⟨hwf.low, Chunk.schema_of_shape sl ▸ hl.2⟩, ⟨hwf.high, Chunk.schema_of_shape sh ▸ hh.2⟩⟩
  head c h next next' hc hh := by
    obtain ⟨hwf, hschema⟩ := hc.1.head hh
    exact ⟨hwf, hschema ▸ hc.2⟩

/-! ### Shapes by place -/

namespace Session

structure Continues (s s' : Session) : Prop where
  length : s.chunks.length ≤ s'.chunks.length
  shape : ∀ place < s.chunks.length, ∀ c', s'.chunk? place = some c' →
    ∃ c, s.chunk? place = some c ∧ c'.shape = c.shape

namespace Continues

variable {s s' s'' : Session}

theorem refl (s : Session) : s.Continues s := ⟨Nat.le_refl _, fun _ _ c hc => ⟨c, hc, rfl⟩⟩

theorem trans (h : s.Continues s') (h' : s'.Continues s'') : s.Continues s'' where
  length := Nat.le_trans h.length h'.length
  shape place hp c'' hc'' := by
    obtain ⟨c', hc', e'⟩ := h'.shape place (Nat.lt_of_lt_of_le hp h.length) c'' hc''
    obtain ⟨c, hc, e⟩ := h.shape place hp c' hc'
    exact ⟨c, hc, e'.trans e⟩

theorem put {place : Nat} {c₀ c : Chunk} (h : s.Continues s')
    (hc₀ : s.chunk? place = some c₀) (hc : c.shape = c₀.shape) : s.Continues (s'.put place c) where
  length := by
    rw [Session.put, List.length_set]
    exact h.length
  shape p hlt c' hc' := by
    have hlt' := Nat.lt_of_lt_of_le hlt h.length
    by_cases he : place = p
    · subst he
      rw [chunk?, Session.put, List.getElem?_set_self hlt'] at hc'
      cases hc'
      exact ⟨c₀, hc₀, hc⟩
    · rw [chunk?, Session.put, List.getElem?_set_ne he] at hc'
      exact h.shape p hlt c' hc'

theorem add (s : Session) (c : Chunk) : s.Continues (s.add c) where
  length := by
    rw [Session.add, List.length_append]
    exact Nat.le_add_right ..
  shape p hlt c' hc' := by
    rw [chunk?, Session.add, List.getElem?_append_left hlt] at hc'
    exact ⟨c', hc', rfl⟩

end Continues

theorem Effect.continues {s s' : Session} (he : s.Effect s') (h : s.All Chunk.WellFormed) : s.Continues s' := by
  cases he with
  | idle next => exact ⟨Nat.le_refl _, fun _ _ c hc => ⟨c, hc, rfl⟩⟩
  | loaded hc b projection offset schedule =>
    have hload := (h.chunks _ (mem_of_chunk? hc)).load b projection offset schedule
    exact (Continues.refl s).put hc hload.2
  | sorted hc cmp schedule =>
    have hsort := (Chunk.sort_reordered (h.chunks _ (mem_of_chunk? hc)) cmp schedule).1
    exact (Continues.refl s).put hc hsort.shape
  | @merged x y low high cx cy cl ch hx hy hl hh cmp schedule =>
    obtain ⟨_, sx, sy, sl, sh⟩ := MergeSet.WellFormed.merge (s := ⟨cx, cy, cl, ch⟩)
      ⟨h.chunks cx (mem_of_chunk? hx), h.chunks cy (mem_of_chunk? hy), h.chunks cl (mem_of_chunk? hl),
        h.chunks ch (mem_of_chunk? hh)⟩ cmp schedule
    exact ((((Continues.refl s).put hx sx).put hy sy).put hl sl).put hh sh
  | @copied _ _ hd _ _ _ =>
    -- The copy gets a place of its own, behind all others.
    have hadd := Continues.add s hd
    exact ⟨hadd.length, hadd.shape⟩
  | @spilled place c files _ _ =>
    refine ⟨Nat.le_of_eq (List.length_set ..).symm, fun p hlt c' hc' => ?_⟩
    rw [chunk?] at hc'
    by_cases he : place = p
    · subst he
      rw [List.getElem?_set_self hlt] at hc'
      cases hc'
    · rw [List.getElem?_set_ne he] at hc'
      exact ⟨c', hc', rfl⟩
  | @restored _ f _ => exact .add s f.restore

theorem run_continues {s : Session} {schemas : List (List ColumnType)}
    (h : s.All fun c => c.WellFormed ∧ c.schema ∈ schemas) (commands : List Command) : s.Continues (s.run commands) := by
  induction commands generalizing s with
  | nil => exact .refl s
  | cons command commands ih =>
    have hstep := (s.step_effect command).continues ⟨fun c hc => (h.chunks c hc).1, fun f hf => (h.files f hf).1⟩
    exact hstep.trans (ih (h.step (kept_wellFormed schemas) command))

/-! ### Sessions over made chunks -/

theorem chunk?_start {next place : Nat} {origins : List Origin} {c : Chunk}
    (h : (start next origins).chunk? place = some c) : ∃ o, origins[place]? = some o ∧ c = o.make (next + place) := by
  rw [chunk?, start, List.getElem?_mapIdx] at h
  cases ho : origins[place]? with
  | none =>
    rw [ho] at h
    cases h
  | some o =>
    rw [ho] at h
    cases h
    exact ⟨o, rfl, rfl⟩

end Session

theorem Origin.make_wellFormed (o : Origin) (number : Nat) : (o.make number).WellFormed ∧ (o.make number).shape = o.shape := by
  cases o with
  | chunk l => exact ⟨Chunk.wellFormed_empty _ _ l.capacity_le _, Chunk.shape_empty ..⟩
  | destination l => exact ⟨Chunk.wellFormed_empty _ _ l.capacity_le _, Chunk.shape_empty ..⟩

namespace Session

theorem start_all (next : Nat) (origins : List Origin) :
    (start next origins).All fun c => c.WellFormed ∧ c.schema ∈ origins.map fun o => o.shape.schema where
  chunks c hc := by
    obtain ⟨place, hp, hget⟩ := List.getElem_of_mem hc
    have hchunk : (start next origins).chunk? place = some c := by
      rw [chunk?, List.getElem?_eq_getElem hp, hget]
      rfl
    obtain ⟨o, ho, rfl⟩ := chunk?_start hchunk
    obtain ⟨hwf, hshape⟩ := o.make_wellFormed (next + place)
    have hschema : (o.make (next + place)).schema = o.shape.schema := congrArg Shape.schema hshape
    exact ⟨hwf, hschema ▸ List.mem_map_of_mem (List.mem_of_getElem? ho)⟩
  files _ hf := absurd hf List.not_mem_nil

/-- After any steps every chunk of a session is well-formed, in memory or in a file. Its schema is one of those
that chunks were made with, and a chunk at its first place still has all of its shape. -/
theorem run_start_wellFormed (next : Nat) (origins : List Origin) (commands : List Command) :
    ((start next origins).run commands).All
        (fun c => c.WellFormed ∧ c.schema ∈ origins.map fun o => o.shape.schema) ∧
      ∀ place o c, origins[place]? = some o → ((start next origins).run commands).chunk? place = some c →
        c.shape = o.shape := by
  have hstart := start_all next origins
  refine ⟨hstart.run (kept_wellFormed _) commands, fun place o c ho hc => ?_⟩
  have hplace : place < (start next origins).chunks.length := by
    rw [start, List.length_mapIdx]
    exact (List.getElem?_eq_some_iff.mp ho).1
  obtain ⟨c₀, hc₀, hshape⟩ := (run_continues hstart commands).shape place hplace c hc
  obtain ⟨o', ho', rfl⟩ := chunk?_start hc₀
  rw [ho] at ho'
  cases ho'
  exact hshape.trans (o.make_wellFormed (next + place)).2

end Session
end ChunkSort
