import Mathlib
import ChunkSort.Proofs.Chunk.Leftovers
import ChunkSort.Proofs.Session

/-!
Consumed chunks are as good as new. Sessions whose chunks differ in their numbers and in leftovers answer every command
alike, and do not differ in anything else afterwards.
-/

namespace ChunkSort

inductive Answer where
  | nothing
  | loaded (result : Except SortError LoadOutcome)
  | finished (result : Except SortError Unit)
  /-- Whether there was a row to copy. -/
  | copied (result : Except DataError Bool)
  | spilled (descriptor : Spill.Descriptor)

/-- Descriptors that differ in the number of the chunk and in the length of its encoded store, so that the sections
behind the store may be elsewhere. -/
def Spill.Descriptor.Resembles (R : Nat → Nat → Prop) (d d' : Spill.Descriptor) : Prop :=
  R d.chunk d'.chunk ∧ d' = { d with chunk := d'.chunk, storeLength := d'.storeLength }

namespace Answer

def Matches (R : Nat → Nat → Prop) : Answer → Answer → Prop
  | nothing, nothing => True
  | loaded r, loaded r' => Outcomes Eq (SortError.Renumbered R) r r'
  | finished r, finished r' => Outcomes Eq (SortError.Renumbered R) r r'
  | copied r, copied r' => r = r'
  | spilled d, spilled d' => d.Resembles R d'
  | _, _ => False

end Answer

def Command.Discreet : Command → Prop
  | .sort _ cmp _ | .merge _ _ _ _ cmp _ => cmp.Discreet
  | _ => True

structure Chunk.ReadsAlike (c c' : Chunk) : Prop where
  schema : c'.schema = c.schema
  rows : c'.rows = c.rows
  status : c'.status = c.status
  value : ∀ slot column, c'.value slot column = c.value slot column
  record : ∀ slot, Option.Rel Record.Resembles (c.record? slot) (c'.record? slot)
  sortedRecords : List.Forall₂ Record.Resembles c.sortedRecords c'.sortedRecords
  sortedIds : c'.sortedIds = c.sortedIds

theorem Chunk.Resembles.readsAlike {c c' : Chunk} (h : c.Resembles c') (hc : c.WellFormed) : c.ReadsAlike c' where
  schema := h.schema
  rows := h.rows
  status := h.status
  value := h.value
  record slot := by
    unfold Chunk.record?
    rw [h.rows]
    split
    next hs => exact .some (h.record hs)
    next => exact .none
  sortedRecords := h.sortedRecords hc
  sortedIds := mapM_congr_forall₂ ((h.sortedRecords hc).imp fun _ _ hr => hr.id)

theorem Chunk.Resembles.descriptor {c c' : Chunk} (h : c.Resembles c') {R : Nat → Nat → Prop} (hR : R c.id c'.id)
    (codec : Spill.Codec) : (c.spill.descriptor codec).Resembles R (c'.spill.descriptor codec) := by
  refine ⟨hR, ?_⟩
  simp only [Chunk.spill, SpilledChunk.descriptor, SpilledChunk.sections, h.rows, h.capacity, h.side, h.index, h.status]

namespace Session

/-- A spilled chunk answers with its descriptor. The file itself can be read by restoring only. -/
def answer (codec : Spill.Codec) (s : Session) : Command → Answer
  | .load place b projection offset schedule =>
    match s.chunk? place with
    | some c => .loaded (c.load b projection offset schedule).result
    | none => .nothing
  | .sort place cmp schedule =>
    match s.chunk? place with
    | some c => .finished (c.sort cmp schedule).result
    | none => .nothing
  | .merge x y low high cmp schedule =>
    match s.chunk? x, s.chunk? y, s.chunk? low, s.chunk? high with
    | some cx, some cy, some cl, some ch =>
      if [x, y, low, high].Nodup then .finished (MergeSet.merge ⟨cx, cy, cl, ch⟩ cmp schedule).result else .nothing
    | _, _, _, _ => .nothing
  | .head place =>
    match s.chunk? place with
    | some c => .copied ((c.head s.next).1.map Option.isSome)
    | none => .nothing
  | .spill place written =>
    match s.chunk? place with
    | some c => if written then .spilled (c.spill.descriptor codec) else .nothing
    | none => .nothing
  | .restore _ => .nothing

def Paired (s s' : Session) (n n' : Nat) : Prop :=
  ∃ place c c', s.chunk? place = some c ∧ s'.chunk? place = some c' ∧ n = c.id ∧ n' = c'.id

/-- The chunks at each place, and those in each file, differ in their numbers and in leftovers only. -/
structure Resembles (s s' : Session) : Prop where
  length : s'.chunks.length = s.chunks.length
  chunks : ∀ place, Option.Rel Chunk.Resembles (s.chunk? place) (s'.chunk? place)
  files : List.Forall₂ (fun f f' : SpilledChunk => f.restore.Resembles f'.restore) s.files s'.files

theorem chunk?_set (s : Session) (place p : Nat) (o : Option Chunk) :
    chunk? { s with chunks := s.chunks.set place o } p =
      if place = p ∧ place < s.chunks.length then o else s.chunk? p := by
  simp only [chunk?, List.getElem?_set]
  by_cases he : place = p
  · subst he
    by_cases hlt : place < s.chunks.length <;> simp [hlt]
  · simp [he]

theorem chunk?_add (s : Session) (c : Chunk) (p : Nat) :
    (s.add c).chunk? p = if p = s.chunks.length then some c else s.chunk? p := by
  simp only [chunk?, add]
  rcases Nat.lt_trichotomy p s.chunks.length with hlt | rfl | hgt
  · rw [if_neg (Nat.ne_of_lt hlt), List.getElem?_append_left hlt]
  · simp
  · rw [if_neg (Nat.ne_of_gt hgt), List.getElem?_eq_none (by simp; omega), List.getElem?_eq_none (Nat.le_of_lt hgt)]

namespace Resembles

variable {s s' : Session} (h : s.Resembles s')
include h

theorem chunk?_cases (place : Nat) :
    (s.chunk? place = none ∧ s'.chunk? place = none) ∨
      ∃ c c', s.chunk? place = some c ∧ s'.chunk? place = some c' ∧ c.Resembles c' ∧ s.Paired s' c.id c'.id := by
  have key := h.chunks place
  cases hc : s.chunk? place <;> cases hc' : s'.chunk? place <;> rw [hc, hc'] at key
  case none.none => exact .inl ⟨rfl, rfl⟩
  case none.some => cases key
  case some.none => cases key
  case some.some c c' =>
    cases key with
    | some hr => exact .inr ⟨c, c', rfl, rfl, hr, place, c, c', hc, hc', rfl, rfl⟩

theorem numbered (next next' : Nat) : Resembles { s with next } { s' with next := next' } := ⟨h.length, h.chunks, h.files⟩

theorem set (place : Nat) {o o' : Option Chunk} (ho : Option.Rel Chunk.Resembles o o') :
    Resembles { s with chunks := s.chunks.set place o } { s' with chunks := s'.chunks.set place o' } where
  length := by simp only [List.length_set, h.length]
  chunks p := by
    rw [chunk?_set, chunk?_set, h.length]
    exact rel_ite .rfl ho (h.chunks p)
  files := h.files

theorem put (place : Nat) {c c' : Chunk} (hc : c.Resembles c') : (s.put place c).Resembles (s'.put place c') :=
  h.set place (.some hc)

theorem add {c c' : Chunk} (hc : c.Resembles c') : (s.add c).Resembles (s'.add c') where
  length := by simp only [Session.add, List.length_append, h.length, List.length_singleton]
  chunks p := by
    rw [chunk?_add, chunk?_add, h.length]
    exact rel_ite .rfl (.some hc) (h.chunks p)
  files := h.files

theorem merge (codec : Spill.Codec) (hs : s.All Chunk.WellFormed) (x y low high : Nat) {cmp : Comparator}
    (hd : cmp.Discreet) (schedule : Schedule) :
    (s.step (.merge x y low high cmp schedule)).Resembles (s'.step (.merge x y low high cmp schedule)) ∧
      (s.answer codec (.merge x y low high cmp schedule)).Matches (s.Paired s')
        (s'.answer codec (.merge x y low high cmp schedule)) := by
  rcases h.chunk?_cases x with ⟨hx, hx'⟩ | ⟨cx, cx', hx, hx', rx, nx⟩
  · simp only [Session.step, answer, hx, hx']
    exact ⟨h, trivial⟩
  rcases h.chunk?_cases y with ⟨hy, hy'⟩ | ⟨cy, cy', hy, hy', ry, ny⟩
  · simp only [Session.step, answer, hx, hx', hy, hy']
    exact ⟨h, trivial⟩
  rcases h.chunk?_cases low with ⟨hl, hl'⟩ | ⟨cl, cl', hl, hl', rl, nl⟩
  · simp only [Session.step, answer, hx, hx', hy, hy', hl, hl']
    exact ⟨h, trivial⟩
  rcases h.chunk?_cases high with ⟨hh, hh'⟩ | ⟨ch, ch', hh, hh', rh, nh⟩
  · simp only [Session.step, answer, hx, hx', hy, hy', hl, hl', hh, hh']
    exact ⟨h, trivial⟩
  simp only [Session.step, answer, hx, hx', hy, hy', hl, hl', hh, hh']
  by_cases hplaces : [x, y, low, high].Nodup
  · have hwf : MergeSet.WellFormed ⟨cx, cy, cl, ch⟩ :=
      ⟨hs.chunks cx (mem_of_chunk? hx), hs.chunks cy (mem_of_chunk? hy), hs.chunks cl (mem_of_chunk? hl),
        hs.chunks ch (mem_of_chunk? hh)⟩
    have hset : MergeSet.Resembles ⟨cx, cy, cl, ch⟩ ⟨cx', cy', cl', ch'⟩ := ⟨rx, ry, rl, rh⟩
    obtain ⟨hstate, hresult⟩ := hset.merge ⟨nx, ny, nl, nh⟩ hwf hd schedule
    rw [if_pos hplaces, if_pos hplaces, if_pos hplaces, if_pos hplaces]
    exact ⟨(((h.put x hstate.x).put y hstate.y).put low hstate.low).put high hstate.high, hresult⟩
  · rw [if_neg hplaces, if_neg hplaces, if_neg hplaces, if_neg hplaces]
    exact ⟨h, trivial⟩

theorem step (codec : Spill.Codec) (hs : s.All Chunk.WellFormed) {command : Command} (hd : command.Discreet) :
    (s.step command).Resembles (s'.step command) ∧
      (s.answer codec command).Matches (s.Paired s') (s'.answer codec command) := by
  cases command with
  | load place b projection offset schedule =>
    rcases h.chunk?_cases place with ⟨hc, hc'⟩ | ⟨c, c', hc, hc', hr, hn⟩ <;> simp only [Session.step, answer, hc, hc']
    · exact ⟨h, trivial⟩
    · obtain ⟨hstate, hresult⟩ := hr.load hn b projection offset schedule
      exact ⟨h.put place hstate, hresult⟩
  | sort place cmp schedule =>
    rcases h.chunk?_cases place with ⟨hc, hc'⟩ | ⟨c, c', hc, hc', hr, hn⟩ <;> simp only [Session.step, answer, hc, hc']
    · exact ⟨h, trivial⟩
    · obtain ⟨hstate, hresult⟩ := hr.sort hn (hs.chunks c (mem_of_chunk? hc)) hd schedule
      exact ⟨h.put place hstate, hresult⟩
  | merge x y low high cmp schedule => exact h.merge codec hs x y low high hd schedule
  | head place =>
    rcases h.chunk?_cases place with ⟨hc, hc'⟩ | ⟨c, c', hc, hc', hr, -⟩ <;> simp only [Session.step, answer, hc, hc']
    · exact ⟨h, trivial⟩
    · have hhead := hr.head (hs.chunks c (mem_of_chunk? hc)) s.next s'.next
      generalize c.head s.next = copy, c'.head s'.next = copy' at hhead
      obtain ⟨copy, next⟩ := copy
      obtain ⟨copy', next'⟩ := copy'
      cases copy <;> cases copy'
      case error.error cause cause' =>
        cases hhead
        exact ⟨h.numbered next next', rfl⟩
      case error.ok => cases hhead
      case ok.error => cases hhead
      case ok.ok first first' =>
        cases hhead with
        | none => exact ⟨h.numbered next next', rfl⟩
        | some hcopy => exact ⟨(h.add hcopy).numbered next next', rfl⟩
  | spill place written =>
    rcases h.chunk?_cases place with ⟨hc, hc'⟩ | ⟨c, c', hc, hc', hr, hn⟩ <;> simp only [Session.step, answer, hc, hc']
    · exact ⟨h, trivial⟩
    · have hset := h.set place .none
      cases written with
      | false => exact ⟨⟨hset.length, hset.chunks, h.files⟩, trivial⟩
      | true => exact ⟨⟨hset.length, hset.chunks, List.rel_append h.files (.cons hr .nil)⟩, hr.descriptor hn codec⟩
  | restore file =>
    have hfile : Option.Rel (fun f f' : SpilledChunk => f.restore.Resembles f'.restore) s.files[file]? s'.files[file]? := by
      rcases Nat.lt_or_ge file s.files.length with hlt | hge
      · have hlt' : file < s'.files.length := h.files.length_eq ▸ hlt
        rw [List.getElem?_eq_getElem hlt, List.getElem?_eq_getElem hlt']
        exact .some (h.files.get hlt hlt')
      · rw [List.getElem?_eq_none hge, List.getElem?_eq_none (h.files.length_eq ▸ hge)]
        exact .none
    simp only [Session.step, answer]
    generalize s.files[file]? = f, s'.files[file]? = f' at hfile
    cases hfile with
    | none => exact ⟨h, trivial⟩
    | some hf => exact ⟨h.add hf, trivial⟩

theorem run (hs : s.All Chunk.WellFormed) {commands : List Command} (hd : ∀ command ∈ commands, command.Discreet) :
    (s.run commands).Resembles (s'.run commands) := by
  induction commands generalizing s s' with
  | nil => exact h
  | cons command commands ih =>
    obtain ⟨hcommand, hcommands⟩ := List.forall_mem_cons.mp hd
    exact ih (h.step MessagePack.codec hs hcommand).1 (hs.step Chunk.WellFormed.kept command) hcommands

end Resembles
end Session

def noted (id : UInt32) : Batch :=
  .ofColumns id #[#[.int64 5, .null, .int64 4], #[.bytes [1, 2], .bytes [3], .bytes []]] none

def notedChunk (id : Nat) : Chunk := .empty id [.int64, .varLen] 3 (some 8)

def notedPair : MergeSet where
  x := ((notedChunk 0).load (noted 1) none 0).state
  y := ((notedChunk 1).load (noted 2) none 0).state
  low := notedChunk 2
  high := notedChunk 3

def besideNoted (x y : Chunk) : Session where
  chunks := [x, y, (notedPair.merge .byId).state.low, (notedPair.merge .byId).state.high].map some
  files := []
  next := 9

def besideConsumed : Session := besideNoted (notedPair.merge .byId).state.x (notedPair.merge .byId).state.y

def besideNew : Session := besideNoted (notedChunk 7) (notedChunk 8)

theorem notedPair_wellFormed : notedPair.WellFormed := by
  have hempty (id : Nat) : (notedChunk id).WellFormed := Chunk.wellFormed_empty id _ (by decide) _
  exact ⟨((hempty 0).load (noted 1) none 0 {}).1, ((hempty 1).load (noted 2) none 0 {}).1, hempty 2, hempty 3⟩

theorem besideConsumed_all : besideConsumed.All Chunk.WellFormed := by
  have hwf := (notedPair_wellFormed.merge .byId {}).1
  refine ⟨fun c hc => ?_, List.forall_mem_nil _⟩
  simp only [besideConsumed, besideNoted, List.map_cons, List.map_nil, List.mem_cons, Option.some.injEq, List.not_mem_nil,
    or_false] at hc
  rcases hc with rfl | rfl | rfl | rfl
  · exact hwf.x
  · exact hwf.y
  · exact hwf.low
  · exact hwf.high

theorem besideNoted_resembles {x x' y y' : Chunk} (hx : x.Resembles x') (hy : y.Resembles y') :
    (besideNoted x y).Resembles (besideNoted x' y') := by
  refine ⟨rfl, fun place => ?_, .nil⟩
  obtain _ | _ | _ | _ | place := place
  · exact .some hx
  · exact .some hy
  · exact .some (.refl _)
  · exact .some (.refl _)
  · exact .none

theorem besideConsumed_resembles : besideConsumed.Resembles besideNew := by
  have hspec := MergeSet.merge_spec notedPair_wellFormed .byId {}
  have hok : (notedPair.merge .byId).result = .ok () := by cbv
  rw [hok] at hspec
  obtain ⟨-, rows, hdelivered⟩ := hspec
  apply besideNoted_resembles
  · rw [hdelivered.x]
    exact notedPair_wellFormed.x.resembles_new 7
  · rw [hdelivered.y]
    exact notedPair_wellFormed.y.resembles_new 8

def reuse : List Command :=
  [.merge 2 3 0 1 .byId, .load 2 (noted 3) none 0, .sort 2 (.byKeys [.ascending 0]), .head 2, .spill 2 true, .restore 0,
    .sort 5 (Comparator.byLength 1).reversed]

def wherePastRows : Comparator := fun a _ =>
  if a.store.ids.back? = some 0 then .ok .lt else .error (.comparator "not new")

end ChunkSort
