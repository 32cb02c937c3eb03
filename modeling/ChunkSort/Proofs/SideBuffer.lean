import ChunkSort.Proofs.Chunk.Cells

/-!
What a side buffer keeps. Payloads are pushed one after another, each is taken or refused by its length alone, and
what was taken is found under its reference for good. A reference that no push gave reads the bytes of its range if
all of them are there.
-/

namespace ChunkSort
namespace SideBuffer

def opened (limit : Option Nat) : SideBuffer := { limit }

def stored (b : SideBuffer) (payload : List UInt8) : SideBuffer := { b with bytes := b.bytes ++ payload }

def offer (b : SideBuffer) (payload : List UInt8) : Option PayloadRef × SideBuffer :=
  match b.push payload with
  | some (ref, b') => (some ref, b')
  | none => (none, b)

def offerAll (b : SideBuffer) : List (List UInt8) → List (Option PayloadRef) × SideBuffer
  | [] => ([], b)
  | payload :: payloads =>
    let (answer, b') := b.offer payload
    let (answers, b'') := b'.offerAll payloads
    (answer :: answers, b'')

def accepted : List (List UInt8) → List (Option PayloadRef) → List (List UInt8)
  | payload :: payloads, some _ :: answers => payload :: accepted payloads answers
  | _ :: payloads, none :: answers => accepted payloads answers
  | _, _ => []

/-! ### One push -/

theorem push_of_room {b : SideBuffer} {payload : List UInt8}
    (h : ∀ limit ∈ b.limit, payload.length ≤ limit - b.used) :
    b.push payload = some (⟨b.used, payload.length⟩, b.stored payload) := by
  apply if_pos
  show (b.limit.map (· - b.used)).all (payload.length ≤ ·) = true
  cases hl : b.limit with
  | none => rfl
  | some limit => simpa using h limit hl

theorem push_of_full {b : SideBuffer} {payload : List UInt8}
    (h : ∃ limit ∈ b.limit, limit - b.used < payload.length) : b.push payload = none := by
  obtain ⟨limit, hl, hlt⟩ := h
  apply if_neg
  show ¬(b.limit.map (· - b.used)).all (payload.length ≤ ·) = true
  rw [Option.mem_def.mp hl]
  simpa using hlt

theorem full_or_room (b : SideBuffer) (n : Nat) :
    (∃ limit ∈ b.limit, limit - b.used < n) ∨ ∀ limit ∈ b.limit, n ≤ limit - b.used := by
  by_cases h : ∃ limit ∈ b.limit, limit - b.used < n
  · exact .inl h
  · exact .inr fun limit hl => Nat.le_of_not_lt fun hlt => h ⟨limit, hl, hlt⟩

theorem offer_of_room {b : SideBuffer} {payload : List UInt8}
    (h : ∀ limit ∈ b.limit, payload.length ≤ limit - b.used) :
    b.offer payload = (some ⟨b.used, payload.length⟩, b.stored payload) := by
  rw [offer, push_of_room h]

theorem offer_of_full {b : SideBuffer} {payload : List UInt8}
    (h : ∃ limit ∈ b.limit, limit - b.used < payload.length) : b.offer payload = (none, b) := by
  rw [offer, push_of_full h]

theorem offer_eq_none_iff {b : SideBuffer} {payload : List UInt8} :
    b.offer payload = (none, b) ↔ ∃ limit ∈ b.limit, limit - b.used < payload.length := by
  refine ⟨fun he => ?_, offer_of_full⟩
  rcases b.full_or_room payload.length with hfull | hroom
  · exact hfull
  · rw [offer_of_room hroom] at he
    cases he

theorem toList_stored (b : SideBuffer) (payload : List UInt8) :
    (b.stored payload).bytes.toList = b.bytes.toList ++ payload := Array.toList_appendList

/-! ### Any number of pushes -/

theorem offer_grows (b : SideBuffer) (payload : List UInt8) : ∃ n, b.Grows n (b.offer payload).2 := by
  rw [offer]
  split
  next hpush => exact ⟨_, (push_grows hpush).1⟩
  next => exact ⟨0, .refl b⟩

theorem offerAll_grows (b : SideBuffer) (payloads : List (List UInt8)) : ∃ n, b.Grows n (b.offerAll payloads).2 := by
  induction payloads generalizing b with
  | nil => exact ⟨0, .refl b⟩
  | cons payload payloads ih =>
    obtain ⟨m, hm⟩ := b.offer_grows payload
    obtain ⟨n, hn⟩ := ih (b.offer payload).2
    exact ⟨m + n, hm.trans hn⟩

@[simp] theorem limit_offerAll (b : SideBuffer) (payloads : List (List UInt8)) : (b.offerAll payloads).2.limit = b.limit := by
  obtain ⟨_, hgrows⟩ := b.offerAll_grows payloads
  exact hgrows.limit

theorem get_offerAll {b : SideBuffer} {payload : List UInt8} {ref : PayloadRef} (h : (b.offer payload).1 = some ref)
    (payloads : List (List UInt8)) : ((b.offer payload).2.offerAll payloads).2.get ref = .ok payload := by
  obtain ⟨_, hgrows⟩ := (b.offer payload).2.offerAll_grows payloads
  apply hgrows.get
  rw [offer] at h ⊢
  split at h
  next hpush =>
    cases h
    exact (push_grows hpush).2
  next => cases h

theorem offerAll_append (b : SideBuffer) (payloads more : List (List UInt8)) :
    ((b.offerAll payloads).2.offerAll more).2 = (b.offerAll (payloads ++ more)).2 := by
  induction payloads generalizing b with
  | nil => rfl
  | cons payload payloads ih => exact ih (b.offer payload).2

theorem offerAll_resolves (b : SideBuffer) (payloads more : List (List UInt8)) :
    List.Forall₂ (fun payload answer => ∀ ref ∈ answer, ((b.offerAll payloads).2.offerAll more).2.get ref = .ok payload)
      payloads (b.offerAll payloads).1 := by
  induction payloads generalizing b with
  | nil => exact .nil
  | cons payload payloads ih =>
    refine .cons (fun ref href => ?_) (ih (b.offer payload).2)
    rw [offerAll_append]
    exact get_offerAll href (payloads ++ more)

theorem toList_offerAll (b : SideBuffer) (payloads : List (List UInt8)) :
    (b.offerAll payloads).2.bytes.toList = b.bytes.toList ++ (accepted payloads (b.offerAll payloads).1).flatten := by
  induction payloads generalizing b with
  | nil => exact (List.append_nil _).symm
  | cons payload payloads ih =>
    have key := ih (b.offer payload).2
    rcases b.full_or_room payload.length with hfull | hroom
    · simp only [offerAll, offer_of_full hfull] at key ⊢
      exact key
    · simp only [offerAll, offer_of_room hroom] at key ⊢
      rw [key, toList_stored, List.append_assoc]
      rfl

theorem used_offerAll_le {b : SideBuffer} (h : ∀ limit ∈ b.limit, b.used ≤ limit) (payloads : List (List UInt8)) :
    ∀ limit ∈ b.limit, (b.offerAll payloads).2.used ≤ limit := by
  induction payloads generalizing b with
  | nil => exact h
  | cons payload payloads ih =>
    rcases b.full_or_room payload.length with hfull | hroom
    · simp only [offerAll, offer_of_full hfull]
      exact ih h
    · simp only [offerAll, offer_of_room hroom]
      refine ih (b := b.stored payload) fun limit hl => ?_
      have hle := h limit hl
      have hfits := hroom limit hl
      have hused : (b.stored payload).used = b.used + payload.length := by
        rw [used, ← Array.length_toList, toList_stored, List.length_append, Array.length_toList, used]
      omega

/-! ### References of any origin -/

theorem get_eq_ok_iff_exists {b : SideBuffer} {ref : PayloadRef} {payload : List UInt8} :
    b.get ref = .ok payload ↔ ∃ before after, b.bytes.toList = before ++ payload ++ after ∧
      before.length = ref.offset ∧ payload.length = ref.length := by
  have hlen : b.bytes.toList.length = b.used := Array.length_toList
  rw [get_eq_ok_iff]
  constructor
  · rintro ⟨hle, rfl⟩
    refine ⟨b.bytes.toList.take ref.offset, (b.bytes.toList.drop ref.offset).drop ref.length, ?_, ?_, ?_⟩
    · rw [List.append_assoc, List.take_append_drop, List.take_append_drop]
    · rw [List.length_take]
      omega
    · rw [List.length_take, List.length_drop]
      omega
  · rintro ⟨before, after, hsplit, hoffset, hlength⟩
    rw [hsplit, List.length_append, List.length_append] at hlen
    refine ⟨by omega, ?_⟩
    rw [hsplit, List.append_assoc, List.drop_left' hoffset, List.take_left' hlength]

theorem get_eq_ok_iff_le {b : SideBuffer} {ref : PayloadRef} :
    (∃ payload, b.get ref = .ok payload) ↔ ref.offset + ref.length ≤ b.used :=
  ⟨fun ⟨_, h⟩ => (get_eq_ok_iff.mp h).1, fun h => ⟨_, get_eq_ok_iff.mpr ⟨h, rfl⟩⟩⟩

/-- The end of a range of 64-bit words, unless the sum overflows. -/
def wordEnd? (offset length : UInt64) : Option UInt64 :=
  if offset ≤ offset + length then some (offset + length) else none

theorem exists_wordEnd?_iff {offset length : UInt64} {size : Nat} (h : size < UInt64.size) :
    (∃ stop ∈ wordEnd? offset length, stop.toNat ≤ size) ↔ offset.toNat + length.toNat ≤ size := by
  have hoffset := offset.toNat_lt
  have hlength := length.toNat_lt
  have hsum := UInt64.toNat_add offset length
  simp only [UInt64.size] at h
  unfold wordEnd?
  split
  next hle =>
    rw [UInt64.le_iff_toNat_le] at hle
    simp only [Option.mem_some_iff, exists_eq_left']
    omega
  next hlt =>
    rw [UInt64.le_iff_toNat_le] at hlt
    simp only [Option.not_mem_none, false_and, exists_false, false_iff]
    omega

/-! ### What the buffer keeps -/

/-- A side buffer of this limit after the payloads, in turn, and the answers that they were given. As any payloads may
have come before, `refuses` and `takes` speak of every push. -/
structure Archives (limit : Option Nat) (payloads : List (List UInt8)) (answers : List (Option PayloadRef))
    (b : SideBuffer) : Prop where
  content : b.bytes.toList = (accepted payloads answers).flatten
  within : ∀ n ∈ limit, b.used ≤ n
  resolves : ∀ more, List.Forall₂ (fun payload answer => ∀ ref ∈ answer, (b.offerAll more).2.get ref = .ok payload)
    payloads answers
  refuses : ∀ payload, b.offer payload = (none, b) ↔ ∃ n ∈ limit, n - b.used < payload.length
  takes : ∀ payload, (∀ n ∈ limit, payload.length ≤ n - b.used) →
    ∃ b', b.offer payload = (some ⟨b.used, payload.length⟩, b') ∧ b'.bytes.toList = b.bytes.toList ++ payload
  reads : ∀ ref payload, b.get ref = .ok payload ↔ ∃ before after, b.bytes.toList = before ++ payload ++ after ∧
    before.length = ref.offset ∧ payload.length = ref.length
  readable : ∀ ref, (∃ payload, b.get ref = .ok payload) ↔ ref.offset + ref.length ≤ b.used
  misses : ∀ ref, b.used < ref.offset + ref.length →
    b.get ref = .error (.sideBufferOutOfRange ref.offset ref.length b.used)
  words : b.used < UInt64.size → ∀ offset length : UInt64,
    (∃ payload, b.get ⟨offset.toNat, length.toNat⟩ = .ok payload) ↔ ∃ stop ∈ wordEnd? offset length, stop.toNat ≤ b.used

theorem offerAll_archives (limit : Option Nat) (payloads : List (List UInt8)) :
    Archives limit payloads ((opened limit).offerAll payloads).1 ((opened limit).offerAll payloads).2 := by
  have hlimit : ((opened limit).offerAll payloads).2.limit = limit := by simp [opened]
  have hcontent := toList_offerAll (opened limit) payloads
  have hwithin := used_offerAll_le (b := opened limit) (fun _ _ => Nat.zero_le _) payloads
  have hresolves := offerAll_resolves (opened limit) payloads
  generalize (opened limit).offerAll payloads = answered at *
  obtain ⟨answers, b⟩ := answered
  subst hlimit
  exact {
    content := hcontent
    within := hwithin
    resolves := hresolves
    refuses := fun _ => offer_eq_none_iff
    takes := fun payload hroom => ⟨_, offer_of_room hroom, b.toList_stored payload⟩
    reads := fun _ _ => get_eq_ok_iff_exists
    readable := fun _ => get_eq_ok_iff_le
    misses := fun _ hlt => if_neg (Nat.not_le_of_lt hlt)
    words := fun hused _ _ => get_eq_ok_iff_le.trans (exists_wordEnd?_iff hused).symm }

/-- An empty payload takes no room, and one that does not fit does not stop those behind it. -/
example : ((opened (some 3)).offerAll [[1, 2], [3, 4], [], [5], []]).1 =
    [some ⟨0, 2⟩, none, some ⟨2, 0⟩, some ⟨2, 1⟩, some ⟨3, 0⟩] := by decide

end SideBuffer
end ChunkSort
