import ChunkSort.Chunk.Sort
import ChunkSort.Proofs.Network.Sorting
import ChunkSort.Proofs.Row

/-!
Comparators that are total preorders of the contents of records, and the order of index entries that they
give rise to.
-/

namespace ChunkSort

/-! ### Total preorders -/

structure Preorders {α : Type} (P : α → Prop) (ord : α → α → Ordering) : Prop where
  swap : ∀ {a b}, P a → P b → ord b a = (ord a b).swap
  trans : ∀ {a b c}, P a → P b → P c → ord a b ≠ .gt → ord b c ≠ .gt → ord a c ≠ .gt

namespace Preorders

variable {α β : Type} {P : α → Prop} {ord ord' : α → α → Ordering}

theorem of_transCmp (P : α → Prop) (ord : α → α → Ordering) [Std.TransCmp ord] : Preorders P ord where
  swap _ _ := Std.OrientedCmp.eq_swap
  trans _ _ _ hab hbc := by
    exact Ordering.ne_gt_iff_isLE.mpr
      (Std.TransCmp.isLE_trans (Ordering.ne_gt_iff_isLE.mp hab) (Ordering.ne_gt_iff_isLE.mp hbc))

theorem comap (h : Preorders P ord) {Q : β → Prop} {f : β → α} (hf : ∀ b, Q b → P (f b)) :
    Preorders Q fun a b => ord (f a) (f b) where
  swap ha hb := h.swap (hf _ ha) (hf _ hb)
  trans ha hb hc := h.trans (hf _ ha) (hf _ hb) (hf _ hc)

theorem reversed (h : Preorders P ord) : Preorders P fun a b => (ord a b).swap where
  swap ha hb := congrArg Ordering.swap (h.swap ha hb)
  trans {a b c} ha hb hc hab hbc := by
    rw [← h.swap ha hb] at hab
    rw [← h.swap hb hc] at hbc
    rw [← h.swap ha hc]
    exact h.trans hc hb ha hbc hab

theorem eq_comm (h : Preorders P ord) {a b : α} (ha : P a) (hb : P b) (he : ord a b = .eq) : ord b a = .eq := by
  rw [h.swap ha hb, he]
  rfl

theorem total (h : Preorders P ord) {a b : α} (ha : P a) (hb : P b) : ord a b ≠ .gt ∨ ord b a ≠ .gt := by
  rw [h.swap ha hb]
  cases ord a b <;> decide

theorem eq_trans (h : Preorders P ord) {a b c : α} (ha : P a) (hb : P b) (hc : P c) (hab : ord a b = .eq)
    (hbc : ord b c = .eq) : ord a c = .eq := by
  have hle := h.trans ha hb hc (by rw [hab]; decide) (by rw [hbc]; decide)
  have hge := h.trans hc hb ha (by rw [h.eq_comm hb hc hbc]; decide) (by rw [h.eq_comm ha hb hab]; decide)
  rw [h.swap ha hc] at hge
  revert hle hge
  cases ord a c <;> decide

theorem lt_of_lt_of_le (h : Preorders P ord) {a b c : α} (ha : P a) (hb : P b) (hc : P c) (hab : ord a b = .lt)
    (hbc : ord b c ≠ .gt) : ord a c = .lt := by
  cases hac : ord a c with
  | lt => rfl
  | gt => exact absurd hac (h.trans ha hb hc (by rw [hab]; decide) hbc)
  | eq =>
    have hba := h.trans hb hc ha hbc (by rw [h.eq_comm ha hc hac]; decide)
    rw [h.swap ha hb, hab] at hba
    exact absurd rfl hba

theorem lt_of_le_of_lt (h : Preorders P ord) {a b c : α} (ha : P a) (hb : P b) (hc : P c) (hab : ord a b ≠ .gt)
    (hbc : ord b c = .lt) : ord a c = .lt := by
  cases hac : ord a c with
  | lt => rfl
  | gt => exact absurd hac (h.trans ha hb hc hab (by rw [hbc]; decide))
  | eq =>
    have hcb := h.trans hc ha hb (by rw [h.eq_comm ha hc hac]; decide) hab
    rw [h.swap hb hc, hbc] at hcb
    exact absurd rfl hcb

theorem lex (h : Preorders P ord) (h' : Preorders P ord') : Preorders P fun a b => (ord a b).then (ord' a b) where
  swap ha hb := by
    simp only [h.swap ha hb, h'.swap ha hb]
    exact (Ordering.swap_then _ _).symm
  trans {a b c} ha hb hc hab hbc := by
    have first : ∀ {o o' : Ordering}, o.then o' ≠ .gt → o ≠ .gt := by decide
    cases hab' : ord a b with
    | lt =>
      rw [h.lt_of_lt_of_le ha hb hc hab' (first hbc)]
      change Ordering.lt ≠ .gt
      decide
    | gt => exact absurd hab' (first hab)
    | eq =>
      cases hbc' : ord b c with
      | lt =>
        rw [h.lt_of_le_of_lt ha hb hc (first hab) hbc']
        change Ordering.lt ≠ .gt
        decide
      | gt => exact absurd hbc' (first hbc)
      | eq =>
        rw [hab'] at hab
        rw [hbc'] at hbc
        rw [h.eq_trans ha hb hc hab' hbc']
        exact h'.trans ha hb hc hab hbc

end Preorders

/-! ### Comparators by content -/

/-- The record belongs to a chunk of the schema, and reads as the row. -/
structure Record.Reads (r : Record) (schema : List ColumnType) (row : Row) : Prop where
  ofSchema : r.store.schema = schema
  gives : r.toSource.Gives schema row

theorem Record.Reads.id {r : Record} {schema : List ColumnType} {row : Row} (h : r.Reads schema row) :
    r.id = .ok row.id := h.gives.id

theorem Record.Reads.exists_value {r : Record} {schema : List ColumnType} {row : Row} (h : r.Reads schema row)
    {column : Nat} (hc : column < schema.length) :
    ∃ v, row.values[column]? = some v ∧ r.value column = .ok v ∧ schema[column].Accepts v := by
  have hlt : column < row.values.length := h.gives.fits.length_eq ▸ hc
  have hget := List.getElem?_eq_getElem hlt
  have hread := h.gives.values column _ hget
  rw [Nat.zero_add] at hread
  exact ⟨_, hget, hread, h.gives.fits.get hc hlt⟩

def readRecords (schema : List ColumnType) (records : List Record) : Except DataError (List Row) :=
  readAll schema (records.map Record.toSource)

theorem readRecords_eq {schema : List ColumnType} {records : List Record} {rows : List Row}
    (h : List.Forall₂ (fun r row => Record.Reads r schema row) records rows) :
    readRecords schema records = .ok rows := by
  apply readAll_eq
  rw [List.forall₂_map_left_iff]
  exact h.imp fun _ _ hr => hr.gives

namespace Comparator

def Le (cmp : Comparator) (a b : Record) : Prop := ∃ o, cmp a b = .ok o ∧ o ≠ .gt

/-- On records of the schema the comparator never fails, looks at the contents alone, and answers as a total
preorder does. -/
structure Orders (cmp : Comparator) (schema : List ColumnType) (ord : Row → Row → Ordering) : Prop where
  answers : ∀ {a b u v}, a.Reads schema u → b.Reads schema v → cmp a b = .ok (ord u v)
  preorders : Preorders (Row.Fits schema) ord

def NeverFails (cmp : Comparator) (schema : List ColumnType) : Prop :=
  ∀ {a b : Record} {u v : Row}, a.Reads schema u → b.Reads schema v → ∃ o, cmp a b = .ok o

/-- On the records of a class the comparator always answers, as a total preorder does. What it looks at is open. -/
structure TotalOn (cmp : Comparator) (P : Record → Prop) : Prop where
  answers : ∀ {a b}, P a → P b → ∃ o, cmp a b = .ok o ∧ cmp b a = .ok o.swap
  trans : ∀ {a b c}, P a → P b → P c → cmp.Le a b → cmp.Le b c → cmp.Le a c

def answer (cmp : Comparator) (a b : Record) : Ordering :=
  match cmp a b with
  | .ok o => o
  | .error _ => .eq

namespace TotalOn

variable {cmp : Comparator} {P Q : Record → Prop} (h : cmp.TotalOn P)
include h

theorem mono (hQ : ∀ r, Q r → P r) : cmp.TotalOn Q where
  answers ha hb := h.answers (hQ _ ha) (hQ _ hb)
  trans ha hb hc := h.trans (hQ _ ha) (hQ _ hb) (hQ _ hc)

theorem eq_answer {a b : Record} (ha : P a) (hb : P b) : cmp a b = .ok (cmp.answer a b) := by
  obtain ⟨o, ho, _⟩ := h.answers ha hb
  rw [answer, ho]

theorem le_iff {a b : Record} (ha : P a) (hb : P b) : cmp.Le a b ↔ cmp.answer a b ≠ .gt := by
  rw [Le, h.eq_answer ha hb]
  exact ⟨fun ⟨_, ho, hle⟩ => Except.ok.inj ho ▸ hle, fun hle => ⟨_, rfl, hle⟩⟩

theorem preorders : Preorders P cmp.answer where
  swap ha hb := by
    obtain ⟨o, ho, ho'⟩ := h.answers ha hb
    rw [answer, answer, ho, ho']
  trans ha hb hc hab hbc := by
    rw [← h.le_iff ha hb] at hab
    rw [← h.le_iff hb hc] at hbc
    rw [← h.le_iff ha hc]
    exact h.trans ha hb hc hab hbc

omit h in
theorem of_preorders {ord : Record → Record → Ordering} (h : Preorders P ord)
    (answers : ∀ a b, cmp a b = .ok (ord a b)) : cmp.TotalOn P where
  answers ha hb := ⟨_, answers .., h.swap ha hb ▸ answers ..⟩
  trans := by
    rintro a b c ha hb hc ⟨o, ho, hab⟩ ⟨o', ho', hbc⟩
    rw [answers, Except.ok.injEq] at ho ho'
    exact ⟨_, answers .., h.trans ha hb hc (ho ▸ hab) (ho' ▸ hbc)⟩

end TotalOn

theorem Orders.le_iff {cmp : Comparator} {schema : List ColumnType} {ord : Row → Row → Ordering}
    (h : cmp.Orders schema ord) {a b : Record} {u v : Row} (ha : a.Reads schema u) (hb : b.Reads schema v) :
    cmp.Le a b ↔ ord u v ≠ .gt := by
  constructor
  · rintro ⟨o, ho, hle⟩
    rw [h.answers ha hb] at ho
    cases ho
    exact hle
  · exact fun hle => ⟨_, h.answers ha hb, hle⟩

theorem Orders.answer_eq {cmp : Comparator} {schema : List ColumnType} {ord : Row → Row → Ordering}
    (h : cmp.Orders schema ord) {a b : Record} {u v : Row} (ha : a.Reads schema u) (hb : b.Reads schema v) :
    cmp.answer a b = ord u v := by
  rw [answer, h.answers ha hb]

theorem Orders.totalOn {cmp : Comparator} {schema : List ColumnType} {ord : Row → Row → Ordering}
    (h : cmp.Orders schema ord) : cmp.TotalOn fun r => ∃ row, r.Reads schema row where
  answers := by
    rintro a b ⟨u, ha⟩ ⟨v, hb⟩
    exact ⟨_, h.answers ha hb, (h.preorders.swap ha.gives.fits hb.gives.fits) ▸ h.answers hb ha⟩
  trans := by
    rintro a b c ⟨u, ha⟩ ⟨v, hb⟩ ⟨w, hc⟩ hab hbc
    rw [h.le_iff ha hb] at hab
    rw [h.le_iff hb hc] at hbc
    rw [h.le_iff ha hc]
    exact h.preorders.trans ha.gives.fits hb.gives.fits hc.gives.fits hab hbc

theorem byId_orders (schema : List ColumnType) : byId.Orders schema fun u v => compare u.id v.id where
  answers ha hb := by
    rw [byId, ha.id, hb.id]
    rfl
  preorders := (Preorders.of_transCmp (fun _ => True) compare).comap fun _ _ => trivial

theorem bySlot_totalOn (P : Record → Prop) : bySlot.TotalOn P :=
  .of_preorders ((Preorders.of_transCmp (fun _ => True) compare).comap fun _ _ => trivial) fun _ _ => rfl

theorem Orders.reversed {cmp : Comparator} {schema : List ColumnType} {ord : Row → Row → Ordering}
    (h : cmp.Orders schema ord) : cmp.reversed.Orders schema fun u v => (ord u v).swap where
  answers ha hb := by
    rw [Comparator.reversed, h.answers ha hb]
    rfl
  preorders := h.preorders.reversed

end Comparator

/-! ### Index entries -/

def EntryLe (cmp : Comparator) (record : UInt32 → Record) (ties : UInt32 → UInt32 → Ordering) (a b : UInt32) : Prop :=
  b = padding ∨ a ≠ padding ∧ (cmp.answer (record a) (record b)).then (ties a b) ≠ .gt

section Entries

variable {cmp : Comparator} {record : UInt32 → Record} {ties : UInt32 → UInt32 → Ordering} {P : Record → Prop}
  {S : UInt32 → Prop}

theorem outOfOrder_eq (h : cmp.TotalOn P) {a b : UInt32} (ha : a ≠ padding) (hb : b ≠ padding) (hra : P (record a))
    (hrb : P (record b)) :
    outOfOrder cmp record ties a b = .ok ((cmp.answer (record a) (record b)).then (ties a b) == .gt) := by
  rw [outOfOrder, if_neg hb, if_neg ha, h.eq_answer hra hrb]

theorem outOfOrder_decides (h : cmp.TotalOn P) [Std.TransCmp ties] (hS : ∀ e, S e → e ≠ padding → P (record e)) :
    Decides (outOfOrder cmp record ties) S (EntryLe cmp record ties) := by
  have lex : Preorders (fun e => S e ∧ e ≠ padding) fun a b => (cmp.answer (record a) (record b)).then (ties a b) :=
    (h.preorders.comap fun e he => hS e he.1 he.2).lex (.of_transCmp _ ties)
  refine ⟨?_, ?_, ?_, ?_⟩
  · rintro a b ha hb (rfl | ⟨hap, hle⟩)
    · rw [outOfOrder, if_pos rfl]
    · by_cases hbp : b = padding
      · rw [outOfOrder, if_pos hbp]
      · rw [outOfOrder_eq h hap hbp (hS a ha hap) (hS b hb hbp), beq_eq_false_iff_ne.mpr hle]
  · intro a b ha hb hle
    have hbp : b ≠ padding := fun he => hle (.inl he)
    by_cases hap : a = padding
    · rw [outOfOrder, if_neg hbp, if_pos hap]
    · have hgt : (cmp.answer (record a) (record b)).then (ties a b) = .gt := by
        by_contra hne
        exact hle (.inr ⟨hap, hne⟩)
      rw [outOfOrder_eq h hap hbp (hS a ha hap) (hS b hb hbp), hgt]
      rfl
  · intro a b ha hb
    by_cases hap : a = padding
    · exact .inr (.inl hap)
    by_cases hbp : b = padding
    · exact .inl (.inl hbp)
    exact (lex.total ⟨ha, hap⟩ ⟨hb, hbp⟩).imp (fun hle => .inr ⟨hap, hle⟩) fun hle => .inr ⟨hbp, hle⟩
  · rintro a b c ha hb hc hab (rfl | ⟨hbp, hbc⟩)
    · exact .inl rfl
    by_cases hcp : c = padding
    · exact .inl hcp
    rcases hab with rfl | ⟨hap, hab⟩
    · exact absurd rfl hbp
    exact .inr ⟨hap, lex.trans ⟨ha, hap⟩ ⟨hb, hbp⟩ ⟨hc, hcp⟩ hab hbc⟩

theorem outOfOrder_congr {cmp' : Comparator} {record' : UInt32 → Record} {a b : UInt32}
    (h : ∀ x, x = a ∨ x = b → x ≠ padding → ∀ y, y = a ∨ y = b → y ≠ padding →
      cmp (record x) (record y) = cmp' (record' x) (record' y)) :
    outOfOrder cmp record ties a b = outOfOrder cmp' record' ties a b := by
  -- The comparator is asked about both rows, and where it fails also about each of them alone.
  unfold outOfOrder
  split
  next => rfl
  next hb =>
    split
    next => rfl
    next ha =>
      rw [h a (.inl rfl) ha b (.inr rfl) hb, Comparator.chargesRight, h a (.inl rfl) ha a (.inl rfl) ha,
        h b (.inr rfl) hb b (.inr rfl) hb, Comparator.chargesRight]

theorem outOfOrder_error {a b : UInt32} {f : EntryFault} (h : outOfOrder cmp record ties a b = .error f) :
    a ≠ padding ∧ b ≠ padding ∧ cmp (record a) (record b) = .error f.cause ∧
      f.entry = if cmp.chargesRight (record a) (record b) then b else a := by
  unfold outOfOrder at h
  split at h
  next => cases h
  next hb =>
    split at h
    next => cases h
    next ha =>
      split at h
      next => cases h
      next cause he =>
        cases h
        exact ⟨ha, hb, he, rfl⟩

end Entries

def EntryFault.Arises (f : EntryFault) (cmp : Comparator) (record : UInt32 → Record) (entries : List UInt32) : Prop :=
  ∃ a b, [a, b].Subperm entries ∧ cmp (record a) (record b) = .error f.cause ∧
    f.entry = if cmp.chargesRight (record a) (record b) then b else a

end ChunkSort
