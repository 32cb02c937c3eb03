import Mathlib.Data.List.Forall2

/-!
What holds of the outcome of a computation that may fail, and how it is carried through a loop.
-/

namespace ChunkSort

variable {α β ε σ : Type}

def Outcome (Q : α → Prop) (E : ε → Prop) : Except ε α → Prop
  | .ok a => Q a
  | .error e => E e

theorem exists_of_isOk {r : Except ε α} (h : r.isOk = true) : ∃ a, r = .ok a := by
  cases r with
  | ok a => exact ⟨a, rfl⟩
  | error e => cases h

theorem except_bind_eq_ok {r : Except ε α} {f : α → Except ε β} {b : β} :
    r >>= f = .ok b ↔ ∃ a, r = .ok a ∧ f a = .ok b := by
  cases r with
  | ok a => simp [bind, Except.bind]
  | error e => simp [bind, Except.bind]

theorem map_eq_ok_iff {r : Except ε α} {f : α → β} {b : β} : r.map f = .ok b ↔ ∃ a, r = .ok a ∧ f a = b := by
  cases r <;> simp [Except.map]

theorem mapError_eq_ok {ε' : Type} {r : Except ε α} {f : ε → ε'} {a : α} : r.mapError f = .ok a ↔ r = .ok a := by
  cases r <;> simp [Except.mapError]

namespace Outcome

theorem of_ok {Q : α → Prop} {E : ε → Prop} {r : Except ε α} (h : Outcome Q E r) {a : α} (hr : r = .ok a) : Q a := by
  rwa [hr] at h

theorem of_error {Q : α → Prop} {E : ε → Prop} {r : Except ε α} (h : Outcome Q E r) {e : ε} (hr : r = .error e) : E e := by
  rwa [hr] at h

theorem mono {Q Q' : α → Prop} {E E' : ε → Prop} {r : Except ε α} (h : Outcome Q E r)
    (hQ : ∀ a, Q a → Q' a) (hE : ∀ e, E e → E' e) : Outcome Q' E' r := by
  cases r with
  | ok a => exact hQ a h
  | error e => exact hE e h

theorem of_forall {Q : α → Prop} {r : Except ε α} (h : ∀ a, Q a) : Outcome Q (fun _ => True) r := by
  cases r with
  | ok a => exact h a
  | error e => trivial

theorem bind {Q : α → Prop} {R : β → Prop} {E : ε → Prop} {r : Except ε α} {f : α → Except ε β}
    (h : Outcome Q E r) (hf : ∀ a, Q a → Outcome R E (f a)) : Outcome R E (r >>= f) := by
  cases r with
  | ok a => exact hf a h
  | error e => exact h

theorem foldlM {I : σ → Prop} {E : ε → Prop} {f : σ → β → Except ε σ} (l : List β)
    (step : ∀ s, ∀ b ∈ l, I s → Outcome I E (f s b)) {s : σ} (h : I s) :
    Outcome I E (l.foldlM f s) := by
  induction l generalizing s with
  | nil => exact h
  | cons b l ih =>
    rw [List.foldlM_cons]
    refine (step s b (List.mem_cons_self ..) h).bind fun s' hs' => ?_
    exact ih (fun t c hc => step t c (List.mem_cons_of_mem _ hc)) hs'

theorem foldlM_congr {I : σ → Prop} {E : ε → Prop} {f g : σ → β → Except ε σ} (l : List β)
    (step : ∀ s, ∀ b ∈ l, I s → Outcome I E (f s b)) (agree : ∀ s, ∀ b ∈ l, I s → f s b = g s b)
    {s : σ} (h : I s) : l.foldlM f s = l.foldlM g s := by
  induction l generalizing s with
  | nil => rfl
  | cons b l ih =>
    rw [List.foldlM_cons, List.foldlM_cons, ← agree s b (List.mem_cons_self ..) h]
    have hs := step s b (List.mem_cons_self ..) h
    cases hf : f s b with
    | error e => rfl
    | ok s' =>
      rw [hf] at hs
      exact ih (fun t c hc => step t c (List.mem_cons_of_mem _ hc))
        (fun t c hc => agree t c (List.mem_cons_of_mem _ hc)) hs

end Outcome

theorem exists_of_foldlM_eq_error {f : σ → β → Except ε σ} {l : List β} {s : σ} {e : ε} (h : l.foldlM f s = .error e) :
    ∃ done b rest t, l = done ++ b :: rest ∧ done.foldlM f s = .ok t ∧ f t b = .error e := by
  induction l generalizing s with
  | nil => cases h
  | cons b l ih =>
    rw [List.foldlM_cons] at h
    cases hf : f s b with
    | error e' =>
      rw [hf] at h
      cases h
      exact ⟨[], b, l, s, rfl, rfl, hf⟩
    | ok s' =>
      rw [hf] at h
      obtain ⟨done, c, rest, t, rfl, hdone, hc⟩ := ih h
      exact ⟨b :: done, c, rest, t, rfl, by rw [List.foldlM_cons, hf]; exact hdone, hc⟩

theorem foldlM_fixed {f : σ → β → Except ε σ} {l : List β} {s : σ} (h : ∀ b ∈ l, f s b = .ok s) :
    l.foldlM f s = .ok s := by
  induction l with
  | nil => rfl
  | cons b l ih =>
    rw [List.foldlM_cons, h b (List.mem_cons_self ..)]
    exact ih fun c hc => h c (List.mem_cons_of_mem _ hc)

theorem exists_right_of_forall₂ {R : α → β → Prop} {l : List α} {l' : List β} (h : List.Forall₂ R l l') {a : α}
    (ha : a ∈ l) : ∃ b ∈ l', R a b := by
  obtain ⟨i, hi, rfl⟩ := List.getElem_of_mem ha
  have hi' : i < l'.length := h.length_eq ▸ hi
  exact ⟨l'[i], List.getElem_mem hi', h.get hi hi'⟩

theorem exists_of_forall₂_middle {R : α → β → Prop} {l : List α} {before after : List β} {b : β}
    (h : List.Forall₂ R l (before ++ b :: after)) :
    ∃ l₁ a l₂, l = l₁ ++ a :: l₂ ∧ List.Forall₂ R l₁ before ∧ R a b ∧ List.Forall₂ R l₂ after := by
  induction before generalizing l with
  | nil =>
    obtain ⟨a, l₂, hab, hl₂, rfl⟩ := List.forall₂_cons_right_iff.mp h
    exact ⟨[], a, l₂, rfl, .nil, hab, hl₂⟩
  | cons c before ih =>
    obtain ⟨a, l, hac, hl, rfl⟩ := List.forall₂_cons_right_iff.mp h
    obtain ⟨l₁, a', l₂, rfl, hl₁, hab, hl₂⟩ := ih hl
    exact ⟨a :: l₁, a', l₂, rfl, .cons hac hl₁, hab, hl₂⟩

theorem exists_left_of_forall₂ {R : α → β → Prop} {l : List α} {l' : List β} (h : List.Forall₂ R l l') {b : β}
    (hb : b ∈ l') : ∃ a ∈ l, R a b := by
  obtain ⟨i, hi, rfl⟩ := List.getElem_of_mem hb
  have hi' : i < l.length := h.length_eq ▸ hi
  exact ⟨l[i], List.getElem_mem hi', h.get hi' hi⟩

theorem exists_forall₂_through {γ : Type} {R : α → γ → Prop} {S : β → γ → Prop} {l : List α} {l' : List β}
    (h : List.Forall₂ (fun a b => ∃ c, R a c ∧ S b c) l l') : ∃ m, List.Forall₂ R l m ∧ List.Forall₂ S l' m := by
  induction h with
  | nil => exact ⟨[], .nil, .nil⟩
  | cons hab _ ih =>
    obtain ⟨c, ha, hb⟩ := hab
    obtain ⟨m, hl, hl'⟩ := ih
    exact ⟨c :: m, .cons ha hl, .cons hb hl'⟩

theorem forall₂_meet {γ : Type} {R : α → γ → Prop} {S : β → γ → Prop} {T : α → β → Prop} {l : List α} {l' : List β}
    {m : List γ} (hl : List.Forall₂ R l m) (hl' : List.Forall₂ S l' m) (hT : ∀ a b c, R a c → S b c → T a b) :
    List.Forall₂ T l l' := by
  induction hl generalizing l' with
  | nil =>
    cases hl'
    exact .nil
  | cons ha _ ih =>
    obtain ⟨b, l'', hb, hrest, rfl⟩ := List.forall₂_cons_right_iff.mp hl'
    exact .cons (hT _ _ _ ha hb) (ih hrest)

theorem pairwise_of_forall₂ {R : α → β → Prop} {S : β → β → Prop} {T : α → α → Prop} {l : List α}
    {l' : List β} (h : List.Forall₂ R l l') (hs : l'.Pairwise S) (hT : ∀ a b u v, R a u → R b v → S u v → T a b) :
    l.Pairwise T := by
  induction h with
  | nil => exact .nil
  | @cons a u as us hau has ih =>
    rw [List.pairwise_cons] at hs ⊢
    refine ⟨fun b hb => ?_, ih hs.2⟩
    obtain ⟨v, hv, hbv⟩ := exists_right_of_forall₂ has hb
    exact hT a b u v hau hbv (hs.1 v hv)

theorem forall₂_flatMap {R : β → ε → Prop} {f : α → List β} {g : α → List ε} (l : List α)
    (h : ∀ a ∈ l, List.Forall₂ R (f a) (g a)) : List.Forall₂ R (l.flatMap f) (l.flatMap g) := by
  induction l with
  | nil => exact .nil
  | cons a l ih =>
    obtain ⟨ha, hl⟩ := List.forall_mem_cons.mp h
    rw [List.flatMap_cons, List.flatMap_cons]
    exact List.rel_append ha (ih hl)

theorem exists_forall₂ {R : α → β → Prop} {l : List α} (h : ∀ a ∈ l, ∃ b, R a b) : ∃ l', List.Forall₂ R l l' := by
  induction l with
  | nil => exact ⟨[], .nil⟩
  | cons a l ih =>
    obtain ⟨⟨b, hb⟩, hl⟩ := List.forall_mem_cons.mp h
    obtain ⟨l', hl'⟩ := ih hl
    exact ⟨b :: l', .cons hb hl'⟩

theorem mapM_eq_ok_iff {f : α → Except ε β} {l : List α} {vs : List β} :
    l.mapM f = .ok vs ↔ List.Forall₂ (fun a v => f a = .ok v) l vs := by
  induction l generalizing vs with
  | nil => simp [pure, Except.pure, eq_comm]
  | cons a l ih =>
    rw [List.mapM_cons, List.forall₂_cons_left_iff]
    cases hf : f a with
    | error e => simp [bind, Except.bind]
    | ok b =>
      cases hl : l.mapM f with
      | error e =>
        simp only [hl, reduceCtorEq, false_iff] at ih
        simp [bind, Except.bind, ih]
      | ok bs =>
        simp only [hl, Except.ok.injEq] at ih
        simp [bind, Except.bind, pure, Except.pure, ← ih, eq_comm]

theorem mapM_congr_forall₂ {α' : Type} {f : α → Except ε β} {f' : α' → Except ε β} {l : List α} {l' : List α'}
    (h : List.Forall₂ (fun a a' => f' a' = f a) l l') : l'.mapM f' = l.mapM f := by
  induction h with
  | nil => rfl
  | cons ha _ ih => rw [List.mapM_cons, List.mapM_cons, ha, ih]

theorem exists_error_of_mapM {f : α → Except ε β} {l : List α} {e : ε} (h : l.mapM f = .error e) :
    ∃ a ∈ l, f a = .error e := by
  induction l with
  | nil => cases h
  | cons a l ih =>
    rw [List.mapM_cons] at h
    cases hf : f a with
    | error e' =>
      rw [hf] at h
      cases h
      exact ⟨a, List.mem_cons_self .., hf⟩
    | ok b =>
      cases hl : l.mapM f with
      | error e' =>
        simp only [hf, hl, bind, Except.bind, Except.error.injEq] at h
        subst h
        obtain ⟨a', ha', he⟩ := ih hl
        exact ⟨a', List.mem_cons_of_mem _ ha', he⟩
      | ok bs =>
        simp only [hf, hl, bind, Except.bind, pure, Except.pure, reduceCtorEq] at h

end ChunkSort
