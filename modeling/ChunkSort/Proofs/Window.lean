import ChunkSort.Window
import Mathlib.Algebra.BigOperators.Group.List.Basic
import Mathlib.Algebra.Ring.Nat
import Mathlib.Data.List.Infix

/-!
The accounts of a residency window. Whatever leases are asked for and dropped, in whatever order, the window
counts the sizes of the live leases, stays within its limit, and remembers the largest count it has had. Sizes are
numbers without a bound here, so that no sum of them overflows.
-/

namespace ChunkSort

theorem Window.mul_le_of_lt_mergeSlots {w : Window} (hlimit : chunksPerMerge ≤ w.limit) {n : Nat}
    (hn : n < w.mergeSlots) : chunksPerMerge * (n + 1) ≤ w.limit := by
  have hslots : w.mergeSlots = w.limit / chunksPerMerge :=
    Nat.max_eq_left ((Nat.one_le_div_iff (by decide)).mpr hlimit)
  rw [hslots] at hn
  calc chunksPerMerge * (n + 1) ≤ chunksPerMerge * (w.limit / chunksPerMerge) := Nat.mul_le_mul_left _ hn
    _ ≤ w.limit := Nat.mul_div_le ..

theorem Window.lease_limit {w w' : Window} {n : Nat} (h : w.lease n = .ok w') : w'.limit = w.limit := by
  unfold lease at h
  split at h <;> cases h
  rfl

inductive LeaseRequest where
  | lease (n : Nat)
  | drop (number : Nat)

namespace LeaseBook

def opened (limit : Nat) : LeaseBook := { window := { limit } }

def live (b : LeaseBook) : List Nat := b.leases.toList.filterMap id

def serve (b : LeaseBook) : LeaseRequest → LeaseBook
  | .lease n =>
    match b.lease n with
    | .ok (_, b) => b
    | .error _ => b
  | .drop number => (b.drop number).2

def serveAll (b : LeaseBook) (requests : List LeaseRequest) : LeaseBook := requests.foldl serve b

variable {b b' : LeaseBook} {request : LeaseRequest}

/-! ### What a request can do -/

def grant (b : LeaseBook) (n : Nat) : LeaseBook where
  window := { b.window with resident := b.window.resident + n, peak := max b.window.peak (b.window.resident + n) }
  leases := b.leases.push (some n)

def strike (b : LeaseBook) (number n : Nat) : LeaseBook where
  window := b.window.release n
  leases := b.leases.setIfInBounds number none

inductive Served (b : LeaseBook) : LeaseRequest → LeaseBook → Prop where
  | granted {n : Nat} (hroom : b.window.resident + n ≤ b.window.limit) : b.Served (.lease n) (b.grant n)
  | refused {n : Nat} (hfull : b.window.limit < b.window.resident + n) : b.Served (.lease n) b
  | dropped {number n : Nat} (hlive : b.leases[number]? = some (some n)) :
    b.Served (.drop number) (b.strike number n)
  | stale {number : Nat} (hgone : ∀ n, b.leases[number]? ≠ some (some n)) : b.Served (.drop number) b

theorem lease_of_le {n : Nat} (h : b.window.resident + n ≤ b.window.limit) :
    b.lease n = .ok (b.leases.size, b.grant n) := by
  rw [lease, Window.lease, if_pos h]
  rfl

theorem lease_of_lt {n : Nat} (h : b.window.limit < b.window.resident + n) :
    b.lease n = .error (.windowExceeded b.window.limit b.window.resident n) := by
  rw [lease, Window.lease, if_neg (Nat.not_le_of_lt h)]
  rfl

theorem drop_of_live {number n : Nat} (h : b.leases[number]? = some (some n)) :
    b.drop number = (true, b.strike number n) := by
  simp only [drop, h]
  rfl

theorem served (b : LeaseBook) (request : LeaseRequest) : b.Served request (b.serve request) := by
  cases request with
  | lease n =>
    rw [serve]
    by_cases h : b.window.resident + n ≤ b.window.limit
    · rw [lease_of_le h]
      exact .granted h
    · rw [lease_of_lt (Nat.lt_of_not_le h)]
      exact .refused (Nat.lt_of_not_le h)
  | drop number =>
    rw [serve, drop]
    split
    next n hlive => exact .dropped hlive
    next hgone => exact .stale hgone

theorem live_grant (b : LeaseBook) (n : Nat) : (b.grant n).live = b.live ++ [n] := by
  rw [live, grant, Array.toList_push, List.filterMap_append]
  rfl

theorem live_strike {number n : Nat} (h : b.leases[number]? = some (some n)) :
    b.live.Perm (n :: (b.strike number n).live) := by
  obtain ⟨hnumber, hn⟩ := Array.getElem?_eq_some_iff.mp h
  have hsplit : b.leases.toList = b.leases.toList.take number ++ some n :: b.leases.toList.drop (number + 1) := by
    rw [← hn, ← Array.getElem_toList hnumber, List.getElem_cons_drop, List.take_append_drop]
  have hstruck : (b.strike number n).leases.toList =
      b.leases.toList.take number ++ none :: b.leases.toList.drop (number + 1) := by
    rw [strike, Array.toList_setIfInBounds, List.set_eq_take_append_cons_drop, if_pos (by simpa using hnumber)]
  generalize b.leases.toList.take number = before at hsplit hstruck
  generalize b.leases.toList.drop (number + 1) = after at hsplit hstruck
  rw [live, live, hstruck, hsplit, List.filterMap_append, List.filterMap_append]
  exact List.perm_middle

/-! ### What every sequence of requests keeps -/

structure Balanced (b : LeaseBook) : Prop where
  resident : b.window.resident = b.live.sum
  le_limit : b.window.resident ≤ b.window.limit
  le_peak : b.window.resident ≤ b.window.peak

theorem balanced_opened (limit : Nat) : (opened limit).Balanced := ⟨rfl, Nat.zero_le _, Nat.le_refl _⟩

theorem Balanced.step (h : b.Balanced) (hs : b.Served request b') : b'.Balanced := by
  cases hs with
  | refused | stale => exact h
  | @granted n hroom =>
    refine ⟨?_, hroom, Nat.le_max_right ..⟩
    rw [live_grant, List.sum_append, List.sum_singleton, ← h.resident]
    rfl
  | @dropped number n hlive =>
    refine ⟨?_, Nat.le_trans (Nat.sub_le ..) h.le_limit, Nat.le_trans (Nat.sub_le ..) h.le_peak⟩
    have hsum := (live_strike hlive).sum_eq
    rw [← h.resident, List.sum_cons] at hsum
    change b.window.resident - n = _
    rw [hsum, Nat.add_sub_cancel_left]

theorem Served.limit_eq (hs : b.Served request b') : b'.window.limit = b.window.limit := by
  cases hs <;> rfl

theorem Balanced.peak_step (h : b.Balanced) (hs : b.Served request b') :
    b'.window.peak = max b.window.peak b'.window.resident := by
  cases hs with
  | granted => rfl
  | refused | stale => exact (Nat.max_eq_left h.le_peak).symm
  | dropped => exact (Nat.max_eq_left (Nat.le_trans (Nat.sub_le ..) h.le_peak)).symm

theorem serveAll_append_singleton (b : LeaseBook) (requests : List LeaseRequest) (request : LeaseRequest) :
    b.serveAll (requests ++ [request]) = (b.serveAll requests).serve request := by
  rw [serveAll, List.foldl_append]
  rfl

theorem Balanced.serveAll (h : b.Balanced) (requests : List LeaseRequest) : (b.serveAll requests).Balanced := by
  induction requests generalizing b with
  | nil => exact h
  | cons request requests ih => exact ih (h.step (b.served request))

theorem serveAll_limit (b : LeaseBook) (requests : List LeaseRequest) :
    (b.serveAll requests).window.limit = b.window.limit := by
  induction requests generalizing b with
  | nil => rfl
  | cons request requests ih => exact (ih _).trans (b.served request).limit_eq

structure Peaks (b : LeaseBook) (requests : List LeaseRequest) (peak : Nat) : Prop where
  reached : ∃ served, served <+: requests ∧ (b.serveAll served).window.resident = peak
  bounds : ∀ served, served <+: requests → (b.serveAll served).window.resident ≤ peak

theorem peaks_opened (limit : Nat) (requests : List LeaseRequest) :
    (opened limit).Peaks requests ((opened limit).serveAll requests).window.peak := by
  induction requests using List.reverseRecOn with
  | nil =>
    refine ⟨⟨[], List.prefix_rfl, rfl⟩, fun served hserved => ?_⟩
    rw [List.prefix_nil.mp hserved]
    exact Nat.le_refl _
  | append_singleton requests request ih =>
    have hbalanced := (balanced_opened limit).serveAll requests
    have hpeak := hbalanced.peak_step (((opened limit).serveAll requests).served request)
    rw [← serveAll_append_singleton] at hpeak
    constructor
    · rcases Nat.le_total ((opened limit).serveAll (requests ++ [request])).window.resident
        ((opened limit).serveAll requests).window.peak with hle | hle
      · obtain ⟨served, hserved, hreached⟩ := ih.reached
        exact ⟨served, hserved.trans (List.prefix_append ..), by rw [hpeak, Nat.max_eq_left hle, hreached]⟩
      · exact ⟨_, List.prefix_rfl, by rw [hpeak, Nat.max_eq_right hle]⟩
    · intro served hserved
      rw [hpeak]
      rcases List.prefix_concat_iff.mp hserved with rfl | hserved
      · exact Nat.le_max_right ..
      · exact Nat.le_trans (ih.bounds served hserved) (Nat.le_max_left ..)

/-! ### The accounts -/

/-- A window of this limit after the requests, starting without leases. -/
structure Accounts (limit : Nat) (requests : List LeaseRequest) (b : LeaseBook) : Prop where
  resident : b.window.resident = b.live.sum
  le_limit : b.window.resident ≤ limit
  peak : (opened limit).Peaks requests b.window.peak
  grants : ∀ n, b.window.resident + n ≤ limit →
    b.lease n = .ok (b.leases.size, b.grant n) ∧ (b.grant n).live = b.live ++ [n]
  refuses : ∀ n, limit < b.window.resident + n →
    b.lease n = .error (.windowExceeded limit b.window.resident n) ∧ b.serve (.lease n) = b
  drops : ∀ number n, b.leases[number]? = some (some n) →
    b.drop number = (true, b.strike number n) ∧ b.live.Perm (n :: (b.strike number n).live)
  merges : chunksPerMerge ≤ limit → (∀ n ∈ b.live, n = chunksPerMerge) → b.live.length < b.window.mergeSlots →
    b.lease chunksPerMerge = .ok (b.leases.size, b.grant chunksPerMerge)

theorem serveAll_accounts (limit : Nat) (requests : List LeaseRequest) :
    Accounts limit requests ((opened limit).serveAll requests) := by
  have hbalanced := (balanced_opened limit).serveAll requests
  have hlimit : ((opened limit).serveAll requests).window.limit = limit := serveAll_limit _ requests
  have hpeak := peaks_opened limit requests
  generalize (opened limit).serveAll requests = b at *
  subst hlimit
  refine ⟨hbalanced.resident, hbalanced.le_limit, hpeak, fun n hroom => ⟨lease_of_le hroom, b.live_grant n⟩,
    fun n hfull => ⟨lease_of_lt hfull, ?_⟩, fun number n hlive => ⟨drop_of_live hlive, live_strike hlive⟩,
    fun hlimit hsizes hfree => lease_of_le ?_⟩
  · rw [serve, lease_of_lt hfull]
  · have hsum : b.live.sum = b.live.length * chunksPerMerge := List.sum_eq_card_nsmul _ _ hsizes
    have hroom := Window.mul_le_of_lt_mergeSlots hlimit hfree
    rw [hbalanced.resident, hsum, ← Nat.succ_mul, Nat.mul_comm]
    exact hroom

theorem serveAll_accounts_nine :
    chunksPerMerge ≤ 9 ∧ (∀ n ∈ ((opened 9).serveAll [.lease 4, .lease 6, .drop 0, .lease 4]).live, n = chunksPerMerge) ∧
      ((opened 9).serveAll [.lease 4, .lease 6, .drop 0, .lease 4]).live.length <
        ((opened 9).serveAll [.lease 4, .lease 6, .drop 0, .lease 4]).window.mergeSlots ∧
      ((opened 9).serveAll [.lease 4, .lease 6, .drop 0, .lease 4]).lease chunksPerMerge =
        .ok (2, ⟨⟨9, 8, 8⟩, #[none, some 4, some 4]⟩) :=
  ⟨by decide, by decide, by decide, (serveAll_accounts 9 _).merges (by decide) (by decide) (by decide)⟩

end LeaseBook
end ChunkSort
