import ChunkSort.Error

/-!
The residency window: how many chunks may take part in operations at once.
-/

namespace ChunkSort

structure Window where
  limit : Nat
  resident : Nat := 0
  peak : Nat := 0

namespace Window

def mergeSlots (w : Window) : Nat := max (w.limit / chunksPerMerge) 1

def lease (w : Window) (n : Nat) : Except Violation Window :=
  if w.resident + n ≤ w.limit then
    .ok { w with resident := w.resident + n, peak := max w.peak (w.resident + n) }
  else
    .error (.windowExceeded w.limit w.resident n)

def release (w : Window) (n : Nat) : Window := { w with resident := w.resident - n }

end Window

/-- A window with a book of the leases that it has granted. A lease that was dropped holds no size. -/
structure LeaseBook where
  window : Window
  leases : Array (Option Nat) := #[]

namespace LeaseBook

def lease (b : LeaseBook) (n : Nat) : Except Violation (Nat × LeaseBook) :=
  (b.window.lease n).map fun window => (b.leases.size, ⟨window, b.leases.push (some n)⟩)

def drop (b : LeaseBook) (number : Nat) : Bool × LeaseBook :=
  match b.leases[number]? with
  | some (some n) => (true, ⟨b.window.release n, b.leases.setIfInBounds number none⟩)
  | _ => (false, b)

end LeaseBook
end ChunkSort
