import Mathlib
import Ztsdb.Arr.Columns

/-!
# Windows of rows

What the functions on a rolling window ask of a column: the values in the window that ends at a
row, and how many values there are above it.
-/

namespace Ztsdb.Arr

namespace Columns

variable {T : Type} {h : Nat → Option T} {r : Nat}

/-- The values in the window of rows that ends at `r`. -/
def inWindow (window : Nat) (h : Nat → Option T) (r : Nat) : List T :=
  (List.range' (r + 1 - window) (r + 1 - (r + 1 - window))).filterMap h

theorem mem_inWindow {window : Nat} {x : T} :
    x ∈ inWindow window h r ↔ ∃ p, p ≤ r ∧ r < p + window ∧ h p = some x := by
  rw [inWindow, List.mem_filterMap]
  constructor
  · intro ⟨p, hp, hx⟩
    rw [List.mem_range'_1] at hp
    exact ⟨p, by omega, by omega, hx⟩
  · intro ⟨p, hp, hp', hx⟩
    exact ⟨p, List.mem_range'_1.2 ⟨by omega, by omega⟩, hx⟩

/-- The window has the values that are asked for. -/
def Valid (window nbvalid : Nat) (h : Nat → Option T) (r : Nat) : Prop :=
  nbvalid ≤ (inWindow window h r).length

instance (window nbvalid : Nat) (h : Nat → Option T) : DecidablePred (Valid window nbvalid h) :=
  fun r => inferInstanceAs (Decidable (nbvalid ≤ (inWindow window h r).length))

/-- The values above row `n`. -/
def present (h : Nat → Option T) (n : Nat) : Nat := Nat.count (fun i => (h i).isSome) n

theorem present_succ : present h (r + 1) = present h r + if (h r).isSome then 1 else 0 :=
  Nat.count_succ ..

theorem present_le : present h r ≤ r := Nat.count_le _

end Columns

end Ztsdb.Arr
