import Mathlib

/-!
# Rings of a power of two

A buffer with a power of two of slots, in which the slot of a counter is found by masking.
-/

namespace Ztsdb.Lib

structure RingBuffer (α : Type) where
  slots : List α
  pow : ∃ k, slots.length = 2 ^ k

namespace RingBuffer

variable {α : Type} (g : RingBuffer α)

def size : Nat := g.slots.length

theorem size_pos : 0 < g.size := by
  obtain ⟨k, hk⟩ := g.pow
  rw [size, hk]
  exact Nat.two_pow_pos k

theorem mask_eq (r : Nat) : r &&& (g.size - 1) = r % g.size := by
  obtain ⟨k, hk⟩ := g.pow
  rw [size, hk, Nat.and_two_pow_sub_one_eq_mod]

/-- The slot of a counter. -/
def slot (r : Nat) : Fin g.slots.length :=
  ⟨r &&& (g.size - 1), by rw [mask_eq]; exact Nat.mod_lt r g.size_pos⟩

def get (r : Nat) : α := g.slots.get (g.slot r)

def put (r : Nat) (x : α) : RingBuffer α :=
  ⟨g.slots.set (g.slot r) x, by rw [List.length_set]; exact g.pow⟩

@[simp] theorem size_put (r : Nat) (x : α) : (g.put r x).size = g.size := by
  rw [size, put, List.length_set, size]

theorem get?_eq (r : Nat) : g.slots[r % g.size]? = some (g.get r) := by
  rw [← mask_eq, get, List.get_eq_getElem]
  exact List.getElem?_eq_getElem (g.slot r).isLt

theorem get_put (r i : Nat) (x : α) :
    (g.put r x).get i = if i % g.size = r % g.size then x else g.get i := by
  have hget := (g.put r x).get?_eq i
  have hslots : (g.put r x).slots = g.slots.set (r % g.size) x :=
    congrArg (fun i => g.slots.set i x) (g.mask_eq r)
  rw [size_put, hslots, List.getElem?_set] at hget
  by_cases hi : i % g.size = r % g.size
  · rw [if_pos hi.symm, if_pos (show r % g.size < g.slots.length from Nat.mod_lt r g.size_pos)] at hget
    rw [if_pos hi]
    exact (Option.some.inj hget).symm
  · rw [if_neg (Ne.symm hi), g.get?_eq i] at hget
    rw [if_neg hi]
    exact (Option.some.inj hget).symm

end RingBuffer

end Ztsdb.Lib
