import Mathlib
import Ztsdb.Lib.Outcome

/-!
# Counted loops

A loop over a counter that goes up, and one over a counter that goes down to a positive bound.
The rules take the states that a run goes through as a function of the counter.
-/

namespace Ztsdb.Lib

open Outcome

variable {ε σ : Type} (body : Nat → σ → Outcome ε σ Unit)

/-- `k` rounds, for the counter from `r` on. -/
def forUp : Nat → Nat → σ → Outcome ε σ Unit
  | 0, _, s => .ok () s
  | k + 1, r, s => (body r s).bind fun _ s => forUp k (r + 1) s

/-- `for (; r >= n; --r)`, for a positive `n`. -/
def forDown (n : Nat) : Nat → σ → Outcome ε σ Unit
  | 0, s => .ok () s
  | r + 1, s => if n ≤ r + 1 then (body (r + 1) s).bind fun _ s => forDown n r s else .ok () s

variable {body}

theorem forUp_add (j k r : Nat) (s : σ) :
    forUp body (j + k) r s = (forUp body j r s).bind fun _ s => forUp body k (r + j) s := by
  induction j generalizing r s with
  | zero => rw [Nat.zero_add, forUp, bind_ok, Nat.add_zero]
  | succ j ih =>
      rw [Nat.add_right_comm, forUp, forUp, bind_assoc]
      congr 1
      funext _ s
      rw [ih, Nat.add_right_comm r 1 j]
      rfl

theorem forUp_eq_ok {S : Nat → σ} {k r : Nat}
    (h : ∀ i, r ≤ i → i < r + k → body i (S i) = .ok () (S (i + 1))) :
    forUp body k r (S r) = .ok () (S (r + k)) := by
  induction k generalizing r with
  | zero => rfl
  | succ k ih =>
      rw [forUp, h r le_rfl (by omega), bind_ok, ih fun i hi hi' => h i (by omega) (by omega)]
      congr 2
      omega

/-- A loop with an invariant. -/
theorem forUp_invariant {P : Nat → σ → Prop} {k r : Nat} {s : σ} (hs : P r s)
    (h : ∀ i s, r ≤ i → i < r + k → P i s → ∃ s', body i s = .ok () s' ∧ P (i + 1) s') :
    ∃ s', forUp body k r s = .ok () s' ∧ P (r + k) s' := by
  induction k generalizing r s with
  | zero => exact ⟨s, rfl, hs⟩
  | succ k ih =>
      obtain ⟨s', hbody, hs'⟩ := h r s le_rfl (by omega) hs
      obtain ⟨s'', hrun, hs''⟩ := ih hs' fun i s hi hi' => h i s (by omega) (by omega)
      refine ⟨s'', by rw [forUp, hbody, bind_ok, hrun], ?_⟩
      rwa [show r + 1 + k = r + (k + 1) by omega] at hs''

theorem forUp_keeps {P : σ → Prop} {k r : Nat} {s : σ} (hs : P s)
    (h : ∀ i s, r ≤ i → i < r + k → P s → (body i s).Keeps P) : (forUp body k r s).Keeps P := by
  induction k generalizing r s with
  | zero => exact keeps_ok hs
  | succ k ih =>
      rw [forUp]
      exact (h r s le_rfl (by omega) hs).bind fun _ s hs =>
        ih hs fun i s hi hi' => h i s (by omega) (by omega)

/-- The rounds before the one that does not return. -/
theorem forUp_eq_stop {S : Nat → σ} {j k r : Nat} {o : Outcome ε σ Unit} (hjk : j < k)
    (h : ∀ i, r ≤ i → i < r + j → body i (S i) = .ok () (S (i + 1)))
    (hstop : body (r + j) (S (r + j)) = o)
    (ho : ∀ f : Unit → σ → Outcome ε σ Unit, o.bind f = o) : forUp body k r (S r) = o := by
  obtain ⟨m, rfl⟩ : ∃ m, k = j + (m + 1) := ⟨k - j - 1, by omega⟩
  rw [forUp_add, forUp_eq_ok h, bind_ok, forUp, hstop, ho]

/-- The states are numbered by the places that are still to be visited. -/
theorem forDown_eq_ok {S : Nat → σ} {n m : Nat} (hn : 0 < n) (hnm : n ≤ m + 1)
    (h : ∀ i, n ≤ i → i ≤ m → body i (S (i + 1)) = .ok () (S i)) :
    forDown body n m (S (m + 1)) = .ok () (S n) := by
  induction m with
  | zero =>
      obtain rfl : n = 1 := by omega
      rfl
  | succ m ih =>
      rw [forDown]
      rcases Nat.lt_or_eq_of_le hnm with hlt | rfl
      · rw [if_pos (by omega), h (m + 1) (by omega) le_rfl, bind_ok,
          ih (by omega) fun i hi hi' => h i hi (by omega)]
      · rw [if_neg (by omega)]

theorem forDown_below {n m : Nat} (h : m < n) (s : σ) : forDown body n m s = .ok () s := by
  cases m with
  | zero => rfl
  | succ m => rw [forDown, if_neg (by omega)]

theorem forDown_first {n m : Nat} (hn : 0 < n) (h : n ≤ m) (s : σ) :
    forDown body n m s = (body m s).bind fun _ s => forDown body n (m - 1) s := by
  cases m with
  | zero => omega
  | succ m => rw [forDown, if_pos h, Nat.add_sub_cancel]

section Part

variable {τ : Type} {f : σ → τ} {body' : Nat → τ → Outcome ε τ Unit}

/-- A loop on a part of a larger state. -/
theorem forUp_mapState {k r : Nat} {s : σ}
    (h : ∀ i s, r ≤ i → i < r + k → body' i (f s) = (body i s).mapState f) :
    forUp body' k r (f s) = (forUp body k r s).mapState f := by
  induction k generalizing r s with
  | zero => rfl
  | succ k ih =>
      rw [forUp, forUp, h r s le_rfl (by omega)]
      cases body r s with
      | ok _ t => exact ih fun i t hi hi' => h i t (by omega) (by omega)
      | throw e t => rfl
      | fault => rfl

theorem forDown_mapState {n m : Nat} {s : σ}
    (h : ∀ i s, n ≤ i → i ≤ m → body' i (f s) = (body i s).mapState f) :
    forDown body' n m (f s) = (forDown body n m s).mapState f := by
  induction m generalizing s with
  | zero => rfl
  | succ m ih =>
      rw [forDown, forDown]
      split
      · next hle =>
          rw [h (m + 1) s hle le_rfl]
          cases body (m + 1) s with
          | ok _ t => exact ih fun i t hi hi' => h i t hi (by omega)
          | throw e t => rfl
          | fault => rfl
      · rfl

end Part

end Ztsdb.Lib
