import Mathlib

/-!
# Decimal numbers

Numbers written with their decimal digits, with zeros in front up to some width, and read
again digit by digit. A number that fits its width is written with exactly that many digits
and read back from them, whatever follows.
-/

namespace Ztsdb.Lib.Decimal

/-- The character of a digit. -/
def digit (d : Nat) : UInt8 := UInt8.ofNat (48 + d % 10)

def isDigit (c : UInt8) : Bool := decide (48 ≤ c ∧ c ≤ 57)

/-- The digits of a number. -/
def decimal (n : Nat) : List UInt8 :=
  if n < 10 then [digit n] else decimal (n / 10) ++ [digit n]

/-- With zeros in front, up to a width. -/
def pad (w n : Nat) : List UInt8 :=
  List.replicate (w - (decimal n).length) 48 ++ decimal n

/-- The last `w` digits of a number. -/
def fixed : Nat → Nat → List UInt8
  | 0, _ => []
  | w + 1, n => fixed w (n / 10) ++ [digit n]

/-- Up to `k` digits: the number behind `acc`, how many there were, and the rest. -/
def readDigits : Nat → Nat → List UInt8 → Nat × Nat × List UInt8
  | 0, acc, s => (acc, 0, s)
  | _ + 1, acc, [] => (acc, 0, [])
  | k + 1, acc, c :: s =>
    if isDigit c then
      let (res, i, rest) := readDigits k (10 * acc + (c.toNat - 48)) s
      (res, i + 1, rest)
    else (acc, 0, c :: s)

theorem toNat_digit (d : Nat) : (digit d).toNat = 48 + d % 10 := by
  rw [digit, UInt8.toNat_ofNat']
  omega

theorem isDigit_digit (d : Nat) : isDigit (digit d) = true := by
  rw [isDigit, decide_eq_true_eq, UInt8.le_iff_toNat_le, UInt8.le_iff_toNat_le, toNat_digit]
  have h48 : (48 : UInt8).toNat = 48 := rfl
  have h57 : (57 : UInt8).toNat = 57 := rfl
  omega

@[simp] theorem length_fixed (w n : Nat) : (fixed w n).length = w := by
  induction w generalizing n with
  | zero => rfl
  | succ w ih => rw [fixed, List.length_append, ih, List.length_singleton]

theorem fixed_zero (w : Nat) : fixed w 0 = List.replicate w 48 := by
  induction w with
  | zero => rfl
  | succ w ih =>
      rw [fixed, Nat.zero_div, ih, List.replicate_succ']
      rfl

theorem isDigit_of_mem_fixed {w n : Nat} {c : UInt8} (h : c ∈ fixed w n) : isDigit c = true := by
  induction w generalizing n with
  | zero => cases h
  | succ w ih =>
      rcases List.mem_append.mp h with h | h
      · exact ih h
      · rw [List.mem_singleton.mp h]
        exact isDigit_digit n

/-- A number that fits is written with as many digits as its width. -/
theorem pad_eq_fixed {w n : Nat} (h : n < 10 ^ w) (hw : 0 < w) : pad w n = fixed w n := by
  induction w generalizing n with
  | zero => exact absurd hw (Nat.lt_irrefl 0)
  | succ w ih =>
      rw [pad, fixed, decimal]
      split
      · next hlt =>
          rw [Nat.div_eq_of_lt hlt, fixed_zero, List.length_singleton, Nat.add_sub_cancel]
      · next hge =>
          rw [List.length_append, List.length_singleton, Nat.add_sub_add_right, ← List.append_assoc,
            ← pad]
          have hpos : 0 < w := by
            rcases Nat.eq_zero_or_pos w with rfl | hpos
            · exact absurd h hge
            · exact hpos
          rw [ih (Nat.div_lt_of_lt_mul (by rw [Nat.pow_succ] at h; omega)) hpos]

theorem readDigits_append (k acc : Nat) (ds s : List UInt8) (hds : ∀ c ∈ ds, isDigit c = true) :
    readDigits (ds.length + k) acc (ds ++ s) =
      let r := readDigits k (ds.foldl (fun acc c => 10 * acc + (c.toNat - 48)) acc) s
      (r.1, r.2.1 + ds.length, r.2.2) := by
  induction ds generalizing acc with
  | nil => simp only [List.length_nil, Nat.zero_add, List.nil_append, List.foldl_nil, Nat.add_zero]
  | cons c ds ih =>
      have hc := hds c (.head _)
      rw [List.length_cons, Nat.add_right_comm, List.cons_append, readDigits, if_pos hc,
        ih _ fun d hd => hds d (.tail _ hd)]
      rfl

theorem foldl_fixed (w n acc : Nat) :
    (fixed w n).foldl (fun acc c => 10 * acc + (c.toNat - 48)) acc = 10 ^ w * acc + n % 10 ^ w := by
  induction w generalizing n acc with
  | zero => simp [fixed, Nat.mod_one]
  | succ w ih =>
      rw [fixed, List.foldl_append, ih, List.foldl_cons, List.foldl_nil, toNat_digit,
        Nat.add_sub_cancel_left, Nat.pow_succ']
      have hmod : n % (10 * 10 ^ w) = n % 10 + 10 * (n / 10 % 10 ^ w) := Nat.mod_mul
      rw [hmod]
      ring

/-! ## Numbers of any width -/

theorem isDigit_of_mem_decimal {n : Nat} {c : UInt8} (h : c ∈ decimal n) : isDigit c = true := by
  induction n using Nat.strong_induction_on with
  | _ n ih =>
      rw [decimal] at h
      split at h
      · rw [List.mem_singleton.mp h]
        exact isDigit_digit n
      · next hge =>
          rcases List.mem_append.mp h with h | h
          · exact ih (n / 10) (by omega) h
          · rw [List.mem_singleton.mp h]
            exact isDigit_digit n

theorem isDigit_of_mem_pad {w n : Nat} {c : UInt8} (h : c ∈ pad w n) : isDigit c = true := by
  rcases List.mem_append.mp h with h | h
  · rw [List.eq_of_mem_replicate h]
    rfl
  · exact isDigit_of_mem_decimal h

theorem decimal_ne_nil (n : Nat) : decimal n ≠ [] := by
  rw [decimal]
  split
  · exact List.cons_ne_nil _ _
  · exact List.append_ne_nil_of_right_ne_nil _ (List.cons_ne_nil _ _)

theorem pad_ne_nil (w n : Nat) : pad w n ≠ [] :=
  List.append_ne_nil_of_right_ne_nil _ (decimal_ne_nil n)

theorem foldl_decimal (n : Nat) :
    (decimal n).foldl (fun acc c => 10 * acc + (c.toNat - 48)) 0 = n := by
  induction n using Nat.strong_induction_on with
  | _ n ih =>
      rw [decimal]
      split
      · rw [List.foldl_cons, List.foldl_nil, toNat_digit]
        omega
      · rw [List.foldl_append, ih (n / 10) (by omega), List.foldl_cons, List.foldl_nil, toNat_digit]
        omega

theorem foldl_zeros (k : Nat) :
    (List.replicate k 48).foldl (fun acc (c : UInt8) => 10 * acc + (c.toNat - 48)) 0 = 0 := by
  induction k with
  | zero => rfl
  | succ k ih =>
      rw [List.replicate_succ, List.foldl_cons]
      exact ih

/-- The zeros in front of a number do not count. -/
theorem foldl_pad (w n : Nat) :
    (pad w n).foldl (fun acc c => 10 * acc + (c.toNat - 48)) 0 = n := by
  rw [pad, List.foldl_append, foldl_zeros, foldl_decimal]

/-- Digits are read up to the most that is taken, and give the number back. -/
theorem readDigits_fixed {w n : Nat} (h : n < 10 ^ w) (s : List UInt8) :
    readDigits w 0 (fixed w n ++ s) = (n, w, s) := by
  have hread := readDigits_append 0 0 (fixed w n) s fun c => isDigit_of_mem_fixed
  rw [length_fixed, Nat.add_zero, foldl_fixed, Nat.mod_eq_of_lt h] at hread
  rw [hread]
  simp only [readDigits, Nat.mul_zero, Nat.zero_add]

end Ztsdb.Lib.Decimal
