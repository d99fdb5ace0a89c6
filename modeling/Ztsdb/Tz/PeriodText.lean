import Mathlib
import Ztsdb.Lib.Decimal
import Ztsdb.Arr.AlignSpec
import Ztsdb.Tz.Period

/-!
# Durations and periods as texts

A duration is written as hours, minutes and seconds, with a sign in front and up to three
groups of three decimals behind. A period is written as its months, its days and its duration,
which a slash begins. Both are read by hand: numbers are accumulated in an `int`, decimals with
a multiplier that shrinks, and the fields of a period follow each other in a fixed order.

A text that is a duration alone begins like a period without fields, and the reader jumps to
the duration as it does from a slash, over one character.
-/

namespace Ztsdb.Tz

open Ztsdb.Lib Ztsdb.Lib.Decimal Ztsdb.Arr

/-! ## Reading -/

/-- The value of an `int`. -/
def int32 (n : Int) : Int := n.bmod (2 ^ 32)

/-- The value of a digit. -/
def digitVal (c : UInt8) : Int := (c.toNat : Int) - 48

/-- The digits that go on a number. -/
def readMore (n : Int) : List UInt8 → Int × List UInt8
  | [] => (n, [])
  | c :: s => if isDigit c then readMore (int32 (10 * n + digitVal c)) s else (n, c :: s)

/-- A number behind its sign, and the rest. -/
def readUnsigned (sign : Int) : List UInt8 → Option (Int × List UInt8)
  | [] => none
  | c :: s =>
    if isDigit c then
      let (n, s) := readMore (digitVal c) s
      some (int32 (n * sign), s)
    else none

/-- `readNumber`: the number and the rest. -/
def readNumber (s : List UInt8) (dosign : Bool) : Option (Int × List UInt8) :=
  if dosign ∧ s.head? = some 45 then readUnsigned (-1) s.tail else readUnsigned 1 s

def durationError : Exn := .rangeError "cannot parse duration"

/-- The digits behind the point; the next one counts `mul` times. -/
def readFraction (d mul : Int) (i : Nat) : List UInt8 → Except Exn Int
  | [] => .ok d
  | c :: s =>
    if mul < 1 then .error durationError
    else if (i = 3 ∨ i = 6) ∧ c = 95 then readFraction d mul i s
    else if isDigit c then readFraction (d + digitVal c * mul) (mul.tdiv 10) (i + 1) s
    else .error durationError

/-- Minutes and seconds behind hours: the duration of the hours and minutes, the seconds and
the rest. Without a colon the number is the seconds. -/
def readClock (n : Int) : List UInt8 → Except Exn (Int × Int × List UInt8)
  | [] => .ok (0, n, [])
  | c :: s =>
    if c ≠ 58 then .ok (0, n, c :: s)
    else
      match s with
      | m1 :: m2 :: colon :: s1 :: s2 :: s =>
        if isDigit m1 ∧ isDigit m2 ∧ colon = 58 ∧ isDigit s1 ∧ isDigit s2 then
          .ok (n * (3600 * den) + (digitVal m1 * 10 + digitVal m2) * (60 * den),
            digitVal s1 * 10 + digitVal s2, s)
        else .error durationError
      | _ => .error durationError

/-- What may follow the seconds. The sums wrap at the end. -/
def readDecimals (sign d : Int) : List UInt8 → Except Exn Int
  | [] => .ok ((sign * d).bmod (2 ^ 64))
  | c :: s =>
    if c ≠ 46 then .error durationError
    else (readFraction d 100000000 0 s).map fun d => (sign * d).bmod (2 ^ 64)

/-- The rest of a duration behind its first number. -/
def readDuration (sign n : Int) (s : List UInt8) : Except Exn Int :=
  match readClock n s with
  | .error e => .error e
  | .ok (d, n, s) => readDecimals sign (d + n * den) s

/-- `tz::duration_from_string2`. -/
def duration_from_string2 (str : List UInt8) : Except Exn Int :=
  let (sign, s) : Int × List UInt8 := if str.head? = some 45 then (-1, str.tail) else (1, str)
  match readNumber s false with
  | none => .error durationError
  | some (n, s) => readDuration sign n s

def periodError : Exn := .rangeError "cannot parse period"

/-- `getduration`: the text from the next character on, as a C string. -/
def getduration (p : period) (s : List UInt8) : Except Exn period :=
  match duration_from_string2 (s.tail.takeWhile (· ≠ 0)) with
  | .error _ => .error periodError
  | .ok dur => .ok { p with dur }

/-- The fields of a period, with what a number adds. -/
def periodFields : List (UInt8 × (period → Int → period)) :=
  [(121, fun p n => { p with months := int32 (p.months + int32 (12 * n)) }),
    (109, fun p n => { p with months := int32 (p.months + n) }),
    (119, fun p n => { p with days := int32 (p.days + int32 (7 * n)) }),
    (100, fun p n => { p with days := int32 (p.days + n) })]

/-- The fields that are left, with the number that has been read. -/
def readFields :
    List (UInt8 × (period → Int → period)) → period → Int → List UInt8 → Except Exn period
  | [], p, _, s => getduration p s
  | (unit, add) :: fields, p, n, s =>
    if s.head? = some unit then
      let p := add p n
      match s.tail with
      | [] => .ok p
      | c :: s =>
        if c = 47 then getduration p (c :: s)
        else
          match readNumber (c :: s) true with
          | none => .error periodError
          | some (n, s) => if s = [] then .error periodError else readFields fields p n s
    else readFields fields p n s

/-- `period(str)`. -/
def period.ofString (str : List UInt8) : Except Exn period :=
  if str.head? = some 47 ∨ str[2]? = some 58 then getduration ⟨0, 0, 0⟩ str
  else
    match readNumber str true with
    | none => .error periodError
    | some (n, s) => if s = [] then .error periodError else readFields periodFields ⟨0, 0, 0⟩ n s

/-! ## Writing -/

/-- A number in a stream that fills up to a width with zeros. -/
def padInt (w : Nat) (n : Int) : List UInt8 :=
  if 0 ≤ n then pad w n.toNat
  else List.replicate (w - (45 :: decimal n.natAbs).length) 48 ++ 45 :: decimal n.natAbs

/-- How many units are in a duration, and what is left of it. -/
def splitOff (d unit : Int) : Int × Int := (d.tdiv unit, d - d.tdiv unit * unit)

/-- The text of a duration behind its sign. -/
def unsignedText (d : Int) : List UInt8 :=
  let (h, d) := splitOff d (3600 * den)
  let (min, d) := splitOff d (60 * den)
  let (s, d) := splitOff d den
  let (ms, d) := splitOff d 1000000
  let (us, ns) := splitOff d 1000
  padInt 2 h ++ 58 :: (padInt 2 min ++ 58 :: (padInt 2 s ++
    if ms ≠ 0 ∨ us ≠ 0 ∨ ns ≠ 0 then
      46 :: (padInt 3 ms ++
        if us ≠ 0 ∨ ns ≠ 0 then
          95 :: (padInt 3 us ++ if ns ≠ 0 then 95 :: padInt 3 ns else [])
        else [])
    else []))

/-- `to_string(duration)`. -/
def duration.to_string (d : Int) : List UInt8 :=
  if d < 0 then 45 :: unsignedText ((d * -1).bmod (2 ^ 64)) else unsignedText d

/-- `to_string(period)`. -/
def period.to_string (p : period) : List UInt8 :=
  padInt 0 p.months ++ 109 :: (padInt 0 p.days ++ 100 :: 47 :: duration.to_string p.dur)

/-! ## Numbers -/

theorem int32_of_fits {n : Int} (h : -2 ^ 31 ≤ n) (h' : n < 2 ^ 31) : int32 n = n :=
  Int.bmod_eq_of_le (by omega) (by omega)

theorem isDigit_iff {c : UInt8} : isDigit c = true ↔ 48 ≤ c.toNat ∧ c.toNat ≤ 57 := by
  rw [isDigit, decide_eq_true_eq, UInt8.le_iff_toNat_le, UInt8.le_iff_toNat_le]
  rfl

theorem digitVal_bounds {c : UInt8} (h : isDigit c = true) : 0 ≤ digitVal c ∧ digitVal c ≤ 9 := by
  obtain ⟨h48, h57⟩ := isDigit_iff.mp h
  rw [digitVal]
  omega

theorem ne_of_isDigit {c d : UInt8} (h : isDigit c = true) (hd : isDigit d = false) : c ≠ d := by
  rintro rfl
  rw [h] at hd
  cases hd

/-- The value of digits behind a number. -/
def digitsVal (n : Nat) (ds : List UInt8) : Nat :=
  ds.foldl (fun acc c => 10 * acc + (c.toNat - 48)) n

theorem digitsVal_cons (n : Nat) (c : UInt8) (ds : List UInt8) :
    digitsVal n (c :: ds) = digitsVal (10 * n + (c.toNat - 48)) ds := by
  simp only [digitsVal, List.foldl_cons]

theorem le_digitsVal (ds : List UInt8) (n : Nat) : n ≤ digitsVal n ds := by
  induction ds generalizing n with
  | nil => exact le_rfl
  | cons c ds ih =>
      have := ih (10 * n + (c.toNat - 48))
      rw [digitsVal_cons]
      omega

/-- What does not go on a number. -/
def Stops (s : List UInt8) : Prop := ∀ c, s.head? = some c → isDigit c = false

theorem readMore_digits {ds s : List UInt8} (hds : ∀ c ∈ ds, isDigit c = true) (hs : Stops s)
    (n : Nat) (hn : digitsVal n ds < 2 ^ 31) :
    readMore n (ds ++ s) = ((digitsVal n ds : Int), s) := by
  induction ds generalizing n with
  | nil =>
      cases s with
      | nil => rfl
      | cons c s =>
          rw [List.nil_append, readMore, if_neg]
          · rfl
          · rw [hs c rfl]
            decide
  | cons c ds ih =>
      have hc := hds c (.head _)
      have hval : 10 * (n : Int) + digitVal c = ((10 * n + (c.toNat - 48) : Nat) : Int) := by
        have := (isDigit_iff.mp hc).1
        rw [digitVal]
        omega
      have hle := le_digitsVal ds (10 * n + (c.toNat - 48))
      rw [digitsVal_cons] at hn ⊢
      rw [List.cons_append, readMore, if_pos hc, hval, int32_of_fits (by omega) (by omega),
        ih (fun d hd => hds d (.tail _ hd)) _ hn]

/-- Digits are read as the number that they are. -/
theorem readUnsigned_digits {ds s : List UInt8} (hne : ds ≠ [])
    (hds : ∀ c ∈ ds, isDigit c = true) (hs : Stops s) (hn : digitsVal 0 ds < 2 ^ 31) {sign : Int}
    (hsign : sign = 1 ∨ sign = -1) :
    readUnsigned sign (ds ++ s) = some ((digitsVal 0 ds : Int) * sign, s) := by
  cases ds with
  | nil => exact absurd rfl hne
  | cons c ds =>
      have hc := hds c (.head _)
      have hval : digitVal c = ((10 * 0 + (c.toNat - 48) : Nat) : Int) := by
        have := (isDigit_iff.mp hc).1
        rw [digitVal]
        omega
      rw [digitsVal_cons] at hn ⊢
      rw [List.cons_append, readUnsigned, if_pos hc, hval,
        readMore_digits (fun d hd => hds d (.tail _ hd)) hs _ hn]
      have hfits : -2 ^ 31 ≤ (digitsVal (10 * 0 + (c.toNat - 48)) ds : Int) * sign ∧
          (digitsVal (10 * 0 + (c.toNat - 48)) ds : Int) * sign < 2 ^ 31 := by
        rcases hsign with rfl | rfl <;> omega
      simp only
      rw [int32_of_fits hfits.1 hfits.2]

/-- Without a sign in front. -/
theorem readNumber_digits {ds s : List UInt8} (hne : ds ≠ []) (hds : ∀ c ∈ ds, isDigit c = true)
    (hs : Stops s) (hn : digitsVal 0 ds < 2 ^ 31) (dosign : Bool) :
    readNumber (ds ++ s) dosign = some ((digitsVal 0 ds : Int), s) := by
  have hnosign : ¬(dosign = true ∧ (ds ++ s).head? = some 45) := by
    rintro ⟨-, heq⟩
    cases ds with
    | nil => exact hne rfl
    | cons c ds =>
        exact ne_of_isDigit (hds c (.head _)) (by decide : isDigit 45 = false)
          (Option.some.inj heq)
  rw [readNumber, if_neg hnosign, readUnsigned_digits hne hds hs hn (Or.inl rfl), mul_one]

/-- A number that has been written is read back. -/
theorem readNumber_pad (w : Nat) {n : Nat} (h : n < 2 ^ 31) {s : List UInt8} (hs : Stops s)
    (dosign : Bool) : readNumber (pad w n ++ s) dosign = some ((n : Int), s) := by
  have hval : digitsVal 0 (pad w n) = n := foldl_pad w n
  rw [readNumber_digits (pad_ne_nil w n) (fun _ => isDigit_of_mem_pad) hs (by rwa [hval]), hval]

theorem readNumber_padInt {n : Int} (h : -2 ^ 31 < n) (h' : n < 2 ^ 31) {s : List UInt8}
    (hs : Stops s) : readNumber (padInt 0 n ++ s) true = some (n, s) := by
  rw [padInt]
  split
  · next h0 =>
      rw [readNumber_pad 0 (by omega) hs, Int.toNat_of_nonneg h0]
  · next hneg =>
      have hval : digitsVal 0 (decimal n.natAbs) = n.natAbs := foldl_decimal n.natAbs
      rw [Nat.zero_sub, List.replicate_zero, List.nil_append, List.cons_append, readNumber,
        if_pos ⟨rfl, rfl⟩, List.tail_cons,
        readUnsigned_digits (decimal_ne_nil _) (fun _ => isDigit_of_mem_decimal) hs
          (by rw [hval]; omega) (Or.inr rfl), hval]
      congr 2
      omega

/-! ## Fractions -/

/-- The fractions that are read: up to nine digits, with underscores between the groups. -/
def IsFraction (i : Nat) : List UInt8 → Prop
  | [] => True
  | c :: s =>
    i < 9 ∧ ((i = 3 ∨ i = 6) ∧ c = 95 ∧ IsFraction i s ∨ isDigit c = true ∧ IsFraction (i + 1) s)

/-- What a digit of a fraction counts. -/
def weight (i : Nat) : Int := 100000000 / 10 ^ i

theorem weight_succ (i : Nat) : (weight i).tdiv 10 = weight (i + 1) := by
  have hpos : 0 ≤ weight i := Int.ediv_nonneg (by decide) (by positivity)
  rw [Int.tdiv_eq_ediv_of_nonneg hpos, weight, weight, Int.ediv_ediv_of_nonneg (by positivity),
    pow_succ]

theorem weight_pos {i : Nat} (h : i < 9) : ¬weight i < 1 := by
  interval_cases i <;> decide

/-- A fraction adds what its digits count. -/
theorem readFraction_spec {s : List UInt8} {i : Nat} (h : IsFraction i s) :
    ∃ x, 0 ≤ x ∧ x ≤ 10 * weight i ∧ ∀ d, readFraction d (weight i) i s = .ok (d + x) := by
  induction s generalizing i with
  | nil =>
      have hpos : 0 ≤ weight i := Int.ediv_nonneg (by decide) (by positivity)
      exact ⟨0, le_rfl, by omega, fun d => by rw [readFraction, Int.add_zero]⟩
  | cons c s ih =>
      obtain ⟨h9, hc⟩ := h
      have hpos := weight_pos h9
      by_cases hund : (i = 3 ∨ i = 6) ∧ c = 95
      · have hs : IsFraction i s := by
          rcases hc with ⟨-, -, hs⟩ | ⟨hdigit, -⟩
          · exact hs
          · rw [hund.2] at hdigit
            exact absurd hdigit (by decide)
        obtain ⟨x, h0, hx, hread⟩ := ih hs
        refine ⟨x, h0, hx, fun d => ?_⟩
        rw [readFraction, if_neg hpos, if_pos hund, hread]
      · obtain ⟨hdigit, hs⟩ : isDigit c = true ∧ IsFraction (i + 1) s := by
          rcases hc with ⟨hi, hc, -⟩ | hs
          · exact absurd ⟨hi, hc⟩ hund
          · exact hs
        obtain ⟨x, h0, hx, hread⟩ := ih hs
        obtain ⟨hd0, hd9⟩ := digitVal_bounds hdigit
        have hten : 10 * weight (i + 1) ≤ weight i := by
          rw [← weight_succ, Int.tdiv_eq_ediv_of_nonneg (by omega)]
          omega
        have hlo : 0 ≤ digitVal c * weight i := Int.mul_nonneg hd0 (by omega)
        have hhi : digitVal c * weight i ≤ 9 * weight i :=
          Int.mul_le_mul_of_nonneg_right hd9 (by omega)
        refine ⟨digitVal c * weight i + x, by omega, by omega, fun d => ?_⟩
        rw [readFraction, if_neg hpos, if_neg hund, if_pos hdigit, weight_succ, hread,
          Int.add_assoc]

/-! ## Durations -/

theorem digitVal_digit (n : Nat) : digitVal (digit n) = ((n % 10 : Nat) : Int) := by
  rw [digitVal, toNat_digit]
  omega

theorem padInt_eq_fixed {w n : Nat} (h : n < 10 ^ w) (hw : 0 < w) : padInt w n = fixed w n := by
  rw [padInt, if_pos (by omega), Int.toNat_natCast, pad_eq_fixed h hw]

theorem readClock_fixed (n : Int) {m s : Nat} (hm : m < 100) (hs : s < 100) (rest : List UInt8) :
    readClock n (58 :: (fixed 2 m ++ 58 :: (fixed 2 s ++ rest))) =
      .ok (n * (3600 * den) + m * (60 * den), s, rest) := by
  have hfixed (k : Nat) (l : List UInt8) : fixed 2 k ++ l = digit (k / 10) :: digit k :: l := rfl
  have hval {k : Nat} (hk : k < 100) : digitVal (digit (k / 10)) * 10 + digitVal (digit k) = k := by
    rw [digitVal_digit, digitVal_digit]
    omega
  rw [hfixed, hfixed, readClock, if_neg (not_not.mpr rfl)]
  simp only [isDigit_digit, and_self, if_true, hval hm, hval hs]

theorem readFraction_fixed (d : Int) {i k : Nat} (hi : i ≤ 6) (hk : k < 1000) (s : List UInt8) :
    readFraction d (weight i) i (fixed 3 k ++ s) =
      readFraction (d + k * weight (i + 2)) (weight (i + 3)) (i + 3) s := by
  have hfixed : fixed 3 k ++ s = digit (k / 10 / 10) :: digit (k / 10) :: digit k :: s := rfl
  have hund (n j : Nat) : ¬((j = 3 ∨ j = 6) ∧ digit n = 95) := fun h =>
    ne_of_isDigit (isDigit_digit n) (by decide) h.2
  rw [hfixed, readFraction, if_neg (weight_pos (by omega)), if_neg (hund _ _),
    if_pos (isDigit_digit _), weight_succ, readFraction, if_neg (weight_pos (by omega)),
    if_neg (hund _ _), if_pos (isDigit_digit _), weight_succ, readFraction,
    if_neg (weight_pos (by omega)), if_neg (hund _ _), if_pos (isDigit_digit _), weight_succ]
  congr 1
  have hten : weight i = 100 * weight (i + 2) ∧ weight (i + 1) = 10 * weight (i + 2) := by
    interval_cases i <;> decide
  rw [hten.1, hten.2, digitVal_digit, digitVal_digit, digitVal_digit]
  have hsum : (k : Int) = (k / 10 / 10 % 10 : Nat) * 100 + (k / 10 % 10 : Nat) * 10 + (k % 10 : Nat) := by
    omega
  rw [hsum]
  ring

theorem readFraction_underscore (d : Int) {i : Nat} (hi : i = 3 ∨ i = 6) (s : List UInt8) :
    readFraction d (weight i) i (95 :: s) = readFraction d (weight i) i s := by
  rw [readFraction, if_neg (weight_pos (by omega)), if_pos ⟨hi, rfl⟩]

/-- The groups of decimals that are written are the ones that are read. -/
theorem readFraction_groups (d : Int) {ms us ns : Nat} (hms : ms < 1000) (hus : us < 1000)
    (hns : ns < 1000) :
    readFraction d 100000000 0 (padInt 3 ms ++
      if (us : Int) ≠ 0 ∨ (ns : Int) ≠ 0 then
        95 :: (padInt 3 us ++ if (ns : Int) ≠ 0 then 95 :: padInt 3 ns else [])
      else []) = .ok (d + ms * 1000000 + us * 1000 + ns) := by
  have h0 : (100000000 : Int) = weight 0 := by decide
  have h2 : weight (0 + 2) = 1000000 := by decide
  have h5 : weight (3 + 2) = 1000 := by decide
  have h8 : weight (6 + 2) = 1 := by decide
  rw [padInt_eq_fixed hms (by decide), h0, readFraction_fixed d (by decide) hms, h2]
  split
  · rw [readFraction_underscore _ (Or.inl rfl), padInt_eq_fixed hus (by decide),
      readFraction_fixed _ (by decide) hus, h5]
    split
    · rw [readFraction_underscore _ (Or.inr rfl), padInt_eq_fixed hns (by decide),
        ← List.append_nil (fixed 3 ns), readFraction_fixed _ (by decide) hns, h8, readFraction,
        mul_one]
    · rw [readFraction, show (ns : Int) = 0 by omega, Int.add_zero]
  · rw [readFraction, show (us : Int) = 0 by omega, show (ns : Int) = 0 by omega]
    simp

theorem splitOff_eq {q r unit : Int} (hq : 0 ≤ q) (hr : 0 ≤ r) (hlt : r < unit) :
    splitOff (q * unit + r) unit = (q, r) := by
  have hdiv : (q * unit + r).tdiv unit = q := by
    have hpos := Int.mul_nonneg hq (hr.trans hlt.le)
    rw [Int.tdiv_eq_ediv_of_nonneg (by omega), Int.add_comm,
      Int.add_mul_ediv_right _ _ (by omega), Int.ediv_eq_zero_of_lt hr hlt, Int.zero_add]
  rw [splitOff, hdiv, add_sub_cancel_left]

theorem stops_cons {c : UInt8} (hc : isDigit c = false) (s : List UInt8) : Stops (c :: s) := by
  intro c' h
  rwa [← Option.some.inj h]

theorem ne_zero_of_isDigit {c : UInt8} (h : isDigit c = true) : c ≠ 0 := ne_of_isDigit h (by decide)

theorem ne_zero_of_mem_padInt {w n : Nat} {c : UInt8} (h : c ∈ padInt w n) : c ≠ 0 := by
  rw [padInt, if_pos (by omega)] at h
  exact ne_zero_of_isDigit (isDigit_of_mem_pad h)

/-- The text of a duration begins with its hours, and the rest is read as what is left. -/
theorem unsignedText_spec {d : Int} (h0 : 0 ≤ d) (hlt : d < 2 ^ 63) :
    ∃ h : Nat, h < 2 ^ 31 ∧ ∃ rest, unsignedText d = pad 2 h ++ rest ∧ Stops rest ∧
      (∀ c ∈ rest, c ≠ 0) ∧
      ∀ sign, readDuration sign h rest = .ok ((sign * d).bmod (2 ^ 64)) := by
  obtain ⟨h, min, s, ms, us, ns, hh, hmin, hs, hms, hus, hns, rfl⟩ :
      ∃ h min s ms us ns : Nat, h < 2 ^ 31 ∧ min < 60 ∧ s < 60 ∧ ms < 1000 ∧ us < 1000 ∧ ns < 1000 ∧
        d = h * (3600 * den) +
          (min * (60 * den) + (s * den + (ms * 1000000 + (us * 1000 + ns)))) := by
    obtain ⟨n, rfl⟩ : ∃ n : Nat, d = n := ⟨d.toNat, by omega⟩
    refine ⟨n / 3600000000000, n / 60000000000 % 60, n / 1000000000 % 60, n / 1000000 % 1000,
      n / 1000 % 1000, n % 1000, by omega, by omega, by omega, by omega, by omega, by omega, ?_⟩
    rw [den]
    omega
  refine ⟨h, hh, ?_⟩
  have hden : (0 : Int) < den := by decide
  have h1 := @splitOff_eq h (min * (60 * den) + (s * den + (ms * 1000000 + (us * 1000 + ns))))
    (3600 * den) (by omega) (by rw [den]; omega) (by rw [den]; omega)
  have h2 := @splitOff_eq min (s * den + (ms * 1000000 + (us * 1000 + ns))) (60 * den) (by omega)
    (by rw [den]; omega) (by rw [den]; omega)
  have h3 := @splitOff_eq s (ms * 1000000 + (us * 1000 + ns)) den (by omega) (by omega)
    (by rw [den]; omega)
  have h4 := @splitOff_eq ms (us * 1000 + ns) 1000000 (by omega) (by omega) (by omega)
  have h5 := @splitOff_eq us ns 1000 (by omega) (by omega) (by omega)
  rw [unsignedText, h1]
  simp only [h2, h3, h4, h5]
  rw [padInt, if_pos (by omega), Int.toNat_natCast]
  refine ⟨_, rfl, stops_cons (by decide) _, fun c hc => ?_, fun sign => ?_⟩
  · simp only [List.mem_cons, List.mem_append, List.mem_ite_nil_right] at hc
    rcases hc with rfl | hc | rfl | hc | ⟨-, rfl | hc | ⟨-, rfl | hc | ⟨-, rfl | hc⟩⟩⟩
    all_goals first | exact ne_zero_of_mem_padInt hc | decide
  rw [padInt_eq_fixed (show min < 10 ^ 2 by omega) (by decide),
    padInt_eq_fixed (show s < 10 ^ 2 by omega) (by decide), readDuration,
    readClock_fixed _ (by omega) (by omega)]
  simp only
  have hsum : (h : Int) * (3600 * den) + min * (60 * den) + s * den + ms * 1000000 + us * 1000 + ns =
      h * (3600 * den) + (min * (60 * den) + (s * den + (ms * 1000000 + (us * 1000 + ns)))) := by
    ring
  rw [← hsum]
  split
  · rw [readDecimals, if_neg (not_not.mpr rfl), readFraction_groups _ hms hus hns]
    rfl
  · next hnone =>
      have hzero : ms = 0 ∧ us = 0 ∧ ns = 0 := by omega
      rw [readDecimals, hzero.1, hzero.2.1, hzero.2.2]
      simp

theorem head?_pad_append (w n : Nat) (s : List UInt8) {c : UInt8} (hc : isDigit c = false) :
    (pad w n ++ s).head? ≠ some c := by
  obtain ⟨d, ds, hcons⟩ := List.exists_cons_of_ne_nil (pad_ne_nil w n)
  have hd : isDigit d = true := isDigit_of_mem_pad (hcons ▸ List.mem_cons_self)
  rw [hcons]
  exact fun h => ne_of_isDigit hd hc (Option.some.inj h)

theorem duration.to_string_neg {d : Int} (hlo : -2 ^ 63 < d) (hneg : d < 0) :
    duration.to_string d = 45 :: unsignedText (-d) := by
  rw [duration.to_string, if_pos hneg, Int.mul_neg_one, bmod_of_fits (by omega) (by omega)]

/-- A duration that is not the least one is read as it was written. -/
theorem duration_from_string2_to_string {d : Int} (hlo : -2 ^ 63 < d) (hhi : d < 2 ^ 63) :
    duration_from_string2 (duration.to_string d) = .ok d := by
  have hback : d.bmod (2 ^ 64) = d := bmod_of_fits hlo.le hhi
  rcases lt_or_ge d 0 with hneg | h0
  · obtain ⟨h, hh, rest, htext, hstops, -, hread⟩ :=
      @unsignedText_spec (-d) (by omega) (by omega)
    rw [duration.to_string_neg hlo hneg, htext, duration_from_string2, List.head?_cons, if_pos rfl]
    simp only [List.tail_cons, readNumber_pad 2 hh hstops, hread]
    rw [neg_mul_neg, one_mul, hback]
  · obtain ⟨h, hh, rest, htext, hstops, -, hread⟩ := unsignedText_spec h0 hhi
    rw [duration.to_string, if_neg (not_lt.mpr h0), htext, duration_from_string2,
      if_neg (head?_pad_append 2 h rest (by decide))]
    simp only [readNumber_pad 2 hh hstops, hread]
    rw [one_mul, hback]

theorem ne_zero_of_mem_to_string {d : Int} (hlo : -2 ^ 63 < d) (hhi : d < 2 ^ 63) {c : UInt8}
    (hc : c ∈ duration.to_string d) : c ≠ 0 := by
  have hunsigned {d : Int} (h0 : 0 ≤ d) (hlt : d < 2 ^ 63) {c : UInt8} (hc : c ∈ unsignedText d) :
      c ≠ 0 := by
    obtain ⟨h, -, rest, htext, -, hrest, -⟩ := unsignedText_spec h0 hlt
    rw [htext] at hc
    rcases List.mem_append.mp hc with hc | hc
    · exact ne_zero_of_isDigit (isDigit_of_mem_pad hc)
    · exact hrest c hc
  rcases lt_or_ge d 0 with hneg | h0
  · rw [duration.to_string_neg hlo hneg] at hc
    rcases List.mem_cons.mp hc with rfl | hc
    · decide
    · exact hunsigned (by omega) (by omega) hc
  · rw [duration.to_string, if_neg (not_lt.mpr h0)] at hc
    exact hunsigned h0 hhi hc

/-! ## Periods -/

section Fields

variable {unit : UInt8} {add : period → Int → period}
  {fields : List (UInt8 × (period → Int → period))} {p : period} {n n' : Int} {s s' : List UInt8}

theorem readFields_skip (h : s.head? ≠ some unit) :
    readFields ((unit, add) :: fields) p n s = readFields fields p n s := by
  rw [readFields, if_neg h]

theorem readFields_slash (s : List UInt8) :
    readFields ((unit, add) :: fields) p n (unit :: 47 :: s) = getduration (add p n) (47 :: s) := by
  rw [readFields, List.head?_cons, if_pos rfl]
  rfl

/-- A field is followed by the number of another one. -/
theorem readFields_unit (hread : readNumber s true = some (n', s')) (hs' : s' ≠ []) :
    readFields ((unit, add) :: fields) p n (unit :: s) = readFields fields (add p n) n' s' := by
  rw [readFields, List.head?_cons, if_pos rfl, List.tail_cons]
  cases s with
  | nil => cases hread
  | cons c s =>
      by_cases hslash : c = 47
      · subst hslash
        cases hread
      · simp only
        rw [if_neg hslash, hread]
        simp only
        rw [if_neg hs']

end Fields

theorem mem_padInt_zero {n : Int} {c : UInt8} (h : c ∈ padInt 0 n) : isDigit c = true ∨ c = 45 := by
  rw [padInt] at h
  split at h
  · exact Or.inl (isDigit_of_mem_pad h)
  · rw [Nat.zero_sub, List.replicate_zero, List.nil_append] at h
    rcases List.mem_cons.mp h with rfl | h
    · exact Or.inr rfl
    · exact Or.inl (isDigit_of_mem_decimal h)

theorem padInt_ne_nil (n : Int) : padInt 0 n ≠ [] := by
  rw [padInt]
  split
  · exact pad_ne_nil _ _
  · exact List.append_ne_nil_of_right_ne_nil _ (List.cons_ne_nil _ _)

/-- The first characters of a period are not those of a duration alone. -/
theorem fields_begin (m d : Int) (s : List UInt8) :
    ¬((padInt 0 m ++ 109 :: (padInt 0 d ++ 100 :: s)).head? = some 47 ∨
      (padInt 0 m ++ 109 :: (padInt 0 d ++ 100 :: s))[2]? = some 58) := by
  have hsplit : padInt 0 m ++ 109 :: (padInt 0 d ++ 100 :: s) =
      (padInt 0 m ++ 109 :: (padInt 0 d ++ [100])) ++ s := by simp
  have hm := List.length_pos_of_ne_nil (padInt_ne_nil m)
  have hd := List.length_pos_of_ne_nil (padInt_ne_nil d)
  have hchars : ∀ c ∈ padInt 0 m ++ 109 :: (padInt 0 d ++ [100]), c ≠ 47 ∧ c ≠ 58 := by
    intro c hc
    simp only [List.mem_append, List.mem_cons, List.not_mem_nil, or_false] at hc
    have hpad {n : Int} (h : c ∈ padInt 0 n) : c ≠ 47 ∧ c ≠ 58 := by
      rcases mem_padInt_zero h with h | rfl
      · exact ⟨ne_of_isDigit h (by decide), ne_of_isDigit h (by decide)⟩
      · decide
    rcases hc with hc | rfl | hc | rfl
    · exact hpad hc
    · decide
    · exact hpad hc
    · decide
  have hlen : 2 < (padInt 0 m ++ 109 :: (padInt 0 d ++ [100])).length := by
    simp only [List.length_append, List.length_cons, List.length_nil]
    omega
  rw [hsplit, List.head?_eq_getElem?, List.getElem?_append_left (by omega),
    List.getElem?_append_left hlen]
  rintro (h | h)
  · exact (hchars _ (List.mem_of_getElem? h)).1 rfl
  · exact (hchars _ (List.mem_of_getElem? h)).2 rfl

theorem getduration_to_string (p : period) {d : Int} (hlo : -2 ^ 63 < d) (hhi : d < 2 ^ 63) :
    getduration p (47 :: duration.to_string d) = .ok { p with dur := d } := by
  have htake : (duration.to_string d).takeWhile (· ≠ 0) = duration.to_string d :=
    List.takeWhile_eq_self_iff.mpr fun c hc =>
      decide_eq_true (ne_zero_of_mem_to_string hlo hhi hc)
  rw [getduration, List.tail_cons, htake, duration_from_string2_to_string hlo hhi]

/-- The fields whose negations are of their types. -/
structure period.Opposable (p : period) : Prop where
  months : -2 ^ 31 < p.months ∧ p.months < 2 ^ 31
  days : -2 ^ 31 < p.days ∧ p.days < 2 ^ 31
  dur : -2 ^ 63 < p.dur ∧ p.dur < 2 ^ 63

theorem period.ofString_to_string {p : period} (h : p.Opposable) :
    period.ofString p.to_string = .ok p := by
  obtain ⟨months, days, dur⟩ := p
  obtain ⟨⟨hm, hm'⟩, ⟨hd, hd'⟩, ⟨hlo, hhi⟩⟩ := h
  have hdays := readNumber_padInt hd hd' (stops_cons (by decide : isDigit 100 = false)
    (47 :: duration.to_string dur))
  rw [period.to_string, period.ofString, if_neg (fields_begin _ _ _),
    readNumber_padInt hm hm' (stops_cons (by decide : isDigit 109 = false) _)]
  simp only [reduceCtorEq, if_false]
  rw [periodFields, readFields_skip (by simp), readFields_unit hdays (List.cons_ne_nil _ _),
    readFields_skip (by simp), readFields_slash, getduration_to_string _ hlo hhi]
  simp only [Int.zero_add]
  rw [int32_of_fits hm.le hm', int32_of_fits hd.le hd']

/-- Durations and periods whose fields are not the least ones are read as they were written. -/
theorem durations_and_periods_round_trip {d : Int} (hlo : -2 ^ 63 < d) (hhi : d < 2 ^ 63)
    {p : period} (hp : p.Opposable) :
    duration_from_string2 (duration.to_string d) = .ok d ∧ period.ofString p.to_string = .ok p :=
  ⟨duration_from_string2_to_string hlo hhi, period.ofString_to_string hp⟩

/-- Just above the least duration, and a period with signs in all its fields. -/
theorem durations_and_periods_round_trip_least :
    duration_from_string2 (duration.to_string (-2 ^ 63 + 1)) = .ok (-2 ^ 63 + 1) ∧
      period.ofString (period.to_string ⟨-14, -25, -45296123000001⟩) =
        .ok ⟨-14, -25, -45296123000001⟩ :=
  durations_and_periods_round_trip (by decide) (by decide) ⟨by decide, by decide, by decide⟩

/-! ## A duration alone -/

/-- `HH:MM:SS` with an optional fraction. -/
structure ClockText (h1 h2 m1 m2 s1 s2 : UInt8) (fraction : List UInt8) : Prop where
  hours : isDigit h1 = true ∧ isDigit h2 = true
  minutes : isDigit m1 = true ∧ isDigit m2 = true
  seconds : isDigit s1 = true ∧ isDigit s2 = true
  fraction : fraction = [] ∨ ∃ ds, fraction = 46 :: ds ∧ IsFraction 0 ds

/-- The text alone and behind a slash is the period of its duration. -/
def SameAlone (text : List UInt8) : Prop :=
  ∃ d, duration_from_string2 text = .ok d ∧ period.ofString text = .ok ⟨0, 0, d⟩ ∧
    period.ofString (47 :: text) = .ok ⟨0, 0, d⟩

theorem ne_zero_of_mem_fraction {s : List UInt8} {i : Nat} (h : IsFraction i s) {c : UInt8}
    (hc : c ∈ s) : c ≠ 0 := by
  induction s generalizing i with
  | nil => cases hc
  | cons d s ih =>
      obtain ⟨-, ⟨-, rfl, hs⟩ | ⟨hdigit, hs⟩⟩ := h
      · rcases List.mem_cons.mp hc with rfl | hc
        · decide
        · exact ih hs hc
      · rcases List.mem_cons.mp hc with rfl | hc
        · exact ne_zero_of_isDigit hdigit
        · exact ih hs hc

section Clock

variable {h1 h2 m1 m2 s1 s2 : UInt8} {fraction : List UInt8}

/-- What follows the hours counts the same behind any number of them. -/
theorem ClockText.readDuration (h : ClockText h1 h2 m1 m2 s1 s2 fraction) :
    ∃ x, 0 ≤ x ∧ x < 2 ^ 60 ∧
      ∀ n, readDuration 1 n (58 :: m1 :: m2 :: 58 :: s1 :: s2 :: fraction) =
        .ok ((n * (3600 * den) + x).bmod (2 ^ 64)) := by
  have hm1 := digitVal_bounds h.minutes.1
  have hm2 := digitVal_bounds h.minutes.2
  have hs1 := digitVal_bounds h.seconds.1
  have hs2 := digitVal_bounds h.seconds.2
  obtain ⟨x, hx, hx', hread⟩ : ∃ x, 0 ≤ x ∧ x ≤ 1000000000 ∧ ∀ d,
      readDecimals 1 d fraction = .ok ((d + x).bmod (2 ^ 64)) := by
    rcases h.fraction with rfl | ⟨ds, rfl, hds⟩
    · refine ⟨0, le_rfl, by decide, fun d => ?_⟩
      rw [readDecimals, one_mul, Int.add_zero]
    · obtain ⟨x, hx, hx', hread⟩ := readFraction_spec hds
      have hweight : weight 0 = 100000000 := by decide
      rw [hweight] at hread hx'
      refine ⟨x, hx, by omega, fun d => ?_⟩
      rw [readDecimals, if_neg (not_not.mpr rfl), hread]
      simp only [Except.map, one_mul]
  refine ⟨(digitVal m1 * 10 + digitVal m2) * (60 * den) + (digitVal s1 * 10 + digitVal s2) * den + x,
    by rw [den]; omega, by rw [den]; omega, fun n => ?_⟩
  rw [Tz.readDuration, readClock, if_neg (not_not.mpr rfl)]
  simp only [h.minutes.1, h.minutes.2, h.seconds.1, h.seconds.2, and_self, if_true, hread]
  have hsum : n * (3600 * den) + (digitVal m1 * 10 + digitVal m2) * (60 * den) +
      (digitVal s1 * 10 + digitVal s2) * den + x = n * (3600 * den) +
        ((digitVal m1 * 10 + digitVal m2) * (60 * den) + (digitVal s1 * 10 + digitVal s2) * den + x) := by
    ring
  rw [hsum]

theorem ClockText.ne_zero (h : ClockText h1 h2 m1 m2 s1 s2 fraction) {c : UInt8}
    (hc : c ∈ h1 :: h2 :: 58 :: m1 :: m2 :: 58 :: s1 :: s2 :: fraction) : c ≠ 0 := by
  have hfraction : c ∈ fraction → c ≠ 0 := by
    rcases h.fraction with rfl | ⟨ds, rfl, hds⟩
    · intro hc
      cases hc
    · intro hc
      rcases List.mem_cons.mp hc with rfl | hc
      · decide
      · exact ne_zero_of_mem_fraction hds hc
  simp only [List.mem_cons] at hc
  rcases hc with rfl | rfl | rfl | rfl | rfl | rfl | rfl | rfl | hc
  · exact ne_zero_of_isDigit h.hours.1
  · exact ne_zero_of_isDigit h.hours.2
  · decide
  · exact ne_zero_of_isDigit h.minutes.1
  · exact ne_zero_of_isDigit h.minutes.2
  · decide
  · exact ne_zero_of_isDigit h.seconds.1
  · exact ne_zero_of_isDigit h.seconds.2
  · exact hfraction hc

theorem getduration_clock {text : List UInt8} (h : ∀ c ∈ text, c ≠ 0) (c : UInt8) {d : Int}
    (hd : duration_from_string2 text = .ok d) : getduration ⟨0, 0, 0⟩ (c :: text) = .ok ⟨0, 0, d⟩ := by
  have htake : text.takeWhile (· ≠ 0) = text :=
    List.takeWhile_eq_self_iff.mpr fun c hc => decide_eq_true (h c hc)
  rw [getduration, List.tail_cons, htake, hd]

/-- Digits and what follows the hours are the duration of so many hours. -/
theorem duration_from_string2_digits {ds rest : List UInt8} (hne : ds ≠ [])
    (hds : ∀ c ∈ ds, isDigit c = true) (hrest : Stops rest) (hn : digitsVal 0 ds < 2 ^ 31) :
    duration_from_string2 (ds ++ rest) = Tz.readDuration 1 (digitsVal 0 ds : Int) rest := by
  have hsign : ¬(ds ++ rest).head? = some 45 := by
    cases ds with
    | nil => exact absurd rfl hne
    | cons c ds => exact fun h => ne_of_isDigit (hds c (.head _)) (by decide) (Option.some.inj h)
  rw [duration_from_string2, if_neg hsign]
  simp only [readNumber_digits hne hds hrest hn]

/-- The text alone loses the first digit of its hours. -/
theorem same_alone_iff (h : ClockText h1 h2 m1 m2 s1 s2 fraction) :
    SameAlone (h1 :: h2 :: 58 :: m1 :: m2 :: 58 :: s1 :: s2 :: fraction) ↔ h1 = 48 := by
  obtain ⟨x, hx, hx', hread⟩ := h.readDuration
  obtain ⟨hd1, hd2⟩ := h.hours
  have hb1 := isDigit_iff.mp hd1
  have hb2 := isDigit_iff.mp hd2
  have hstops : Stops (58 :: m1 :: m2 :: 58 :: s1 :: s2 :: fraction) := stops_cons (by decide) _
  have hval : digitsVal 0 [h1, h2] = 10 * (h1.toNat - 48) + (h2.toNat - 48) := by
    simp [digitsVal]
  have hval' : digitsVal 0 [h2] = h2.toNat - 48 := by
    simp [digitsVal]
  obtain ⟨both, hbothval, hboth⟩ : ∃ d, d = (10 * (h1.toNat - 48) + (h2.toNat - 48) : Nat) *
      (3600 * den) + x ∧
      duration_from_string2 (h1 :: h2 :: 58 :: m1 :: m2 :: 58 :: s1 :: s2 :: fraction) = .ok d := by
    have hdur := duration_from_string2_digits (List.cons_ne_nil h1 [h2]) (by simp [hd1, hd2]) hstops
      (by omega)
    rw [hread, hval, bmod_of_fits (by rw [den]; omega) (by rw [den]; omega)] at hdur
    exact ⟨_, rfl, hdur⟩
  obtain ⟨last, hlastval, hlast⟩ : ∃ d, d = (h2.toNat - 48 : Nat) * (3600 * den) + x ∧
      duration_from_string2 (h2 :: 58 :: m1 :: m2 :: 58 :: s1 :: s2 :: fraction) = .ok d := by
    have hdur := duration_from_string2_digits (List.cons_ne_nil h2 []) (by simp [hd2]) hstops
      (by omega)
    rw [hread, hval', bmod_of_fits (by rw [den]; omega) (by rw [den]; omega)] at hdur
    exact ⟨_, rfl, hdur⟩
  have hslash : period.ofString (47 :: h1 :: h2 :: 58 :: m1 :: m2 :: 58 :: s1 :: s2 :: fraction) =
      .ok ⟨0, 0, both⟩ := by
    rw [period.ofString, if_pos]
    · exact getduration_clock (fun c => h.ne_zero) 47 hboth
    · exact Or.inl rfl
  have halone : period.ofString (h1 :: h2 :: 58 :: m1 :: m2 :: 58 :: s1 :: s2 :: fraction) =
      .ok ⟨0, 0, last⟩ := by
    rw [period.ofString, if_pos]
    · exact getduration_clock (fun c hc => h.ne_zero (.tail _ hc)) h1 hlast
    · exact Or.inr rfl
  rw [SameAlone, hboth, hslash, halone]
  rw [den] at hbothval hlastval
  constructor
  · rintro ⟨d, hd, hd', -⟩
    obtain rfl := Except.ok.inj hd
    have heq : last = both := congrArg period.dur (Except.ok.inj hd')
    have hzero : h1.toNat = 48 := by omega
    exact UInt8.toNat_inj.mp hzero
  · rintro rfl
    have hzero : (48 : UInt8).toNat = 48 := rfl
    have heq : last = both := by omega
    exact ⟨both, rfl, by rw [heq], rfl⟩

end Clock

/-- A minute and a nanosecond past midnight. -/
theorem same_alone_iff_midnight :
    SameAlone [48, 48, 58, 48, 49, 58, 48, 48, 46, 48, 48, 48, 95, 48, 48, 48, 95, 48, 48, 49] :=
  (same_alone_iff ⟨by decide, by decide, by decide, Or.inr ⟨_, rfl, by simp [IsFraction, isDigit]⟩⟩).mpr
    rfl

/-- `12:34:56` alone is two hours, and not twelve. -/
theorem not_same_alone : ¬∀ h1 h2 m1 m2 s1 s2 fraction, ClockText h1 h2 m1 m2 s1 s2 fraction →
    SameAlone (h1 :: h2 :: 58 :: m1 :: m2 :: 58 :: s1 :: s2 :: fraction) := by
  intro h
  obtain ⟨d, hd, halone, -⟩ := h 49 50 51 52 53 54 []
    ⟨by decide, by decide, by decide, Or.inl rfl⟩
  have htext : duration_from_string2 [49, 50, 58, 51, 52, 58, 53, 54] = .ok 45296000000000 := by
    decide
  have hperiod : period.ofString [49, 50, 58, 51, 52, 58, 53, 54] = .ok ⟨0, 0, 9296000000000⟩ := by
    decide
  rw [htext] at hd
  rw [hperiod] at halone
  cases hd
  cases halone

end Ztsdb.Tz
