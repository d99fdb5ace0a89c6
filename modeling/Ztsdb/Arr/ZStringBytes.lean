import Mathlib
import Ztsdb.Arr.Elements

/-!
# The bytes of a `ZString`

A `ZString` is its buffer of `STRING_SIZE` bytes, and the buffer starts out with whatever the
memory held. Most of the constructors, the assignment and `operator+` go through `strncpy` for
all bytes but the last, which writes a terminator only where the source ends before. The last
byte is then the one from before: the string is terminated when the source is short, or when
that byte happened to be zero.
-/

namespace Ztsdb.Arr.ZStringBytes

/-! ## The functions of the C library -/

/-- The bytes `strncpy` copies for a count of `n`: zeros after the terminator of the source.
None when it reads behind the source's memory. -/
def strncpyBytes : List UInt8 → Nat → Option (List UInt8)
  | _, 0 => some []
  | [], _ + 1 => none
  | c :: src, n + 1 =>
    if c = 0 then some (List.replicate (n + 1) 0) else (strncpyBytes src n).map (c :: ·)

/-- `strlen`, none without a terminator. -/
def strlen : List UInt8 → Option Nat
  | [] => none
  | c :: src => if c = 0 then some 0 else (strlen src).map (· + 1)

/-- `strncmp`, on unsigned bytes. -/
def strncmp : List UInt8 → List UInt8 → Nat → Ordering
  | a :: s, b :: t, n + 1 =>
    if a = b then if a = 0 then .eq else strncmp s t n else compare a b
  | _, _, _ => .eq

/-- The first `n` characters of `s`, with zeros up to `n`. -/
def padded (n : Nat) (s : List UInt8) : List UInt8 := s.take n ++ List.replicate (n - s.length) 0

@[simp] theorem length_padded (n : Nat) (s : List UInt8) : (padded n s).length = n := by
  rw [padded, List.length_append, List.length_take, List.length_replicate]
  omega

theorem padded_nil (n : Nat) : padded n [] = List.replicate n 0 := by
  rw [padded, List.take_nil, List.nil_append, List.length_nil, Nat.sub_zero]

theorem padded_succ_cons (n : Nat) (c : UInt8) (s : List UInt8) :
    padded (n + 1) (c :: s) = c :: padded n s := by
  rw [padded, padded, List.take_succ_cons, List.length_cons, Nat.add_sub_add_right,
    List.cons_append]

theorem padded_of_length_le {n : Nat} {s : List UInt8} (h : n ≤ s.length) :
    padded n s = s.take n := by
  rw [padded, Nat.sub_eq_zero_of_le h, List.replicate_zero, List.append_nil]

theorem padded_of_le_length {n : Nat} {s : List UInt8} (h : s.length ≤ n) :
    padded n s = s ++ List.replicate (n - s.length) 0 := by
  rw [padded, List.take_of_length_le h]

/-- Padding two strings joined pads the second one behind the first. -/
theorem padded_append {n : Nat} {s t : List UInt8} (h : s.length ≤ n) :
    padded n (s ++ t) = s ++ padded (n - s.length) t := by
  rw [padded, padded, List.take_append, List.take_of_length_le h, List.append_assoc,
    List.length_append, Nat.sub_sub]

theorem strncpyBytes_zero (src : List UInt8) : strncpyBytes src 0 = some [] := by
  cases src <;> rfl

theorem padded_zero (s : List UInt8) : padded 0 s = [] := by
  rw [padded, List.take_zero, Nat.zero_sub, List.replicate_zero, List.nil_append]

theorem strncpyBytes_cons {c : UInt8} (hc : c ≠ 0) (src : List UInt8) (n : Nat) :
    strncpyBytes (c :: src) (n + 1) = (strncpyBytes src n).map (c :: ·) := if_neg hc

theorem strncpyBytes_terminated {s : List UInt8} (hs : 0 ∉ s) (rest : List UInt8) (n : Nat) :
    strncpyBytes (s ++ 0 :: rest) n = some (padded n s) := by
  induction s generalizing n with
  | nil =>
      cases n with
      | zero => rw [strncpyBytes_zero, padded_zero]
      | succ n => rw [padded_nil]; rfl
  | cons c s ih =>
      cases n with
      | zero => rw [strncpyBytes_zero, padded_zero]
      | succ n =>
          have hc : c ≠ 0 := (List.ne_of_not_mem_cons hs).symm
          rw [List.cons_append, strncpyBytes_cons hc, ih (List.not_mem_of_not_mem_cons hs),
            padded_succ_cons, Option.map_some]

/-- A copy of a padded string that stays within the padding reads the string. -/
theorem strncpyBytes_padded {s : List UInt8} (hs : 0 ∉ s) (rest : List UInt8) {n m : Nat}
    (h : n ≤ m) : strncpyBytes (padded m s ++ rest) n = some (padded n s) := by
  induction s generalizing n m with
  | nil =>
      cases n with
      | zero => rw [strncpyBytes_zero, padded_zero]
      | succ n =>
          obtain ⟨m, rfl⟩ := Nat.exists_eq_succ_of_ne_zero (Nat.ne_of_gt (Nat.zero_lt_of_lt h))
          rw [padded_nil, padded_nil, List.replicate_succ, List.cons_append]
          rfl
  | cons c s ih =>
      cases n with
      | zero => rw [strncpyBytes_zero, padded_zero]
      | succ n =>
          obtain ⟨m, rfl⟩ := Nat.exists_eq_succ_of_ne_zero (Nat.ne_of_gt (Nat.zero_lt_of_lt h))
          have hc : c ≠ 0 := (List.ne_of_not_mem_cons hs).symm
          rw [padded_succ_cons, List.cons_append, strncpyBytes_cons hc,
            ih (List.not_mem_of_not_mem_cons hs) (Nat.le_of_succ_le_succ h), padded_succ_cons,
            Option.map_some]

theorem strlen_cons {c : UInt8} (hc : c ≠ 0) (src : List UInt8) :
    strlen (c :: src) = (strlen src).map (· + 1) := if_neg hc

theorem strlen_append {s : List UInt8} (hs : 0 ∉ s) (rest : List UInt8) :
    strlen (s ++ rest) = (strlen rest).map (s.length + ·) := by
  induction s with
  | nil => simp
  | cons c s ih =>
      have hc : c ≠ 0 := (List.ne_of_not_mem_cons hs).symm
      rw [List.cons_append, strlen_cons hc, ih (List.not_mem_of_not_mem_cons hs), Option.map_map,
        List.length_cons]
      congr 1
      funext k
      simp only [Function.comp_apply]
      omega

theorem strlen_terminated {s : List UInt8} (hs : 0 ∉ s) (rest : List UInt8) :
    strlen (s ++ 0 :: rest) = some s.length := by
  rw [strlen_append hs]
  rfl

/-- The order of two terminated strings is that of their texts. -/
theorem strncmp_terminated {s t : List UInt8} (hs : 0 ∉ s) (ht : 0 ∉ t) (r q : List UInt8)
    {n : Nat} (hn : s.length < n) :
    strncmp (s ++ 0 :: r) (t ++ 0 :: q) n = compare s t := by
  induction s generalizing t n with
  | nil =>
      obtain ⟨n, rfl⟩ := Nat.exists_eq_succ_of_ne_zero (Nat.ne_of_gt (Nat.zero_lt_of_lt hn))
      cases t with
      | nil => rfl
      | cons b t =>
          have hb : (0 : UInt8) ≠ b := List.ne_of_not_mem_cons ht
          have hlt : (0 : UInt8) < b := UInt8.pos_iff_ne_zero.mpr hb.symm
          show (if (0 : UInt8) = b then _ else compare 0 b) = _
          rw [if_neg hb, Std.compare_eq_lt.mpr hlt]
          rfl
  | cons a s ih =>
      obtain ⟨n, rfl⟩ := Nat.exists_eq_succ_of_ne_zero (Nat.ne_of_gt (Nat.zero_lt_of_lt hn))
      have ha : a ≠ 0 := (List.ne_of_not_mem_cons hs).symm
      cases t with
      | nil =>
          have hgt : (0 : UInt8) < a := UInt8.pos_iff_ne_zero.mpr ha
          show (if a = 0 then _ else compare a 0) = _
          rw [if_neg ha, Std.compare_eq_gt.mpr hgt]
          rfl
      | cons b t =>
          show (if a = b then if a = 0 then .eq else strncmp (s ++ 0 :: r) (t ++ 0 :: q) n
            else compare a b) = _
          rw [List.compare_cons_cons]
          by_cases hab : a = b
          · rw [if_pos hab, if_neg ha, ih (List.not_mem_of_not_mem_cons hs)
              (List.not_mem_of_not_mem_cons ht) (by simpa using hn), hab, Std.compare_eq_iff_eq.mpr rfl]
            rfl
          · rw [if_neg hab]
            have hne : compare a b ≠ .eq := fun he => hab (Std.compare_eq_iff_eq.mp he)
            cases hc : compare a b with
            | lt => rfl
            | gt => rfl
            | eq => exact absurd hc hne

/-! ## The constructors, the assignment and the concatenation -/

/-- `char v[S]`. -/
structure Buffer where
  bytes : List UInt8
  length_bytes : bytes.length = STRING_SIZE

/-- A source string: no zero byte in it. -/
structure Text where
  chars : List UInt8
  nonzero : 0 ∉ chars

/-- The bytes of a C string or of a `std::string`. -/
def Text.c_str (s : Text) : List UInt8 := s.chars ++ [0]

/-- The memory starts with the string and a terminator. -/
structure Holds (src s : List UInt8) : Prop where
  nonzero : 0 ∉ s
  terminated : s ++ [0] <+: src

/-- A `ZString` that is a source string. -/
structure Stored where
  v : Buffer
  chars : List UInt8
  holds : Holds v.bytes chars

namespace Buffer

/-- The bytes `bs` written from `k` on; none behind the end. -/
def write (v : Buffer) (k : Nat) (bs : List UInt8) : Option Buffer :=
  if h : k + bs.length ≤ STRING_SIZE then
    some ⟨v.bytes.take k ++ bs ++ v.bytes.drop (k + bs.length), by
      have hv := v.length_bytes
      simp only [List.length_append, List.length_take, List.length_drop]
      omega⟩
  else none

/-- `strncpy(&v[k], src, n)`. -/
def strncpy (v : Buffer) (k : Nat) (src : List UInt8) (n : Nat) : Option Buffer :=
  (strncpyBytes src n).bind (v.write k)

def length (v : Buffer) : Option Nat := strlen v.bytes

/-- `ZString()`. -/
def ctorDefault (old : Buffer) : Option Buffer := old.write 0 [0]

/-- `ZString(const char*)`. -/
def ctorChars (s : Text) (old : Buffer) : Option Buffer :=
  old.strncpy 0 s.c_str (STRING_SIZE - 1)

/-- `ZString(const char* s, const char* e)`: what lies between the two. -/
def ctorRange (s : Text) (old : Buffer) : Option Buffer :=
  (old.write 0 (s.chars.take (min s.chars.length (STRING_SIZE - 1)))).bind fun v =>
    v.write (min s.chars.length (STRING_SIZE - 1)) [0]

/-- `ZString(const std::string&)`. -/
def ctorString (s : Text) (old : Buffer) : Option Buffer :=
  old.strncpy 0 s.c_str (STRING_SIZE - 1)

/-- `ZString(const ZString&)`. -/
def ctorCopy (s old : Buffer) : Option Buffer := old.strncpy 0 s.bytes (STRING_SIZE - 1)

/-- `ZString(char c, size_t n)`. -/
def ctorFill (c : UInt8) (n : Nat) (old : Buffer) : Option Buffer :=
  (old.write 0 (List.replicate (min n (STRING_SIZE - 1)) c)).bind fun v =>
    v.write (min n (STRING_SIZE - 1)) [0]

/-- `operator=`, from another `ZString`. -/
def assign (v s : Buffer) : Option Buffer := v.strncpy 0 s.bytes (STRING_SIZE - 1)

/-- `operator+`; `old` is the storage of the result. -/
def add (s1 s2 old : Buffer) : Option Buffer :=
  (ctorCopy s1 old).bind fun s =>
    s.length.bind fun n => s.strncpy n s2.bytes (STRING_SIZE - n - 1)

/-- `operator+` with a C string on the right, made a `ZString` in the storage `tmp`. -/
def addChars (s1 : Buffer) (s2 : Text) (tmp old : Buffer) : Option Buffer :=
  (ctorChars s2 tmp).bind fun t => add s1 t old

def charsAdd (s1 : Text) (s2 tmp old : Buffer) : Option Buffer :=
  (ctorChars s1 tmp).bind fun t => add t s2 old

/-- `operator+` with a `std::string` on the right. -/
def addString (s1 : Buffer) (s2 : Text) (tmp old : Buffer) : Option Buffer :=
  (ctorString s2 tmp).bind fun t => add s1 t old

def stringAdd (s1 : Text) (s2 tmp old : Buffer) : Option Buffer :=
  (ctorString s1 tmp).bind fun t => add t s2 old

/-! The comparisons: `src` is another buffer or a C string. -/

def eq (v : Buffer) (src : List UInt8) : Bool := (strncmp v.bytes src STRING_SIZE).isEq
def ne (v : Buffer) (src : List UInt8) : Bool := (strncmp v.bytes src STRING_SIZE).isNe
def le (v : Buffer) (src : List UInt8) : Bool := (strncmp v.bytes src STRING_SIZE).isLE
def lt (v : Buffer) (src : List UInt8) : Bool := (strncmp v.bytes src STRING_SIZE).isLT
def ge (v : Buffer) (src : List UInt8) : Bool := (strncmp v.bytes src STRING_SIZE).isGE
def gt (v : Buffer) (src : List UInt8) : Bool := (strncmp v.bytes src STRING_SIZE).isGT

/-- The last byte is a zero. -/
def Zero (v : Buffer) : Prop := v.bytes.drop (STRING_SIZE - 1) = [0]

instance (v : Buffer) : Decidable v.Zero := inferInstanceAs (Decidable (_ = _))

end Buffer

/-- A constructor, the assignment or a concatenation, with its sources. -/
inductive Op where
  | default
  | chars (s : Text)
  | range (s : Text)
  | string (s : Text)
  | copy (s : Stored)
  | fill (c : UInt8) (hc : c ≠ 0) (n : Nat)
  | assign (s : Stored)
  | add (s1 s2 : Stored)
  | addChars (s1 : Stored) (s2 : Text) (tmp : Buffer)
  | charsAdd (s1 : Text) (s2 : Stored) (tmp : Buffer)
  | addString (s1 : Stored) (s2 : Text) (tmp : Buffer)
  | stringAdd (s1 : Text) (s2 : Stored) (tmp : Buffer)

namespace Op

/-- What the operation makes of the storage it writes. -/
def run : Op → Buffer → Option Buffer
  | default, old => Buffer.ctorDefault old
  | chars s, old => Buffer.ctorChars s old
  | range s, old => Buffer.ctorRange s old
  | string s, old => Buffer.ctorString s old
  | copy s, old => Buffer.ctorCopy s.v old
  | fill c _ n, old => Buffer.ctorFill c n old
  | assign s, old => old.assign s.v
  | add s1 s2, old => Buffer.add s1.v s2.v old
  | addChars s1 s2 tmp, old => Buffer.addChars s1.v s2 tmp old
  | charsAdd s1 s2 tmp, old => Buffer.charsAdd s1 s2.v tmp old
  | addString s1 s2 tmp, old => Buffer.addString s1.v s2 tmp old
  | stringAdd s1 s2 tmp, old => Buffer.stringAdd s1 s2.v tmp old

/-- The source string, or the two joined. -/
def source : Op → List UInt8
  | default => []
  | chars s => s.chars
  | range s => s.chars
  | string s => s.chars
  | copy s => s.chars
  | fill c _ n => List.replicate n c
  | assign s => s.chars
  | add s1 s2 => s1.chars ++ s2.chars
  | addChars s1 s2 _ => s1.chars ++ s2.chars
  | charsAdd s1 s2 _ => s1.chars ++ s2.chars
  | addString s1 s2 _ => s1.chars ++ s2.chars
  | stringAdd s1 s2 _ => s1.chars ++ s2.chars

/-- The constructors that write the terminator themselves. -/
def terminates : Op → Bool
  | default => true
  | range _ => true
  | fill _ _ _ => true
  | _ => false

end Op

/-- The comparisons of a buffer with the text `s` and a string `t` answer as `s` and `t` do. -/
structure Compares (v : Buffer) (src s t : List UInt8) : Prop where
  eq : v.eq src = true ↔ s = t
  ne : v.ne src = true ↔ s ≠ t
  le : v.le src = true ↔ s ≤ t
  lt : v.lt src = true ↔ s < t
  ge : v.ge src = true ↔ t ≤ s
  gt : v.gt src = true ↔ t < s

/-- What a source of any length should leave: its first characters, terminated, and the length
and the comparisons of these. -/
def Op.Meets (o : Op) (old : Buffer) : Prop :=
  let text := o.source.take (STRING_SIZE - 1)
  ∃ v, o.run old = some v ∧ Holds v.bytes text ∧ v.length = some text.length ∧
    ∀ src t, Holds src t → Compares v src text t

/-! ## What a held text determines -/

theorem Holds.exists_rest {src s : List UInt8} (h : Holds src s) : ∃ rest, src = s ++ 0 :: rest := by
  obtain ⟨rest, rfl⟩ := h.terminated
  exact ⟨rest, by rw [List.append_assoc, List.singleton_append]⟩

theorem Holds.strlen {src s : List UInt8} (h : Holds src s) : strlen src = some s.length := by
  obtain ⟨rest, rfl⟩ := h.exists_rest
  exact strlen_terminated h.nonzero rest

theorem Holds.lt_length {src s : List UInt8} (h : Holds src s) : s.length < src.length := by
  obtain ⟨rest, rfl⟩ := h.exists_rest
  simp

theorem Holds.strncmp {src s src' t : List UInt8} (h : Holds src s) (h' : Holds src' t) {n : Nat}
    (hn : s.length < n) : strncmp src src' n = compare s t := by
  obtain ⟨rest, rfl⟩ := h.exists_rest
  obtain ⟨rest', rfl⟩ := h'.exists_rest
  exact strncmp_terminated h.nonzero h'.nonzero rest rest' hn

theorem compare_lt_iff_lt (s t : List UInt8) : compare s t = .lt ↔ s < t := by
  induction s generalizing t with
  | nil =>
      cases t with
      | nil => decide
      | cons b t => exact iff_of_true rfl (List.nil_lt_cons b t)
  | cons a s ih =>
      cases t with
      | nil => exact iff_of_false Ordering.noConfusion (List.not_lt_nil _)
      | cons b t =>
          rw [List.compare_cons_cons, Ordering.then_eq_lt, Std.compare_eq_lt,
            Std.compare_eq_iff_eq, ih, List.cons_lt_cons_iff]

theorem compare_gt_iff_lt (s t : List UInt8) : compare s t = .gt ↔ t < s := by
  rw [Std.OrientedCmp.gt_iff_lt, compare_lt_iff_lt]

theorem Holds.compares {v : Buffer} {s src t : List UInt8} (h : Holds v.bytes s)
    (h' : Holds src t) : Compares v src s t := by
  have hn : s.length < STRING_SIZE := v.length_bytes ▸ h.lt_length
  have hc := h.strncmp h' hn
  constructor
  · rw [Buffer.eq, hc, Ordering.isEq_iff_eq_eq, Std.compare_eq_iff_eq]
  · rw [Buffer.ne, hc, Ordering.isNe_iff_ne_eq, Ne, Std.compare_eq_iff_eq]
  · rw [Buffer.le, hc, Ordering.isLE_iff_ne_gt, compare_gt_iff_lt, List.not_lt]
  · rw [Buffer.lt, hc, Ordering.isLT_iff_eq_lt, compare_lt_iff_lt]
  · rw [Buffer.ge, hc, Ordering.isGE_iff_ne_lt, compare_lt_iff_lt, List.not_lt]
  · rw [Buffer.gt, hc, Ordering.isGT_iff_eq_gt, compare_gt_iff_lt]

theorem Op.meets_iff_holds {o : Op} {old : Buffer} :
    o.Meets old ↔ ∃ v, o.run old = some v ∧ Holds v.bytes (o.source.take (STRING_SIZE - 1)) := by
  constructor
  · rintro ⟨v, hrun, hv, -⟩
    exact ⟨v, hrun, hv⟩
  · rintro ⟨v, hrun, hv⟩
    exact ⟨v, hrun, hv, hv.strlen, fun _ _ h' => hv.compares h'⟩

/-- The text of the buffer, as an element of an array has it. -/
theorem Holds.ofBuffer {v : Buffer} {s : List UInt8} (h : Holds v.bytes s) :
    (ZString.ofBuffer v.bytes).chars = s := by
  show (v.bytes.take STRING_SIZE).takeWhile (· != 0) = s
  rw [List.take_of_length_le v.length_bytes.le]
  obtain ⟨rest, hrest⟩ := h.exists_rest
  have hall : ∀ c ∈ s, (c != 0) = true := fun c hc =>
    bne_iff_ne.mpr fun h0 => h.nonzero (h0 ▸ hc)
  rw [hrest, List.takeWhile_append_of_pos hall]
  simp

/-! ## What the operations leave -/

theorem STRING_SIZE_pos : 0 < STRING_SIZE := by decide

namespace Buffer

theorem write_spec (v : Buffer) (k : Nat) (bs : List UInt8) (h : k + bs.length ≤ STRING_SIZE) :
    ∃ v', v.write k bs = some v' ∧ v'.bytes = v.bytes.take k ++ bs ++ v.bytes.drop (k + bs.length) :=
  ⟨_, dif_pos h, rfl⟩

theorem eq_of_bytes {v w : Buffer} (h : v.bytes = w.bytes) : v = w := by
  cases v
  cases w
  simp only [mk.injEq]
  exact h

/-- A terminator behind a text that the buffer starts with. -/
theorem holds_write_zero {v : Buffer} {t : List UInt8} (h0 : 0 ∉ t) (ht : t <+: v.bytes)
    (hlt : t.length < STRING_SIZE) : ∃ v', v.write t.length [0] = some v' ∧ Holds v'.bytes t := by
  obtain ⟨v', hv', hbytes⟩ := v.write_spec t.length [0] hlt
  refine ⟨v', hv', h0, ?_⟩
  rw [hbytes, List.prefix_iff_eq_take.mp ht |>.symm]
  exact List.prefix_append _ _

/-- A text and its terminator, one write after the other. -/
theorem holds_write_text (old : Buffer) {t : List UInt8} (h0 : 0 ∉ t)
    (hlt : t.length < STRING_SIZE) :
    ∃ v, ((old.write 0 t).bind fun v => v.write t.length [0]) = some v ∧ Holds v.bytes t := by
  obtain ⟨v, hv, hbytes⟩ := old.write_spec 0 t (by omega)
  have ht : t <+: v.bytes := by
    rw [hbytes, List.take_zero, List.nil_append]
    exact List.prefix_append _ _
  obtain ⟨v', hv', hholds⟩ := holds_write_zero h0 ht hlt
  exact ⟨v', by rw [hv, Option.bind_some, hv'], hholds⟩

/-- The storage `old` with the first characters of `s` in all bytes but the last. -/
def loaded (s : List UInt8) (old : Buffer) : Buffer where
  bytes := padded (STRING_SIZE - 1) s ++ old.bytes.drop (STRING_SIZE - 1)
  length_bytes := by
    have hpos := STRING_SIZE_pos
    rw [List.length_append, length_padded, List.length_drop, old.length_bytes]
    omega

theorem bytes_loaded (s : List UInt8) (old : Buffer) :
    (old.loaded s).bytes = padded (STRING_SIZE - 1) s ++ old.bytes.drop (STRING_SIZE - 1) := rfl

theorem exists_last (old : Buffer) : ∃ c, old.bytes.drop (STRING_SIZE - 1) = [c] := by
  have hpos := STRING_SIZE_pos
  rw [← List.length_eq_one_iff, List.length_drop, old.length_bytes]
  omega

/-- The storage decides over the terminator of a source that is not short. -/
theorem holds_loaded_iff {s : List UInt8} (h0 : 0 ∉ s) (old : Buffer) :
    Holds (old.loaded s).bytes (s.take (STRING_SIZE - 1)) ↔
      s.length < STRING_SIZE - 1 ∨ old.Zero := by
  have h0' : 0 ∉ s.take (STRING_SIZE - 1) := fun h => h0 (List.mem_of_mem_take h)
  by_cases hlt : s.length < STRING_SIZE - 1
  · refine iff_of_true ⟨h0', ?_⟩ (.inl hlt)
    rw [List.take_of_length_le hlt.le, bytes_loaded, padded_of_le_length hlt.le, List.append_assoc,
      List.prefix_append_right_inj, ← Nat.succ_pred_eq_of_pos (Nat.sub_pos_of_lt hlt),
      List.replicate_succ]
    exact List.prefix_append [0] _
  · have hbytes : (old.loaded s).bytes =
        s.take (STRING_SIZE - 1) ++ old.bytes.drop (STRING_SIZE - 1) := by
      rw [bytes_loaded, padded_of_length_le (Nat.le_of_not_lt hlt)]
    rw [or_iff_right hlt, Zero]
    constructor
    · rintro ⟨-, h⟩
      obtain ⟨c, hc⟩ := old.exists_last
      rw [hbytes, List.prefix_append_right_inj, hc] at h
      rw [hc, (h.eq_of_length rfl).symm]
    · intro h
      refine ⟨h0', ?_⟩
      rw [hbytes, h]

theorem length_loaded_of_lt {s : List UInt8} (h0 : 0 ∉ s) (old : Buffer)
    (hlt : s.length < STRING_SIZE - 1) : (old.loaded s).length = some s.length := by
  have h := (holds_loaded_iff h0 old).mpr (.inl hlt)
  rw [List.take_of_length_le hlt.le] at h
  exact h.strlen

theorem length_loaded_of_zero {s : List UInt8} (h0 : 0 ∉ s) (old : Buffer)
    (hle : STRING_SIZE - 1 ≤ s.length) (hz : old.Zero) :
    (old.loaded s).length = some (STRING_SIZE - 1) := by
  have h := ((holds_loaded_iff h0 old).mpr (.inr hz)).strlen
  rw [List.length_take, Nat.min_eq_left hle] at h
  exact h

/-- Without a terminator `strlen` reads on behind the buffer. -/
theorem length_loaded_eq_none {s : List UInt8} (h0 : 0 ∉ s) (old : Buffer)
    (hle : STRING_SIZE - 1 ≤ s.length) (hz : ¬ old.Zero) : (old.loaded s).length = none := by
  obtain ⟨c, hc⟩ := old.exists_last
  have hne : c ≠ 0 := fun h => hz (by rw [Zero, hc, h])
  have h0' : 0 ∉ s.take (STRING_SIZE - 1) := fun h => h0 (List.mem_of_mem_take h)
  rw [length, bytes_loaded, padded_of_length_le hle, hc, strlen_append h0', strlen_cons hne]
  rfl

/-- `strncpy` finds the text `s` in `src` for every count up to the one the class uses. -/
def Reads (src s : List UInt8) : Prop :=
  ∀ n ≤ STRING_SIZE - 1, strncpyBytes src n = some (padded n s)

theorem reads_holds {src s : List UInt8} (h : Holds src s) : Reads src s := by
  obtain ⟨rest, rfl⟩ := h.exists_rest
  exact fun n _ => strncpyBytes_terminated h.nonzero rest n

theorem reads_c_str (s : Text) : Reads s.c_str s.chars :=
  fun n _ => strncpyBytes_terminated s.nonzero [] n

theorem reads_loaded {s : List UInt8} (h0 : 0 ∉ s) (old : Buffer) : Reads (old.loaded s).bytes s :=
  fun _ hn => strncpyBytes_padded h0 _ hn

theorem strncpy_loaded {src s : List UInt8} (h : Reads src s) (old : Buffer) :
    old.strncpy 0 src (STRING_SIZE - 1) = some (old.loaded s) := by
  obtain ⟨v, hv, hbytes⟩ :=
    old.write_spec 0 (padded (STRING_SIZE - 1) s) (by rw [length_padded]; omega)
  rw [strncpy, h _ le_rfl, Option.bind_some, hv]
  refine congrArg some (eq_of_bytes ?_)
  rw [hbytes, List.take_zero, List.nil_append, length_padded, Nat.zero_add, bytes_loaded]

/-- The second string of a concatenation goes behind the first. -/
theorem strncpy_behind {s src t : List UInt8} (h : Reads src t) (old : Buffer)
    (hlt : s.length < STRING_SIZE - 1) :
    (old.loaded s).strncpy s.length src (STRING_SIZE - s.length - 1) =
      some (old.loaded (s ++ t)) := by
  obtain ⟨v, hv, hbytes⟩ := (old.loaded s).write_spec s.length
    (padded (STRING_SIZE - s.length - 1) t) (by rw [length_padded]; omega)
  rw [strncpy, h _ (by omega), Option.bind_some, hv]
  refine congrArg some (eq_of_bytes ?_)
  have hsum : s.length + (STRING_SIZE - s.length - 1) = STRING_SIZE - 1 := by omega
  have htake : (padded (STRING_SIZE - 1) s).take s.length = s := by
    rw [padded_of_le_length hlt.le, List.take_left]
  rw [hbytes, length_padded, hsum, bytes_loaded, bytes_loaded, padded_append hlt.le, Nat.sub_right_comm,
    List.take_append_of_le_length (by rw [length_padded]; omega), htake,
    List.drop_left' (length_padded _ _)]

/-- Nothing is left to copy behind a first string of full length. -/
theorem strncpy_full {s src t : List UInt8} (old : Buffer) (hle : STRING_SIZE - 1 ≤ s.length) :
    (old.loaded s).strncpy (STRING_SIZE - 1) src (STRING_SIZE - (STRING_SIZE - 1) - 1) =
      some (old.loaded (s ++ t)) := by
  have hpos := STRING_SIZE_pos
  have hn : STRING_SIZE - (STRING_SIZE - 1) - 1 = 0 := by omega
  obtain ⟨v, hv, hbytes⟩ :=
    (old.loaded s).write_spec (STRING_SIZE - 1) [] (Nat.sub_le _ _)
  rw [hn, strncpy, strncpyBytes_zero, Option.bind_some, hv]
  refine congrArg some (eq_of_bytes ?_)
  rw [hbytes, List.append_nil, List.length_nil, Nat.add_zero, List.take_append_drop, bytes_loaded,
    bytes_loaded, padded_of_length_le hle,
    padded_of_length_le (hle.trans (by rw [List.length_append]; omega)),
    List.take_append_of_le_length hle]

variable {a b : Buffer} {s t : List UInt8}

theorem ctorCopy_eq (h : Reads a.bytes s) (old : Buffer) : ctorCopy a old = some (old.loaded s) :=
  strncpy_loaded h old

theorem add_eq_some (ha : Reads a.bytes s) (hb : Reads b.bytes t) (h0 : 0 ∉ s) {old : Buffer}
    (h : s.length < STRING_SIZE - 1 ∨ old.Zero) : add a b old = some (old.loaded (s ++ t)) := by
  rw [add, ctorCopy_eq ha, Option.bind_some]
  by_cases hlt : s.length < STRING_SIZE - 1
  · rw [length_loaded_of_lt h0 old hlt, Option.bind_some, strncpy_behind hb old hlt]
  · have hle := Nat.le_of_not_lt hlt
    rw [length_loaded_of_zero h0 old hle (h.resolve_left hlt), Option.bind_some,
      strncpy_full old hle]

theorem add_eq_none (ha : Reads a.bytes s) (h0 : 0 ∉ s) {old : Buffer}
    (h : ¬ (s.length < STRING_SIZE - 1 ∨ old.Zero)) : add a b old = none := by
  obtain ⟨hlt, hz⟩ := not_or.mp h
  rw [add, ctorCopy_eq ha, Option.bind_some,
    length_loaded_eq_none h0 old (Nat.le_of_not_lt hlt) hz, Option.bind_none]

/-- A concatenation leaves the two strings joined or has read behind the buffer. -/
theorem add_holds_iff (ha : Reads a.bytes s) (hb : Reads b.bytes t) (hs : 0 ∉ s) (ht : 0 ∉ t)
    (old : Buffer) :
    (∃ v, add a b old = some v ∧ Holds v.bytes ((s ++ t).take (STRING_SIZE - 1))) ↔
      (s ++ t).length < STRING_SIZE - 1 ∨ old.Zero := by
  have hst : 0 ∉ s ++ t := fun h => (List.mem_append.mp h).elim hs ht
  by_cases h : s.length < STRING_SIZE - 1 ∨ old.Zero
  · rw [add_eq_some ha hb hs h]
    simp only [Option.some.injEq, exists_eq_left']
    exact holds_loaded_iff hst old
  · refine iff_of_false ?_ fun hor => h (hor.imp_left fun hlt => ?_)
    · rw [add_eq_none ha hs h]
      rintro ⟨v, hv, -⟩
      cases hv
    · rw [List.length_append] at hlt
      omega

/-- A bounded copy leaves the source or lacks the terminator. -/
theorem strncpy_holds_iff {src : List UInt8} (h : Reads src s) (hs : 0 ∉ s) (old : Buffer) :
    (∃ v, old.strncpy 0 src (STRING_SIZE - 1) = some v ∧
        Holds v.bytes (s.take (STRING_SIZE - 1))) ↔
      s.length < STRING_SIZE - 1 ∨ old.Zero := by
  rw [strncpy_loaded h old]
  simp only [Option.some.injEq, exists_eq_left']
  exact holds_loaded_iff hs old

/-! A temporary made for a concatenation is read up to its last byte only. -/

theorem addChars_eq (v : Buffer) (s : Text) (tmp old : Buffer) :
    addChars v s tmp old = add v (tmp.loaded s.chars) old := by
  rw [addChars, ctorChars, strncpy_loaded (reads_c_str s), Option.bind_some]

theorem charsAdd_eq (s : Text) (v tmp old : Buffer) :
    charsAdd s v tmp old = add (tmp.loaded s.chars) v old := by
  rw [charsAdd, ctorChars, strncpy_loaded (reads_c_str s), Option.bind_some]

theorem addString_eq (v : Buffer) (s : Text) (tmp old : Buffer) :
    addString v s tmp old = add v (tmp.loaded s.chars) old := by
  rw [addString, ctorString, strncpy_loaded (reads_c_str s), Option.bind_some]

theorem stringAdd_eq (s : Text) (v tmp old : Buffer) :
    stringAdd s v tmp old = add (tmp.loaded s.chars) v old := by
  rw [stringAdd, ctorString, strncpy_loaded (reads_c_str s), Option.bind_some]

theorem ctorRange_holds (s : Text) (old : Buffer) :
    ∃ v, ctorRange s old = some v ∧ Holds v.bytes (s.chars.take (STRING_SIZE - 1)) := by
  have hpos := STRING_SIZE_pos
  have hlen : (s.chars.take (min s.chars.length (STRING_SIZE - 1))).length =
      min s.chars.length (STRING_SIZE - 1) := by
    rw [List.length_take]
    omega
  have h := holds_write_text old (t := s.chars.take (min s.chars.length (STRING_SIZE - 1)))
    (fun h => s.nonzero (List.mem_of_mem_take h)) (by omega)
  rw [hlen] at h
  rw [ctorRange]
  rwa [Nat.min_comm, ← List.take_eq_take_min] at h ⊢

theorem ctorFill_holds {c : UInt8} (hc : c ≠ 0) (n : Nat) (old : Buffer) :
    ∃ v, ctorFill c n old = some v ∧
      Holds v.bytes ((List.replicate n c).take (STRING_SIZE - 1)) := by
  have hpos := STRING_SIZE_pos
  have h := holds_write_text old (t := List.replicate (min n (STRING_SIZE - 1)) c)
    (fun h => hc (List.eq_of_mem_replicate h).symm) (by rw [List.length_replicate]; omega)
  rw [List.length_replicate] at h
  rwa [List.take_replicate, Nat.min_comm, ctorFill]

theorem ctorDefault_holds (old : Buffer) : ∃ v, ctorDefault old = some v ∧ Holds v.bytes [] :=
  holds_write_zero List.not_mem_nil List.nil_prefix STRING_SIZE_pos

end Buffer

/-! ## Every operation -/

open Buffer

theorem Op.holds_of_terminates {o : Op} (h : o.terminates = true) (old : Buffer) :
    ∃ v, o.run old = some v ∧ Holds v.bytes (o.source.take (STRING_SIZE - 1)) := by
  cases o with
  | default => exact ctorDefault_holds old
  | range s => exact ctorRange_holds s old
  | fill c hc n => exact ctorFill_holds hc n old
  | _ => exact absurd h Bool.false_ne_true

theorem Op.holds_iff_of_not_terminates {o : Op} (h : o.terminates = false) (old : Buffer) :
    (∃ v, o.run old = some v ∧ Holds v.bytes (o.source.take (STRING_SIZE - 1))) ↔
      o.source.length < STRING_SIZE - 1 ∨ old.Zero := by
  cases o with
  | default => exact absurd h.symm Bool.false_ne_true
  | range s => exact absurd h.symm Bool.false_ne_true
  | fill c hc n => exact absurd h.symm Bool.false_ne_true
  | chars s => exact strncpy_holds_iff (reads_c_str s) s.nonzero old
  | string s => exact strncpy_holds_iff (reads_c_str s) s.nonzero old
  | copy s => exact strncpy_holds_iff (reads_holds s.holds) s.holds.nonzero old
  | assign s => exact strncpy_holds_iff (reads_holds s.holds) s.holds.nonzero old
  | add s1 s2 =>
      exact add_holds_iff (reads_holds s1.holds) (reads_holds s2.holds) s1.holds.nonzero
        s2.holds.nonzero old
  | addChars s1 s2 tmp =>
      simp only [run, addChars_eq]
      exact add_holds_iff (reads_holds s1.holds) (reads_loaded s2.nonzero tmp) s1.holds.nonzero
        s2.nonzero old
  | charsAdd s1 s2 tmp =>
      simp only [run, charsAdd_eq]
      exact add_holds_iff (reads_loaded s1.nonzero tmp) (reads_holds s2.holds) s1.nonzero
        s2.holds.nonzero old
  | addString s1 s2 tmp =>
      simp only [run, addString_eq]
      exact add_holds_iff (reads_holds s1.holds) (reads_loaded s2.nonzero tmp) s1.holds.nonzero
        s2.nonzero old
  | stringAdd s1 s2 tmp =>
      simp only [run, stringAdd_eq]
      exact add_holds_iff (reads_loaded s1.nonzero tmp) (reads_holds s2.holds) s1.nonzero
        s2.holds.nonzero old

/-- The first characters of the source are there, terminated, exactly when the operation writes
the terminator itself, or the source ends before the last byte, or the storage had a zero
there. -/
theorem meets_iff (o : Op) (old : Buffer) :
    o.Meets old ↔
      o.terminates = true ∨ o.source.length < STRING_SIZE - 1 ∨ old.Zero := by
  rw [Op.meets_iff_holds]
  cases h : o.terminates with
  | true => exact iff_of_true (Op.holds_of_terminates h old) (.inl rfl)
  | false =>
      rw [Op.holds_iff_of_not_terminates h old]
      exact (or_iff_right Bool.false_ne_true).symm

/-- A source one character short of the buffer, in memory that held no zero. -/
theorem not_meets_full : ¬ ∀ (o : Op) (old : Buffer), o.Meets old := by
  intro h
  have hfull := h (.chars ⟨List.replicate 127 97, by simp⟩)
    ⟨List.replicate 128 1, List.length_replicate⟩
  rw [Op.meets_iff_holds, Op.holds_iff_of_not_terminates rfl, Buffer.Zero,
    List.drop_replicate] at hfull
  rcases hfull with hlt | hzero
  · rw [Op.source, List.length_replicate] at hlt
    exact absurd hlt (by decide)
  · exact absurd hzero (by decide)

end Ztsdb.Arr.ZStringBytes
