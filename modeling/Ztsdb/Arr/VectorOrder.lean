import Mathlib
import Ztsdb.Arr.VectorSize

/-!
# The ordered flag over the life of a vector

Every operation keeps the flag with a check of its own: against the element
before, against both neighbours, for the whole vector, or by giving it up. What
they have in common is one direction: where the flag is true, no element is
smaller than the one before it. The other direction fails by design (a write
through an iterator clears the flag for good), and so does strictness (`sort`
sets it with equal neighbours).

`Reach` are the vectors that a sequence of operations can leave, each returning
normally; a buffer that is appended is one that such a vector wrote.
-/

namespace Ztsdb.Arr

open Ztsdb.Lib

/-! ## The comparator -/

section Comparator

variable {α : Type} (O : α → α → Bool)

/-- No element is smaller than the one before it. -/
def NoneSmaller (l : List α) : Prop := l.IsChain (fun a b => O b a = false)

variable [IsStrictWeakOrder α (fun a b => O a b = true)]

theorem not_smaller_of_less {a b : α} (h : O a b = true) : O b a = false := by
  rw [Bool.eq_false_iff]
  exact asymm_of (fun a b => O a b = true) h

theorem not_less_self (a : α) : O a a = false := by
  rw [Bool.eq_false_iff]
  exact irrefl_of (fun a b => O a b = true) a

theorem noneSmaller_of_adjacent {l : List α} (h : adjacent O l = true) : NoneSmaller O l :=
  (adjacent_iff.1 h).imp fun _ _ hab => not_smaller_of_less O hab

theorem noneSmaller_replicate (n : Nat) (value : α) :
    NoneSmaller O (List.replicate n value) := by
  rw [NoneSmaller, List.isChain_iff_getElem]
  intro i hi
  rw [List.getElem_replicate, List.getElem_replicate]
  exact not_less_self O value

theorem noneSmaller_append {l l' : List α} (hl : NoneSmaller O l) (hl' : NoneSmaller O l')
    (hs : seam O l l' = true) : NoneSmaller O (l ++ l') :=
  isChain_append_of_seam (fun _ _ h => not_smaller_of_less O h) hl hl' hs

/-- A write that fits the element before, in a list sorted up to there. -/
theorem noneSmaller_take_set {l : List α} {i : Nat} {t : α} (hi : i < l.length)
    (hl : NoneSmaller O (l.take i)) (hb : before O l i t = true) :
    NoneSmaller O ((l.set i t).take (i + 1)) := by
  have htake : (l.set i t).take (i + 1) = l.take i ++ [t] := by
    rw [List.take_succ_eq_append_getElem (by rw [List.length_set]; exact hi),
      List.getElem_set_self, List.take_set_of_le (Nat.le_refl i)]
  rw [htake]
  refine noneSmaller_append O hl (List.isChain_singleton t) ?_
  simp only [seam, List.head?_cons, List.length_take, Nat.min_eq_left hi.le]
  cases i with
  | zero => rfl
  | succ j =>
      have hj : l[j]? = some l[j] := List.getElem?_eq_getElem (by omega)
      rw [before_succ hj] at hb
      rw [before_succ (by rw [List.getElem?_take_of_lt (by omega)]; exact hj)]
      exact hb

/-- A merge sort keeps what `std::sort` promises. -/
def mergeStdSort : StdSort O where
  run l := l.mergeSort fun a b => !O b a
  perm l := List.mergeSort_perm l _
  sorted l := by
    have htrans (a b c : α) (hab : (!O b a) = true) (hbc : (!O c b) = true) :
        (!O c a) = true := by
      rw [Bool.not_eq_true'] at hab hbc ⊢
      rw [Bool.eq_false_iff] at hab hbc ⊢
      intro hca
      by_cases h : O a b = true
      · exact hbc (trans_of (fun a b => O a b = true) hca h)
      · by_cases h' : O b c = true
        · exact hab (trans_of (fun a b => O a b = true) h' hca)
        · have hsw : IsStrictWeakOrder α (fun a b => O a b = true) := inferInstance
          exact (hsw.incomp_trans a b c ⟨h, hab⟩ ⟨h', hbc⟩).2 hca
    have htotal (a b : α) : ((!O b a) || (!O a b)) = true := by
      by_cases h : O a b = true
      · rw [not_smaller_of_less O h]
        rfl
      · rw [Bool.eq_false_iff.2 h]
        exact Bool.or_true _
    refine (List.pairwise_mergeSort htrans htotal l).imp fun h => ?_
    rwa [Bool.not_eq_true'] at h

end Comparator

namespace Vector

variable {T : Type} [Raw T] (O : T → T → Bool)

/-- A true flag means that no element is smaller than the one before it. -/
def FlagOk (s : Vector T) : Prop := s.ordered = true → NoneSmaller O s.v

/-- The elements lie in a block of addressable size. -/
def Small (s : Vector T) : Prop :=
  s.block < 2 ^ 64 ∧ sizeofRawVector + s.size * Flat.width T < 2 ^ 64

/-- The vectors left by a sequence of operations that all returned. -/
inductive Reach : Vector T → Prop
  | fill {n value alloc s} : ofFill O n value alloc = .ok s () → Reach s
  | rsv {n alloc s} : ofRsv n alloc = .ok s () → Reach s
  | range {l alloc s} : ofRange O l alloc = .ok s () → Reach s
  | list {l alloc s} : ofList O l alloc = .ok s () → Reach s
  | copy {s alloc s'} : Reach s → Vector.copy s alloc = .ok s' () → Reach s'
  | push_back {x s s'} : Reach s → Vector.push_back O x s = .ok () s' → Reach s'
  | setv {i t s s'} : Reach s → Vector.setv O i t s = .ok () s' → Reach s'
  | writeIter {i x s s'} : Reach s → Vector.writeIter i x s = .ok () s' → Reach s'
  | erase {position s s'} : Reach s → Vector.erase position s = .ok () s' → Reach s'
  | eraseRange {first last s s'} :
      Reach s → Vector.eraseRange first last s = .ok () s' → Reach s'
  | shrink {n frm s s'} :
      Reach s → frm + n ≤ s.size → Vector.resize n frm s = .ok () s' → Reach s'
  | init {count value s s'} :
      Reach s → Vector.init O count value s = .ok () s' → Reach s'
  | apply {U : Type} {F : T → U → T} {u s s'} :
      Reach s → Vector.apply O F u s = .ok () s' → Reach s'
  | apply_scalar_post {U : Type} {F : T → U → T} {u : U} {s s'} :
      Reach s → Vector.apply_scalar_post O F u s = .ok () s' → Reach s'
  | append {y s rest len k s'} :
      Reach y → Reach s → Vector.append O (y.toBuffer ++ rest) len s = .ok k s' → Reach s'
  | sort {S : StdSort O} {s} : Reach s → Reach (Vector.sort O S s)
  | check {s} : Reach s → Reach (Vector.checkAndSetOrdered O s)

/-! ## What one operation preserves -/

/-- What every step keeps. -/
structure Good (s : Vector T) : Prop where
  flag : FlagOk O s
  small : s.Small

theorem getTotalSize_lt (sz n : Nat) : getTotalSize sz n < 2 ^ 64 := by
  rw [getTotalSize]
  split
  · simp [sizeMax]
  · exact wrap_lt _

theorem memsize_lt (sz n : Nat) : memsize sz n < 2 ^ 64 := wrap_lt _

theorem small_of_fits {s : Vector T} (hblock : s.block < 2 ^ 64) (hfit : s.Fits s.size) :
    s.Small := by
  rw [Fits] at hfit
  exact ⟨hblock, by omega⟩

theorem construct_good {what : String} {alloc : Option Allocator} {capacity : Nat}
    {elts : Allocator → List T} {ordered : Bool} {s : Vector T} {u : Unit}
    (h : construct what alloc capacity elts ordered = .ok s u)
    (hord : ordered = true → ∀ a, NoneSmaller O (elts a)) : Good O s := by
  obtain ⟨a, -, hfit, rfl⟩ := construct_eq_ok h
  exact ⟨fun ho => hord ho a, small_of_fits (getTotalSize_lt _ _) hfit⟩

/-- A resize to no more elements than there are after the dropped ones. -/
theorem resize_good {n frm : Nat} {s s' : Vector T} {u : Unit} (hs : Good O s)
    (hle : frm + n ≤ s.size) (h : s.resize n frm = .ok u s') : Good O s' := by
  rcases resize_eq_ok h with ⟨-, -, rfl⟩ | ⟨a, -, hfrm, rfl⟩
  · exact hs
  · have hkeep : redim a n (s.v.drop frm) = (s.v.drop frm).take n :=
      redim_of_le (by rw [List.length_drop, ← size]; omega)
    constructor
    · intro ho
      simp only [hkeep]
      exact ((hs.flag ho).drop frm).take n
    · refine ⟨memsize_lt _ _, ?_⟩
      have hlen := Nat.mul_le_mul_right (Flat.width T) (show n ≤ s.size by omega)
      have := hs.small.2
      rw [size, length_redim]
      omega

/-- A resize moves elements but never touches the flag. -/
theorem resize_ordered {n frm : Nat} {s s' : Vector T} {u : Unit}
    (h : s.resize n frm = .ok u s') : s'.ordered = s.ordered := by
  rcases resize_eq_ok h with ⟨-, -, rfl⟩ | ⟨a, -, -, rfl⟩
  · rfl
  · rfl

/-- A write that fits both neighbours. -/
theorem setv_good [IsStrictWeakOrder T (fun a b => O a b = true)] {i : Nat} {t : T}
    {s s' : Vector T} {u : Unit} (hs : Good O s) (h : Vector.setv O i t s = .ok u s') :
    Good O s' := by
  unfold Vector.setv at h
  split at h
  · cases h
  · next hi =>
      cases h
      refine ⟨?_, hs.small.1, by rw [size, List.length_set]; exact hs.small.2⟩
      intro ho
      simp only [Bool.and_eq_true] at ho
      obtain ⟨hflag, hb, ha⟩ := ho
      apply isChain_set (hs.flag hflag)
      · rintro j a rfl hj
        rw [before_succ hj] at hb
        exact not_smaller_of_less O hb
      · intro b hb'
        simp only [after, hb'] at ha
        exact not_smaller_of_less O ha

/-- A write through an iterator gives the flag up. -/
theorem writeIter_good {i : Nat} {x : T} {s s' : Vector T} {u : Unit} (hs : Good O s)
    (h : Vector.writeIter i x s = .ok u s') :
    Good O s' ∧ s'.ordered = false ∧ s'.size = s.size := by
  unfold Vector.writeIter at h
  split at h
  · cases h
    refine ⟨⟨fun ho => absurd ho Bool.false_ne_true, hs.small.1, ?_⟩, rfl, List.length_set⟩
    rw [size, List.length_set]
    exact hs.small.2
  · cases h

/-- The loop of `erase` either moves nothing or gives the flag up. -/
theorem moveDown_good {diff i k : Nat} {s s' : Vector T} {u : Unit} (hs : Good O s)
    (h : moveDown diff i k s = .ok u s') : Good O s' ∧ s'.size = s.size := by
  induction k generalizing i s with
  | zero =>
      cases h
      exact ⟨hs, rfl⟩
  | succ k ih =>
      rw [moveDown] at h
      split at h
      · next x hx =>
          obtain ⟨v, t, ht, hrest⟩ := Outcome.bind_eq_ok.1 h
          obtain ⟨hgood, -, hsize⟩ := writeIter_good O hs ht
          obtain ⟨hg, hsz⟩ := ih hgood hrest
          exact ⟨hg, hsz.trans hsize⟩
      · cases h

theorem erase_good {position : Nat} {s s' : Vector T} {u : Unit} (hs : Good O s)
    (h : Vector.erase position s = .ok u s') : Good O s' := by
  unfold Vector.erase at h
  split at h
  · obtain ⟨v, t, ht, hr⟩ := Outcome.bind_eq_ok.1 h
    obtain ⟨hg, hsize⟩ := moveDown_good O hs ht
    exact resize_good O hg (by omega) hr
  · cases h

theorem eraseRange_good {first last : Nat} {s s' : Vector T} {u : Unit} (hs : Good O s)
    (h : Vector.eraseRange first last s = .ok u s') : Good O s' := by
  unfold Vector.eraseRange at h
  split at h
  · obtain ⟨v, t, ht, hr⟩ := Outcome.bind_eq_ok.1 h
    obtain ⟨hg, hsize⟩ := moveDown_good O hs ht
    exact resize_good O hg (by omega) hr
  · cases h

/-- An element pushed behind a smaller one. -/
theorem place_good [IsStrictWeakOrder T (fun a b => O a b = true)] {x : T}
    {s s' : Vector T} {u : Unit} (hflag : FlagOk O s) (hblock : s.block < 2 ^ 64)
    (h : place O x s = .ok u s') : Good O s' := by
  unfold place at h
  split at h
  · next hfit =>
      cases h
      refine ⟨?_, small_of_fits hblock ?_⟩
      · intro ho
        simp only at ho
        split at ho
        · rw [Bool.and_eq_true] at ho
          exact noneSmaller_append O (hflag ho.1) (List.isChain_singleton x) ho.2
        · next h0 =>
            have hnil : s.v = [] := List.eq_nil_of_length_eq_zero (by rw [← size]; omega)
            simp only [hnil, List.nil_append]
            exact List.isChain_singleton x
      · rw [Fits, size, List.length_append, List.length_singleton]
        exact hfit
  · cases h

theorem push_back_good [IsStrictWeakOrder T (fun a b => O a b = true)] {x : T}
    {s s' : Vector T} {u : Unit} (hs : Good O s)
    (h : Vector.push_back O x s = .ok u s') : Good O s' := by
  unfold Vector.push_back at h
  split at h
  · split at h
    · cases h
    · simp only at h
      split at h
      · refine place_good O ?_ ?_ h
        · exact hs.flag
        · exact getTotalSize_lt _ _
      · cases h
  · exact place_good O hs.flag hs.small.1 h

/-- A fill with one value is ordered only when it is a single element. -/
theorem init_good [IsStrictWeakOrder T (fun a b => O a b = true)] {count : Nat} {value : T}
    {s s' : Vector T} {u : Unit} (hs : Good O s)
    (h : Vector.init O count value s = .ok u s') : Good O s' := by
  unfold Vector.init at h
  obtain ⟨v, t, ht, hr⟩ := Outcome.bind_eq_ok.1 h
  split at hr
  · next hfit =>
      cases hr
      have hblock : t.block < 2 ^ 64 := by
        rcases resize_eq_ok ht with ⟨-, -, rfl⟩ | ⟨a, -, -, rfl⟩
        · exact hs.small.1
        · exact memsize_lt _ _
      refine ⟨fun _ => noneSmaller_replicate O count value, small_of_fits hblock ?_⟩
      rw [Fits, size, List.length_replicate]
      exact hfit
  · cases hr

/-- The loop of `apply` keeps the part it went over sorted, as far as the flag says. -/
theorem applyFrom_good [IsStrictWeakOrder T (fun a b => O a b = true)] {U : Type}
    {F : T → U → T} {w : Nat → Option U} {i k : Nat} {s s' : Vector T} {u : Unit}
    (hsmall : s.Small) (hk : i + k = s.size)
    (hs : s.ordered = true → NoneSmaller O (s.v.take i))
    (h : applyFrom O F w i k s = .ok u s') : Good O s' := by
  induction k generalizing i s with
  | zero =>
      cases h
      refine ⟨fun ho => ?_, hsmall⟩
      have htake : s'.v.take i = s'.v := List.take_of_length_le (by rw [← size]; omega)
      rw [← htake]
      exact hs ho
  | succ k ih =>
      rw [applyFrom] at h
      split at h
      · next x y hx hy =>
          obtain ⟨v, t, ht, hrest⟩ := Outcome.bind_eq_ok.1 h
          unfold setv_checkbefore at ht
          split at ht
          · cases ht
          · next hi =>
              cases ht
              refine ih ?_ ?_ ?_ hrest
              · exact ⟨hsmall.1, by rw [size, List.length_set]; exact hsmall.2⟩
              · rw [size, List.length_set, ← size]
                omega
              · intro ho
                rw [Bool.and_eq_true] at ho
                exact noneSmaller_take_set O (Nat.lt_of_not_le hi) (hs ho.1) ho.2
      · cases h

theorem applyAll_good [IsStrictWeakOrder T (fun a b => O a b = true)] {U : Type}
    {F : T → U → T} {w : Nat → Option U} {s s' : Vector T} {u : Unit} (hs : Good O s)
    (h : applyFrom O F w 0 s.size { s with ordered := true } = .ok u s') : Good O s' :=
  applyFrom_good O (s := { s with ordered := true }) hs.small (Nat.zero_add _)
    (fun _ => List.isChain_nil) h

/-- What an append that returned did: the counted elements behind the old ones, and the
flag over the seam. -/
theorem appendElts_eq_ok {mem : List UInt8} {n : Nat} {ordered : Bool} {s s' : Vector T}
    {u : Unit} (hs : s.Small) (hn : n * Flat.width T < 2 ^ 64)
    (h : s.appendElts O mem n ordered = .ok u s') :
    s'.Small ∧
      s'.v = s.v ++ Flat.decode n (slice sizeofRawVector (n * Flat.width T) mem) ∧
      s'.ordered = if n = 0 then s.ordered else s.ordered && ordered &&
        seam O s.v (Flat.decode n (slice sizeofRawVector (n * Flat.width T) mem)) := by
  obtain ⟨v, t, ht, hcopy⟩ := Outcome.bind_eq_ok.1 h
  obtain ⟨hroom, hmem⟩ := copyElts_eq_ok O hcopy
  rw [wrap_of_lt hn] at hroom hmem
  have hblock : t.block < 2 ^ 64 := by
    rcases resize_eq_ok ht with ⟨-, -, rfl⟩ | ⟨a, -, -, rfl⟩
    · exact hs.1
    · exact memsize_lt _ _
  have hle := Nat.le_mul_of_pos_right (s.size + n) (Flat.width_pos (T := T))
  rw [Nat.add_mul] at hle
  have hwrap : wrap (s.size + n) = s.size + n := wrap_of_lt (by omega)
  rw [hwrap] at ht
  have hkeep : t.size = s.v.length + n ∧ t.v.take s.v.length = s.v ∧ t.ordered = s.ordered := by
    rcases resize_eq_ok ht with ⟨-, h0, rfl⟩ | ⟨a, -, -, rfl⟩
    · exact ⟨h0.symm, List.take_of_length_le (Nat.le_refl _), rfl⟩
    · exact ⟨length_redim _ _ _, take_redim (Nat.le_add_right _ _), rfl⟩
  have hfit : t.Fits t.size := by
    rw [Fits, hkeep.1, Nat.add_mul, ← size]
    omega
  have hout := copyElts_of_fits O mem ordered hkeep.1 hkeep.2.1 hfit hn hmem
  rw [← size, hcopy] at hout
  cases hout
  refine ⟨small_of_fits hblock ?_, rfl, by rw [hkeep.2.2]⟩
  rw [Fits, size, List.length_append, Flat.length_decode, ← hkeep.1]
  exact hfit

/-- The append of a buffer that a vector with a true flag wrote. -/
theorem append_good [IsStrictWeakOrder T (fun a b => O a b = true)] {y s s' : Vector T}
    {rest : List UInt8} {len k : Nat} (hy : Good O y) (hs : Good O s)
    (h : s.append O (y.toBuffer ++ rest) len = .ok k s') : Good O s' := by
  have hsize : y.getBufferSize < 2 ^ 64 := hy.small.2
  have hn : y.size * Flat.width T < 2 ^ 64 := by
    rw [getBufferSize] at hsize
    omega
  rw [append_toBuffer O y rest len s hsize] at h
  split at h
  · cases h
  · split at h
    · cases h
    · obtain ⟨v, t, ht, hret⟩ := Outcome.bind_eq_ok.1 h
      cases hret
      obtain ⟨hsmall, hv, hord⟩ := appendElts_eq_ok O hs.small hn ht
      have hdec : (Flat.decode y.size (Flat.encode y.v) : List T) = y.v := by
        have := Flat.decode_encode y.v []
        rwa [List.append_nil] at this
      rw [slice_toBuffer, hdec] at hv hord
      refine ⟨fun ho => ?_, hsmall⟩
      rw [hord] at ho
      rw [hv]
      split at ho
      · next h0 =>
          have hnil : y.v = [] := List.eq_nil_of_length_eq_zero h0
          rw [hnil, List.append_nil]
          exact hs.flag ho
      · rw [Bool.and_eq_true, Bool.and_eq_true] at ho
        exact noneSmaller_append O (hs.flag ho.1.1) (hy.flag ho.1.2) ho.2

theorem sort_good {S : StdSort O} {s : Vector T} (hs : Good O s) : Good O (sort O S s) := by
  unfold sort
  split
  · exact hs
  · refine ⟨fun _ => (S.sorted s.v).isChain, hs.small.1, ?_⟩
    rw [size, (S.perm s.v).length_eq]
    exact hs.small.2

theorem checkAndSetOrdered_good [IsStrictWeakOrder T (fun a b => O a b = true)]
    {s : Vector T} (hs : Good O s) : Good O (checkAndSetOrdered O s) :=
  ⟨fun ho => noneSmaller_of_adjacent O ho, hs.small⟩

/-! ## The whole life -/

theorem reach_good [IsStrictWeakOrder T (fun a b => O a b = true)] {s : Vector T}
    (h : Reach O s) : Good O s := by
  induction h with
  | fill h => exact construct_good O h fun _ _ => noneSmaller_replicate O _ _
  | rsv h => exact construct_good O h fun _ _ => List.isChain_nil
  | range h => exact construct_good O h fun ho _ => noneSmaller_of_adjacent O ho
  | list h => exact construct_good O h fun ho _ => noneSmaller_of_adjacent O ho
  | copy _ h ih => exact construct_good O h fun ho _ => ih.flag ho
  | push_back _ h ih => exact push_back_good O ih h
  | setv _ h ih => exact setv_good O ih h
  | writeIter _ h ih => exact (writeIter_good O ih h).1
  | erase _ h ih => exact erase_good O ih h
  | eraseRange _ h ih => exact eraseRange_good O ih h
  | shrink _ hle h ih => exact resize_good O ih hle h
  | init _ h ih => exact init_good O ih h
  | apply _ h ih => exact applyAll_good O ih h
  | apply_scalar_post _ h ih => exact applyAll_good O ih h
  | append _ _ h ihy ihs => exact append_good O ihy ihs h
  | sort _ ih => exact sort_good O ih
  | check _ ih => exact checkAndSetOrdered_good O ih

/-- Whenever the flag is true after a sequence of operations that all returned, no
element is smaller than the one before it. -/
theorem reach_noneSmaller [IsStrictWeakOrder T (fun a b => O a b = true)] {s : Vector T}
    (h : Reach O s) (hord : s.ordered = true) : NoneSmaller O s.v :=
  (reach_good O h).flag hord

/-- A vector that 3 and then 2 were pushed into. -/
def threeTwo : Vector idx_type where
  v := [3, 2]
  ordered := false
  capacity := 1024
  block := 8216
  alloc := some (memallocator (2 ^ 20))

theorem reach_threeTwo : Reach lessIdx threeTwo := by
  have h0 : ofFill lessIdx 0 0 threeTwo.alloc =
      .ok { threeTwo with v := [], ordered := true } () := rfl
  have h1 : Vector.push_back lessIdx 3 { threeTwo with v := [], ordered := true } =
      .ok () { threeTwo with v := [3], ordered := true } := rfl
  have h2 : Vector.push_back lessIdx 2 { threeTwo with v := [3], ordered := true } =
      .ok () threeTwo := rfl
  exact .push_back (.push_back (.fill h0) h1) h2

theorem sorted_threeTwo : NoneSmaller lessIdx ((mergeStdSort lessIdx).run [3, 2]) :=
  reach_noneSmaller lessIdx (.sort (S := mergeStdSort lessIdx) reach_threeTwo) rfl

end Vector

end Ztsdb.Arr
