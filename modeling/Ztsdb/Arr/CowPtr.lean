import Mathlib
import Ztsdb.Lib.Run

/-!
# Copy-on-write handles

A `cow_ptr` holds an object, flags, and a count that it shares with the other handles to
the object. The count is kept by hand. It is to be the number of the handles that are
flagged neither `TMP` nor `LAST`: a write through one of these goes to a copy when there
is another one.

The live handles are a list; an operation names them by their place. An operation keeps
the count right unless it drops a counted handle without taking it off, takes one off
that was not counted, or makes a handle that is not counted and adds it.
-/

namespace Ztsdb.Arr

open Ztsdb.Lib

structure Flags where
  REF : Bool := false
  LOCKED : Bool := false
  CONSTREF : Bool := false
  TMP : Bool := false
  LAST : Bool := false
  deriving DecidableEq

/-- A `cow_ptr`: its object and its count are cells of the store. -/
structure cow_ptr where
  flags : Flags
  p : Nat
  count : Nat
  deriving DecidableEq

namespace cow_ptr

/-- A handle that the count is to count. -/
def counted (h : cow_ptr) : Bool := !h.flags.TMP && !h.flags.LAST

/-- What a handle adds to the count of its object. -/
def share (h : cow_ptr) : Int := if h.counted then 1 else 0

/-- `setTmp`, `setLast`, `setConst` and `resetTmp`, the flags alone. -/
def setTmp (h : cow_ptr) : cow_ptr := { h with flags := { h.flags with TMP := true } }
def resetTmp (h : cow_ptr) : cow_ptr := { h with flags := { h.flags with TMP := false } }
def setLast (h : cow_ptr) : cow_ptr := { h with flags := { h.flags with LAST := true } }
def setConst (h : cow_ptr) : cow_ptr := { h with flags := { h.flags with CONSTREF := true } }

/-- `o.flags & ~LAST`, with what `o` holds. -/
def copied (o : cow_ptr) : cow_ptr := { o with flags := { o.flags with LAST := false } }

end cow_ptr

structure Store (V : Type) where
  handles : List cow_ptr
  objs : Nat → Option V
  counts : Nat → Int
  /-- The next object and the next count. -/
  nobjs : Nat
  ncounts : Nat

inductive CowOp (V : Type) where
  /-- `cow_ptr(flags, t)`. -/
  | make (flags : Flags) (v : V)
  /-- `cow_ptr(flags, tp)`, of an object that something else holds. -/
  | share (flags : Flags) (p : Nat)
  /-- `cow_ptr(o)`. -/
  | copy (o : Nat)
  /-- `operator=(o)`. -/
  | assign (i o : Nat)
  | destroy (i : Nat)
  | setTmp (i : Nat)
  | resetTmp (i : Nat)
  | setLast (i : Nat)
  | setConst (i : Nat)
  /-- A non-const `operator*`, and a write to what it returns. -/
  | write (i : Nat) (v : V)

namespace Store

variable {V : Type}

def addCount (c : Nat) (d : Int) (s : Store V) : Store V :=
  { s with counts := Function.update s.counts c (s.counts c + d) }

/-- A new handle with a new count. -/
def construct (flags : Flags) (p : Nat) (s : Store V) : Store V :=
  { s with
    handles := ⟨flags, p, s.ncounts⟩ :: s.handles
    counts := Function.update s.counts s.ncounts 1
    ncounts := s.ncounts + 1 }

/-- A non-const dereference makes a copy where the count says that there are others. -/
def copies (h : cow_ptr) (s : Store V) : Bool :=
  !h.flags.CONSTREF && decide (1 < s.counts h.count) && !h.flags.LOCKED

/-- A non-const dereference throws. -/
def throws (h : cow_ptr) (s : Store V) : Bool :=
  h.flags.CONSTREF || decide (1 < s.counts h.count) && h.flags.LOCKED

def step (op : CowOp V) (s : Store V) : Next (Store V) :=
  match op with
  | .make flags v =>
    .goes ({ s with objs := Function.update s.objs s.nobjs (some v), nobjs := s.nobjs + 1 }.construct
      flags s.nobjs)
  | .share flags p => if p < s.nobjs then .goes (s.construct flags p) else .blocked
  | .copy o =>
    match s.handles[o]? with
    | none => .blocked
    | some k => .goes ({ s with handles := k.copied :: s.handles }.addCount k.count 1)
  | .assign i o =>
    match s.handles[i]?, s.handles[o]? with
    | some _, some k =>
      -- what the handle held before is not looked at
      .goes ({ s with handles := s.handles.set i k.copied }.addCount k.count
        (if k.flags.CONSTREF then 0 else 1))
    | _, _ => .blocked
  | .destroy i =>
    match s.handles[i]? with
    | none => .blocked
    | some h => .goes ({ s with handles := s.handles.eraseIdx i }.addCount h.count
        (if !h.flags.LAST && !h.flags.TMP then -1 else 0))
  | .setTmp i =>
    match s.handles[i]? with
    | none => .blocked
    | some h => .goes ({ s with handles := s.handles.set i h.setTmp }.addCount h.count (-1))
  | .resetTmp i =>
    match s.handles[i]? with
    | none => .blocked
    | some h => .goes { s with handles := s.handles.set i h.resetTmp }
  | .setLast i =>
    match s.handles[i]? with
    | none => .blocked
    | some h => .goes ({ s with handles := s.handles.set i h.setLast }.addCount h.count (-1))
  | .setConst i =>
    match s.handles[i]? with
    | none => .blocked
    | some h => .goes { s with handles := s.handles.set i h.setConst }
  | .write i v =>
    match s.handles[i]? with
    | none => .blocked
    | some h =>
      if s.throws h then .goes s
      else if s.copies h then
        let s := s.addCount h.count (-1)
        .goes { s with
          handles := s.handles.set i ⟨h.flags, s.nobjs, s.ncounts⟩
          objs := Function.update s.objs s.nobjs (some v)
          counts := Function.update s.counts s.ncounts 1
          nobjs := s.nobjs + 1
          ncounts := s.ncounts + 1 }
      else .goes { s with objs := Function.update s.objs h.p (some v) }

def init : Store V := {
  handles := [], objs := fun _ => none, counts := fun _ => 0, nobjs := 0, ncounts := 0 }

/-- The counted handles to the object `p`. -/
def number (p : Nat) (hs : List cow_ptr) : Int := (hs.map fun h => if h.p = p then h.share else 0).sum

/-- Every count is right. -/
def Counted (s : Store V) : Prop := ∀ h ∈ s.handles, s.counts h.count = number h.p s.handles

/-- The object that is seen through the handle in place `i`. -/
def seen (i : Nat) (s : Store V) : Option V := (s.handles[i]?).bind fun h => s.objs h.p

/-- A write through a counted handle is not seen through any other one. -/
def Isolated (s : Store V) : Prop :=
  ∀ i v s' h, s.handles[i]? = some h → h.counted = true → step (.write i v) s = .goes s' →
    ∀ j k, j ≠ i → s.handles[j]? = some k → k.counted = true → s'.seen j = s.seen j

/-- The operation changes the count by as much as the number of counted handles. -/
def Kept (op : CowOp V) (s : Store V) : Prop :=
  match op with
  | .make flags _ => flags.TMP = false ∧ flags.LAST = false
  | .share flags p =>
    flags.TMP = false ∧ flags.LAST = false ∧ ∀ k ∈ s.handles, k.p ≠ p
  | .copy o => ∀ k ∈ s.handles[o]?, k.flags.TMP = false
  | .assign i o =>
    ∀ h ∈ s.handles[i]?, ∀ k ∈ s.handles[o]?,
      if h.p = k.p then (if k.flags.CONSTREF then 0 else 1) = k.copied.share - h.share
      else k.flags.CONSTREF = k.flags.TMP ∧
        (h.counted = true → ∀ k' ∈ s.handles.eraseIdx i, k'.p ≠ h.p)
  | .destroy _ => True
  | .setTmp i => ∀ h ∈ s.handles[i]?, h.counted = true
  | .resetTmp i => ∀ h ∈ s.handles[i]?, h.flags.TMP = true → h.flags.LAST = true
  | .setLast i => ∀ h ∈ s.handles[i]?, h.counted = true
  | .setConst _ => True
  | .write i _ => ∀ h ∈ s.handles[i]?, s.copies h = true → h.counted = true

/-! ## The invariant -/

section Invariant

/-- What every operation keeps of the handles: handles to one object share one count. -/
structure Good (hs : List cow_ptr) (counts : Nat → Int) (nobjs ncounts : Nat) : Prop where
  counted : ∀ h ∈ hs, counts h.count = number h.p hs
  cells : ∀ h ∈ hs, ∀ k ∈ hs, h.p = k.p ↔ h.count = k.count
  objs : ∀ h ∈ hs, h.p < nobjs
  counts : ∀ h ∈ hs, h.count < ncounts

variable {hs : List cow_ptr} {counts : Nat → Int} {nobjs ncounts : Nat} {h h' : cow_ptr}

theorem number_cons (p : Nat) (h : cow_ptr) (hs : List cow_ptr) :
    number p (h :: hs) = (if h.p = p then h.share else 0) + number p hs := by
  rw [number, List.map_cons, List.sum_cons, number]

theorem number_perm {hs' : List cow_ptr} (p : Nat) (hp : hs.Perm hs') : number p hs = number p hs' :=
  (hp.map _).sum_eq

theorem number_of_none {p : Nat} (hn : ∀ k ∈ hs, k.p ≠ p) : number p hs = 0 := by
  induction hs with
  | nil => rfl
  | cons k hs ih =>
      rw [number_cons, if_neg (hn k List.mem_cons_self),
        ih fun k' hk' => hn k' (List.mem_cons_of_mem k hk')]
      rfl

theorem share_nonneg (h : cow_ptr) : 0 ≤ h.share := by
  rw [cow_ptr.share]
  split <;> decide

theorem number_nonneg (p : Nat) (hs : List cow_ptr) : 0 ≤ number p hs := by
  induction hs with
  | nil => exact le_refl 0
  | cons k hs ih =>
      rw [number_cons]
      have := share_nonneg k
      split <;> omega

theorem share_le_number {p : Nat} (hmem : h ∈ hs) (hp : h.p = p) : h.share ≤ number p hs := by
  induction hs with
  | nil => cases hmem
  | cons k hs ih =>
      rw [number_cons]
      rcases List.mem_cons.1 hmem with rfl | hmem
      · rw [if_pos hp]
        have := number_nonneg p hs
        omega
      · have := ih hmem
        have := share_nonneg k
        split <;> omega

theorem Good.perm {hs' : List cow_ptr} (hg : Good hs counts nobjs ncounts) (hp : hs.Perm hs') :
    Good hs' counts nobjs ncounts := by
  refine ⟨?_, ?_, ?_, ?_⟩
  · intro k hk
    rw [hg.counted k (hp.mem_iff.2 hk), number_perm _ hp]
  · intro k hk k' hk'
    exact hg.cells k (hp.mem_iff.2 hk) k' (hp.mem_iff.2 hk')
  · intro k hk
    exact hg.objs k (hp.mem_iff.2 hk)
  · intro k hk
    exact hg.counts k (hp.mem_iff.2 hk)

theorem Good.mono {n m : Nat} (hg : Good hs counts nobjs ncounts) (hn : nobjs ≤ n)
    (hm : ncounts ≤ m) : Good hs counts n m :=
  ⟨hg.counted, hg.cells, fun k hk => lt_of_lt_of_le (hg.objs k hk) hn,
    fun k hk => lt_of_lt_of_le (hg.counts k hk) hm⟩

/-- One handle goes, and its share with it. -/
theorem Good.remove (hg : Good (h :: hs) counts nobjs ncounts) {d : Int} (hd : d = -h.share) :
    Good hs (Function.update counts h.count (counts h.count + d)) nobjs ncounts := by
  refine ⟨?_, ?_, ?_, ?_⟩
  · intro k hk
    have hold := hg.counted k (List.mem_cons_of_mem h hk)
    have hcell := hg.cells k (List.mem_cons_of_mem h hk) h List.mem_cons_self
    rw [number_cons] at hold
    by_cases hp : k.p = h.p
    · rw [hcell.1 hp] at hold ⊢
      rw [Function.update_self, hold, if_pos hp.symm, hd]
      omega
    · rw [Function.update_of_ne (fun hc => hp (hcell.2 hc)), hold, if_neg (fun hc => hp hc.symm)]
      exact zero_add _
  · intro k hk k' hk'
    exact hg.cells k (List.mem_cons_of_mem h hk) k' (List.mem_cons_of_mem h hk')
  · intro k hk
    exact hg.objs k (List.mem_cons_of_mem h hk)
  · intro k hk
    exact hg.counts k (List.mem_cons_of_mem h hk)

/-- The last handle to an object goes, and its count with it. -/
theorem Good.forget (hg : Good (h :: hs) counts nobjs ncounts) (hn : ∀ k ∈ hs, k.p ≠ h.p) :
    Good hs counts nobjs ncounts := by
  refine ⟨?_, ?_, ?_, ?_⟩
  · intro k hk
    have hold := hg.counted k (List.mem_cons_of_mem h hk)
    rw [number_cons, if_neg (fun hc => hn k hk hc.symm), zero_add] at hold
    exact hold
  · intro k hk k' hk'
    exact hg.cells k (List.mem_cons_of_mem h hk) k' (List.mem_cons_of_mem h hk')
  · intro k hk
    exact hg.objs k (List.mem_cons_of_mem h hk)
  · intro k hk
    exact hg.counts k (List.mem_cons_of_mem h hk)

/-- One more handle to the object of `k`. -/
theorem Good.add {k : cow_ptr} (hg : Good hs counts nobjs ncounts) (hk : k ∈ hs) (hp : h.p = k.p)
    (hc : h.count = k.count) {d : Int} (hd : d = h.share) :
    Good (h :: hs) (Function.update counts k.count (counts k.count + d)) nobjs ncounts := by
  have hcells {k' : cow_ptr} (hk' : k' ∈ hs) : h.p = k'.p ↔ h.count = k'.count := by
    rw [hp, hc]
    exact hg.cells k hk k' hk'
  refine ⟨?_, ?_, ?_, ?_⟩
  · intro k' hk'
    rw [number_cons]
    rcases List.mem_cons.1 hk' with rfl | hk'
    · rw [hc, Function.update_self, if_pos rfl, hg.counted k hk, hp, hd]
      omega
    · by_cases hp' : h.p = k'.p
      · rw [← (hcells hk').1 hp', hc, Function.update_self, if_pos hp', hg.counted k hk, ← hp', hp,
          hd]
        omega
      · rw [Function.update_of_ne (fun he => hp' ((hcells hk').2 (hc.trans he.symm))), if_neg hp',
          hg.counted k' hk', zero_add]
  · intro k' hk' k'' hk''
    rcases List.mem_cons.1 hk' with rfl | hin
    · rcases List.mem_cons.1 hk'' with rfl | hin'
      · exact ⟨fun _ => rfl, fun _ => rfl⟩
      · exact hcells hin'
    · rcases List.mem_cons.1 hk'' with rfl | hin'
      · exact ⟨fun he => ((hcells hin).1 he.symm).symm, fun he => ((hcells hin).2 he.symm).symm⟩
      · exact hg.cells k' hin k'' hin'
  · intro k' hk'
    rcases List.mem_cons.1 hk' with rfl | hk'
    · rw [hp]
      exact hg.objs k hk
    · exact hg.objs k' hk'
  · intro k' hk'
    rcases List.mem_cons.1 hk' with rfl | hk'
    · rw [hc]
      exact hg.counts k hk
    · exact hg.counts k' hk'

/-- The first handle to an object, with a count of its own. -/
theorem Good.construct {n : Nat} (hg : Good hs counts nobjs ncounts) (hc : h.count = ncounts)
    (hp : ∀ k ∈ hs, k.p ≠ h.p) (hlt : h.p < n) (hn : nobjs ≤ n) (hcounted : h.counted = true) :
    Good (h :: hs) (Function.update counts ncounts 1) n (ncounts + 1) := by
  have hne {k : cow_ptr} (hk : k ∈ hs) : k.count ≠ ncounts := Nat.ne_of_lt (hg.counts k hk)
  refine ⟨?_, ?_, ?_, ?_⟩
  · intro k hk
    rw [number_cons]
    rcases List.mem_cons.1 hk with rfl | hk
    · rw [hc, Function.update_self, if_pos rfl, number_of_none hp, cow_ptr.share, if_pos hcounted]
      rfl
    · rw [Function.update_of_ne (hne hk), if_neg (fun he => hp k hk he.symm), hg.counted k hk,
        zero_add]
  · intro k hk k' hk'
    rcases List.mem_cons.1 hk with rfl | hin
    · rcases List.mem_cons.1 hk' with rfl | hin'
      · exact ⟨fun _ => rfl, fun _ => rfl⟩
      · exact ⟨fun he => absurd he.symm (hp k' hin'),
          fun he => absurd (he.symm.trans hc) (hne hin')⟩
    · rcases List.mem_cons.1 hk' with rfl | hin'
      · exact ⟨fun he => absurd he (hp k hin), fun he => absurd (he.trans hc) (hne hin)⟩
      · exact hg.cells k hin k' hin'
  · intro k hk
    rcases List.mem_cons.1 hk with rfl | hk
    · exact hlt
    · exact lt_of_lt_of_le (hg.objs k hk) hn
  · intro k hk
    rcases List.mem_cons.1 hk with rfl | hk
    · rw [hc]
      exact Nat.lt_succ_self _
    · exact Nat.lt_succ_of_lt (hg.counts k hk)

/-- A handle to the same object in the place of another. -/
theorem Good.reflag (hg : Good (h :: hs) counts nobjs ncounts) (hp : h'.p = h.p)
    (hc : h'.count = h.count) {d : Int} (hd : d = h'.share - h.share) :
    Good (h' :: hs) (Function.update counts h.count (counts h.count + d)) nobjs ncounts := by
  refine ⟨?_, ?_, ?_, ?_⟩
  · intro k hk
    rw [number_cons]
    have hself := hg.counted h List.mem_cons_self
    rw [number_cons, if_pos rfl] at hself
    rcases List.mem_cons.1 hk with rfl | hk
    · rw [hc, Function.update_self, if_pos rfl, hself, hp, hd]
      omega
    · have hcell := hg.cells k (List.mem_cons_of_mem h hk) h List.mem_cons_self
      have hold := hg.counted k (List.mem_cons_of_mem h hk)
      rw [number_cons] at hold
      by_cases hp' : k.p = h.p
      · rw [hcell.1 hp', Function.update_self, if_pos (by rw [hp, hp']), hself, hp', hd]
        omega
      · rw [Function.update_of_ne (fun he => hp' (hcell.2 he)), hold,
          if_neg (fun he => hp' he.symm), if_neg (fun he => hp' (he.symm.trans hp))]
  · intro k hk k' hk'
    have hmem {x : cow_ptr} (hx : x ∈ h' :: hs) : ∃ y ∈ h :: hs, x.p = y.p ∧ x.count = y.count := by
      rcases List.mem_cons.1 hx with rfl | hx
      · exact ⟨h, List.mem_cons_self, hp, hc⟩
      · exact ⟨x, List.mem_cons_of_mem h hx, rfl, rfl⟩
    obtain ⟨y, hy, hyp, hyc⟩ := hmem hk
    obtain ⟨y', hy', hyp', hyc'⟩ := hmem hk'
    rw [hyp, hyc, hyp', hyc']
    exact hg.cells y hy y' hy'
  · intro k hk
    rcases List.mem_cons.1 hk with rfl | hk
    · rw [hp]
      exact hg.objs h List.mem_cons_self
    · exact hg.objs k (List.mem_cons_of_mem h hk)
  · intro k hk
    rcases List.mem_cons.1 hk with rfl | hk
    · rw [hc]
      exact hg.counts h List.mem_cons_self
    · exact hg.counts k (List.mem_cons_of_mem h hk)

end Invariant

/-! ## Operations -/

def Valid (s : Store V) : Prop := Good s.handles s.counts s.nobjs s.ncounts

variable {s s' : Store V}

theorem perm_of_getElem? {hs : List cow_ptr} {i : Nat} {h : cow_ptr} (hi : hs[i]? = some h) :
    hs.Perm (h :: hs.eraseIdx i) := by
  obtain ⟨hlt, rfl⟩ := List.getElem?_eq_some_iff.1 hi
  exact (List.getElem_cons_eraseIdx_perm hlt).symm

theorem set_perm {hs : List cow_ptr} {i : Nat} {h : cow_ptr} (hi : hs[i]? = some h)
    (h' : cow_ptr) : (hs.set i h').Perm (h' :: hs.eraseIdx i) := by
  obtain ⟨hlt, -⟩ := List.getElem?_eq_some_iff.1 hi
  exact List.set_perm_cons_eraseIdx hlt h'

theorem share_eq {h : cow_ptr} (hc : h.counted = true) : h.share = 1 := by
  rw [cow_ptr.share, if_pos hc]

/-- A flag set or reset, and the count changed with it. -/
theorem Valid.reflag (hs : s.Valid) {i : Nat} {h : cow_ptr} (hi : s.handles[i]? = some h)
    (h' : cow_ptr) (hp : h'.p = h.p) (hc : h'.count = h.count) {d : Int} (hd : d = h'.share - h.share) :
    ({ s with handles := s.handles.set i h' }.addCount h.count d).Valid :=
  ((Good.perm hs (perm_of_getElem? hi)).reflag hp hc hd).perm (set_perm hi h').symm

theorem addCount_zero (c : Nat) : s.addCount c 0 = s := by
  rw [addCount, Int.add_zero, Function.update_eq_self]

/-- A flag that says nothing of the count. -/
theorem Valid.setFlag (hs : s.Valid) {i : Nat} {h h' : cow_ptr} (hi : s.handles[i]? = some h)
    (hp : h'.p = h.p) (hc : h'.count = h.count) (hd : h'.share = h.share) :
    { s with handles := s.handles.set i h' }.Valid := by
  have := hs.reflag hi h' hp hc (d := 0) (by omega)
  rwa [addCount_zero] at this

theorem Valid.assign (hs : s.Valid) {i o : Nat} {h k : cow_ptr} (hi : s.handles[i]? = some h)
    (ho : s.handles[o]? = some k) (hc : s.Kept (.assign i o)) :
    ({ s with handles := s.handles.set i k.copied }.addCount k.count
      (if k.flags.CONSTREF then 0 else 1)).Valid := by
  have hc := hc h (by rw [hi]; rfl) k (by rw [ho]; rfl)
  have hk : k ∈ s.handles := List.mem_of_getElem? ho
  have hh : h ∈ s.handles := List.mem_of_getElem? hi
  by_cases hp : h.p = k.p
  · -- the object stays, the flags change
    rw [if_pos hp] at hc
    have hcount : h.count = k.count := (Good.cells hs h hh k hk).1 hp
    have := hs.reflag hi k.copied hp.symm hcount.symm hc
    rwa [hcount] at this
  · rw [if_neg hp] at hc
    obtain ⟨hflag, hlast⟩ := hc
    have hg := Good.perm hs (perm_of_getElem? hi)
    have hmem : k ∈ s.handles.eraseIdx i := by
      rcases List.mem_cons.1 ((perm_of_getElem? hi).mem_iff.1 hk) with rfl | hmem
      · exact absurd rfl hp
      · exact hmem
    have hrest : Good (s.handles.eraseIdx i) s.counts s.nobjs s.ncounts := by
      by_cases hcounted : h.counted = true
      · exact hg.forget (hlast hcounted)
      · have := hg.remove (d := 0) (by rw [cow_ptr.share, if_neg hcounted]; rfl)
        rwa [Int.add_zero, Function.update_eq_self] at this
    refine (hrest.add (h := k.copied) hmem rfl rfl ?_).perm (set_perm hi _).symm
    rw [cow_ptr.share, cow_ptr.counted, cow_ptr.copied, hflag]
    cases k.flags.TMP <;> rfl

/-- The object that a write through a counted handle makes. -/
theorem Valid.unshare (hs : s.Valid) {i : Nat} {h : cow_ptr} (hi : s.handles[i]? = some h)
    (hc : h.counted = true) (objs : Nat → Option V) :
    Valid { s with
      handles := s.handles.set i ⟨h.flags, s.nobjs, s.ncounts⟩
      objs := objs
      counts := Function.update (Function.update s.counts h.count (s.counts h.count + -1))
        s.ncounts 1
      nobjs := s.nobjs + 1
      ncounts := s.ncounts + 1 } := by
  have hrest := (Good.perm hs (perm_of_getElem? hi)).remove (d := -1) (by rw [share_eq hc])
  refine (hrest.construct (h := ⟨h.flags, s.nobjs, s.ncounts⟩) rfl ?_ (Nat.lt_succ_self _)
    (Nat.le_succ _) hc).perm (set_perm hi _).symm
  intro k hk
  exact Nat.ne_of_lt (hrest.objs k hk)

theorem step_valid {op : CowOp V} (hs : s.Valid) (hc : s.Kept op) (h : step op s = .goes s') :
    s'.Valid := by
  cases op with
  | make flags v =>
      obtain ⟨htmp, hlast⟩ := hc
      cases h
      refine Good.construct (h := ⟨flags, s.nobjs, s.ncounts⟩) hs rfl ?_ (Nat.lt_succ_self _)
        (Nat.le_succ _) (by rw [cow_ptr.counted, htmp, hlast]; rfl)
      intro k hk
      exact Nat.ne_of_lt (Good.objs hs k hk)
  | share flags p =>
      obtain ⟨htmp, hlast, hnone⟩ := hc
      rw [step] at h
      split at h
      · next hlt =>
          cases h
          exact Good.construct (h := ⟨flags, p, s.ncounts⟩) hs rfl hnone hlt (Nat.le_refl _)
            (by rw [cow_ptr.counted, htmp, hlast]; rfl)
      · cases h
  | copy o =>
      rw [step] at h
      split at h
      · cases h
      · next k hk =>
          cases h
          refine Good.add (h := k.copied) hs (List.mem_of_getElem? hk) rfl rfl ?_
          rw [cow_ptr.share, cow_ptr.counted, cow_ptr.copied, hc k (by rw [hk]; rfl)]
          rfl
  | assign i o =>
      rw [step] at h
      split at h
      · next hi ho =>
          cases h
          exact hs.assign hi ho hc
      · cases h
  | destroy i =>
      rw [step] at h
      split at h
      · cases h
      · next k hi =>
          cases h
          refine (Good.perm hs (perm_of_getElem? hi)).remove ?_
          rw [cow_ptr.share, cow_ptr.counted, Bool.and_comm]
          split <;> rfl
  | setTmp i =>
      rw [step] at h
      split at h
      · cases h
      · next k hi =>
          cases h
          refine hs.reflag hi k.setTmp rfl rfl ?_
          rw [share_eq (hc k (by rw [hi]; rfl))]
          rfl
  | resetTmp i =>
      rw [step] at h
      split at h
      · cases h
      · next k hi =>
          cases h
          refine hs.setFlag hi rfl rfl ?_
          have hflags := hc k (by rw [hi]; rfl)
          rw [cow_ptr.share, cow_ptr.share, cow_ptr.counted, cow_ptr.counted, cow_ptr.resetTmp]
          cases htmp : k.flags.TMP with
          | false => rfl
          | true =>
              simp only [hflags htmp]
              rfl
  | setLast i =>
      rw [step] at h
      split at h
      · cases h
      · next k hi =>
          cases h
          refine hs.reflag hi k.setLast rfl rfl ?_
          rw [share_eq (hc k (by rw [hi]; rfl)), cow_ptr.share, cow_ptr.counted, cow_ptr.setLast]
          simp
  | setConst i =>
      rw [step] at h
      split at h
      · cases h
      · next k hi =>
          cases h
          exact hs.setFlag hi rfl rfl rfl
  | write i v =>
      rw [step] at h
      split at h
      · cases h
      · next k hi =>
          split at h
          · cases h
            exact hs
          · split at h
            · next hcopies =>
                cases h
                exact hs.unshare hi (hc k (by rw [hi]; rfl) hcopies) _
            · cases h
              exact hs

theorem Valid.counted (hs : s.Valid) : s.Counted := Good.counted hs

theorem mem_eraseIdx_of_ne {hs : List cow_ptr} {i j : Nat} {k : cow_ptr} (hne : j ≠ i)
    (hj : hs[j]? = some k) : k ∈ hs.eraseIdx i := by
  rw [List.mem_eraseIdx_iff_getElem?]
  exact ⟨j, hne, hj⟩

/-- Where no copy is made there is no other counted handle to the object. -/
theorem Valid.isolated (hs : s.Valid) : s.Isolated := by
  intro i v s' h hi hcounted hgo j k hne hj hk
  have hh : h ∈ s.handles := List.mem_of_getElem? hi
  have hkm : k ∈ s.handles := List.mem_of_getElem? hj
  rw [step, hi] at hgo
  simp only at hgo
  split at hgo
  · cases hgo
    rfl
  · next hthrow =>
      split at hgo
      · -- the write goes to a new object
        cases hgo
        rw [seen, seen]
        simp only [addCount]
        rw [List.getElem?_set_ne (Ne.symm hne), hj, Option.bind_some, Option.bind_some,
          Function.update_of_ne (Nat.ne_of_lt (Good.objs hs k hkm))]
      · next hcopies =>
          cases hgo
          rw [seen, seen]
          simp only
          rw [hj, Option.bind_some, Option.bind_some, Function.update_of_ne]
          intro hp
          have hnum := Good.counted hs h hh
          rw [number_perm _ (perm_of_getElem? hi), number_cons, if_pos rfl, share_eq hcounted] at hnum
          have hle := share_le_number (mem_eraseIdx_of_ne hne hj) hp
          rw [share_eq hk] at hle
          have hmany : 1 < s.counts h.count := by omega
          rw [throws, Bool.or_eq_true, not_or, Bool.and_eq_true, not_and] at hthrow
          rw [copies, Bool.and_eq_true, not_and, Bool.and_eq_true] at hcopies
          refine hcopies ⟨by simpa using hthrow.1, by simpa using hmany⟩ ?_
          simpa using hthrow.2 (by simpa using hmany)

theorem init_valid : (init : Store V).Valid := ⟨nofun, nofun, nofun, nofun⟩

theorem step_ne_wild {op : CowOp V} : step op s ≠ .wild := by
  intro h
  cases op with
  | make flags v => cases h
  | assign i o =>
      rw [step] at h
      split at h <;> cases h
  | write i v =>
      rw [step] at h
      split at h
      · cases h
      · split at h
        · cases h
        · split at h <;> cases h
  | _ =>
      rw [step] at h
      split at h <;> cases h

/-- In every run of operations that keep the count, the counts are right and no write is
seen through another counted handle. -/
theorem run_counted (h : Run step (fun op s => Kept op s) (init : Store V) s) :
    s.Counted ∧ s.Isolated := by
  have hs : s.Valid := h.invariant init_valid (fun _ _ _ hs hc hgo => step_valid hs hc hgo)
    fun _ _ _ _ => step_ne_wild
  exact ⟨hs.counted, hs.isolated⟩

/-- An object with two handles, one of them flagged. -/
theorem run_counted_two : ∃ s : Store Nat, s.counts 0 = 1 ∧ s.Counted ∧ s.Isolated := by
  refine ⟨_, rfl, run_counted (.step (a := .setTmp 0) (.step (a := .copy 0)
    (.step (a := .make {} 7) .start ?_ rfl) ?_ rfl) ?_ rfl)⟩
  · exact ⟨rfl, rfl⟩
  · intro k hk
    cases hk
    rfl
  · intro k hk
    cases hk
    rfl

/-- A handle with a copy is assigned another object. The first object keeps a count of two
for its one handle. -/
theorem not_counted_assigned : ¬ ∀ s : Store Nat, Run step (fun _ _ => True) init s → s.Counted := by
  intro h
  have hrun : ∃ s : Store Nat, exec step (fun _ _ => True)
      [.make {} 7, .copy 0, .make {} 8, .assign 1 0] init = some s ∧
      s.handles[2]? = some ⟨{}, 0, 0⟩ ∧ s.counts 0 = 2 ∧ number 0 s.handles = 1 :=
    ⟨_, rfl, rfl, rfl, rfl⟩
  obtain ⟨s, hs, hmem, hcount, hnum⟩ := hrun
  have := h s (Run.of_exec hs) _ (List.mem_of_getElem? hmem)
  simp only [hcount, hnum] at this
  exact absurd this (by decide)

end Store

end Ztsdb.Arr
