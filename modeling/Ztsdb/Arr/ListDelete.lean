import Mathlib
import Ztsdb.Arr.ArrayAssign

/-!
# Deleting elements of a list

`x[i] <- NULL` on a list collects the positions of the index in a set and removes them one after
the other, the lowest first, each corrected by the number of those already removed. `remove`
moves the elements behind a position one place down, with their names, and cuts the last place
off. It does not look whether the list has the position: one behind the end removes the last
element.

An element is a value and its name; the empty name stands for none.
-/

namespace Ztsdb.Arr.ListDelete

open Ztsdb.Lib Ztsdb.Lib.Outcome

/-! ## The list -/

/-- `VList`: one column of values, with the names of its one dimension. -/
structure VList (T : Type) where
  v : List T
  names : NameRecord

/-- `operator[](i)` of the names. -/
def text (d : NameRecord) (i : Nat) : Except Exn (List UInt8) :=
  if d.sz ≤ i then .error (.rangeError "subscript out of bounds")
  else match d.names[i]? with
    | none => .ok []
    | some s => .ok s.chars

namespace VList

variable {T : Type}

/-- The body of the loop of `remove`. -/
def moveDown (j : Nat) (l : VList T) : Outcome Exn (VList T) Unit :=
  match l.v[j + 1]? with
  | none => .throw (.rangeError "subscript out of bounds") l
  | some x =>
    let l := { l with v := l.v.set j x }
    match text l.names (j + 1) with
    | .error e => .throw e l
    | .ok s => ((l.names.assign j s).mapState fun _ => l).bind fun d l => .ok () { l with names := d }

/-- The loop of `remove`, `k` times from `j` on. -/
def shiftDown : Nat → Nat → VList T → Outcome Exn (VList T) Unit
  | 0, _, l => .ok () l
  | k + 1, j, l => (moveDown j l).bind fun _ l => shiftDown k (j + 1) l

/-- `a.resize(0, n)`. -/
def resize (n : Nat) (l : VList T) : Outcome Exn (VList T) Unit :=
  let l := { l with v := l.v.take n }
  ((l.names.resize n 0).mapState fun _ => l).bind fun d l => .ok () { l with names := d }

/-- `remove(i)`. For a list without elements `size() - 1` is no end of the loop, which throws at
the first access. -/
def remove (i : Nat) (l : VList T) : Outcome Exn (VList T) Unit :=
  if l.v.length = 0 then moveDown i l
  else (shiftDown (l.v.length - 1 - i) i l).bind fun _ l => l.resize (l.v.length - 1)

/-- The loop over the set of positions; `n` of them are removed. -/
def removeEach : List Nat → Nat → VList T → Outcome Exn (VList T) Unit
  | [], _, l => .ok () l
  | p :: ps, n, l => (remove (p - n) l).bind fun _ l => removeEach ps (n + 1) l

end VList

/-! ## The index -/

/-- `minus1`, for a whole number. -/
def minus1 (d : Int) : Except Exn Nat :=
  if d = 0 then .error (.rangeError "subscript out of bounds")
  else if d < 0 then .error (.rangeError "mixed positive and negative subscripts")
  else .ok (d.toNat - 1)

/-- `negminus1`. -/
def negminus1 (d : Int) : Except Exn Nat :=
  if d = 0 then .error (.rangeError "subscript out of bounds")
  else if 0 < d then .error (.rangeError "mixed positive and negative subscripts")
  else .ok ((-d).toNat - 1)

/-- An index between the brackets. -/
inductive Arg where
  | double (ds : List Int)
  | string (vs : List (List UInt8))

/-- The indices that such arguments are converted to. -/
inductive Idx where
  | int (idx : IntIndex)
  | intNeg (idx : IntIndexNeg)
  | name (idx : NameIndex)

/-- `convertToIndex`, for one argument. -/
def convertToIndex {T : Type} (sort : StdSort (Vector.less (T := Nat))) (l : VList T) :
    Arg → Except Exn Idx
  | .double [] => .ok (.int ⟨[]⟩)
  | .double (d :: ds) =>
    if 0 ≤ d then ((d :: ds).mapM minus1).map fun vi => .int ⟨vi⟩
    else ((d :: ds).mapM negminus1).bind fun vi =>
      (IntIndexNeg.make sort vi l.v.length).map .intNeg
  | .string vs => .ok (.name ⟨vs, l.names⟩)

namespace Idx

def getfirst : Idx → IdxPos → Except Exn (Bool × IdxPos)
  | int idx, c => .ok (idx.getfirst c)
  | intNeg idx, c => .ok (idx.getfirst c)
  | name idx, c => idx.getfirst c

def getnext : Idx → IdxPos → Except Exn (Bool × IdxPos)
  | int idx, c => .ok (idx.getnext c)
  | intNeg idx, c => .ok (idx.getnext c)
  | name idx, c => idx.getnext c

def size : Idx → Nat
  | int idx => idx.size
  | intNeg idx => idx.size
  | name idx => idx.trueSize

/-- The loop that puts the positions behind the cursor into `delidx`. -/
def collect (idx : Idx) : Nat → IdxPos → Finset Nat → Except Exn (Finset Nat)
  | 0, _, delidx => .ok delidx
  | k + 1, c, delidx =>
    match idx.getnext c with
    | .error e => .error e
    | .ok (false, _) => .ok delidx
    | .ok (true, c) => collect idx k c (insert c.val delidx)

/-- `delidx`. -/
def positions (idx : Idx) : Except Exn (Finset Nat) :=
  match idx.getfirst ⟨0, 0⟩ with
  | .error e => .error e
  | .ok (false, _) => .error (.outOfRange "invalid index")
  | .ok (true, c) => collect idx (idx.size - 1) c {c.val}

end Idx

/-- `subassignHelper` of a list and NULL. -/
def subassignNull {T : Type} (sort : StdSort (Vector.less (T := Nat))) (a : Arg) (l : VList T) :
    Outcome Exn (VList T) Unit :=
  match (convertToIndex sort l a).bind Idx.positions with
  | .error e => .throw e l
  | .ok delidx => l.removeEach delidx.sort 0

/-! ## What a deletion should do -/

/-- The names of all places, empty ones included. -/
def texts (d : NameRecord) : List (List UInt8) := d.someNames.map ZString.chars

namespace VList

variable {T : Type}

/-- The elements with their names. -/
def entries (l : VList T) : List (T × List UInt8) := l.v.zip (texts l.names)

/-- The record of the names is one for these elements, and each name has its terminator. -/
structure Valid (l : VList T) : Prop where
  names : l.names.Fits
  sz : l.names.sz = l.v.length
  short : ∀ s ∈ texts l.names, s.length < STRING_SIZE

end VList

/-- The positions that an index selects; none when one that it lists does not exist. A name
stands for the place that is found for it. -/
def selected {T : Type} (l : VList T) : Arg → Option (List Nat)
  | .double [] => some []
  | .double (d :: ds) =>
    if 0 ≤ d then
      if ∀ x ∈ d :: ds, 1 ≤ x ∧ x ≤ l.v.length then some ((d :: ds).map fun x => x.toNat - 1)
      else none
    else
      if ∀ x ∈ d :: ds, 1 ≤ -x ∧ -x ≤ l.v.length then
        some ((List.range l.v.length).filter fun p : Nat => -((p : Int) + 1) ∉ d :: ds)
      else none
  | .string vs => vs.mapM fun s => (l.names.get s).toOption

/-- The elements that are not at one of the positions `ps`; the first of them is at `k`. -/
def others {α : Type} (ps : List Nat) (k : Nat) (xs : List α) : List α :=
  ((xs.zipIdx k).filter fun x => x.2 ∉ ps).map Prod.fst

/-- The deletion throws and changes nothing, for an index that lists what does not exist, or
leaves the elements that are not selected. -/
def Deletes {T : Type} (a : Arg) (l : VList T) (o : Outcome Exn (VList T) Unit) : Prop :=
  match selected l a with
  | none => ∃ e, o = .throw e l
  | some ps => ∃ l', o = .ok () l' ∧ l'.Valid ∧ l'.entries = others ps 0 l.entries

/-- No listed position is behind the end, unless one is not positive or the list is empty. -/
def Arg.Within (n : Nat) : Arg → Prop
  | double ds => (∃ d ∈ ds, d ≤ 0) ∨ n = 0 ∨ ∀ d ∈ ds, d ≤ n
  | string _ => True

/-! ## The names -/

section Names

variable {d : NameRecord}

theorem texts_of_nil (h : d.names.length = 0) : texts d = List.replicate d.sz [] := by
  rw [texts, NameRecord.someNames, if_pos h, List.map_replicate]
  rfl

theorem texts_of_ne_nil (h : d.names.length ≠ 0) : texts d = d.names.map ZString.chars := by
  rw [texts, NameRecord.someNames, if_neg h]

theorem length_texts (hd : d.Fits) : (texts d).length = d.sz := by
  rw [texts, List.length_map, hd.length_someNames]

/-- `operator[](i)` reads the names, empty ones included. -/
theorem text_eq (hd : d.Fits) {i : Nat} {s : List UInt8} (hs : (texts d)[i]? = some s) :
    text d i = .ok s := by
  obtain ⟨hi, hget⟩ := List.getElem?_eq_some_iff.mp hs
  rw [length_texts hd] at hi
  rw [text, if_neg (Nat.not_le_of_lt hi)]
  by_cases h0 : d.names.length = 0
  · rw [texts_of_nil h0, List.getElem?_replicate, if_pos hi] at hs
    rw [List.getElem?_eq_none (by omega)]
    exact congrArg Except.ok (Option.some.inj hs)
  · rw [texts_of_ne_nil h0, List.getElem?_map] at hs
    obtain ⟨z, hz, rfl⟩ := Option.map_eq_some_iff.mp hs
    rw [hz]

/-- A name has no zero byte. -/
theorem nonzero_of_mem {s : List UInt8} (hs : s ∈ texts d) : 0 ∉ s := by
  obtain ⟨z, -, rfl⟩ := List.mem_map.mp hs
  exact z.nonzero

/-- The names that are left when the map of all names is empty are empty. -/
theorem chars_eq_nil {names : List ZString} (h : (putNamesInMap 0 names ∅).entries = [])
    {z : ZString} (hz : z ∈ names) : z.chars = [] := by
  by_contra hne
  obtain ⟨j, hj⟩ := List.mem_iff_getElem?.mp hz
  have hmem : j ∈ NameRecord.positions names z.chars :=
    NameRecord.mem_positions.mpr (by rw [hj, Option.map_some])
  have hlook := NameRecord.mapped_put names z.chars
  rw [if_pos ⟨hne, j, hmem⟩, show putNamesInMap 0 names ∅ = ∅ from AList.ext h,
    AList.lookup_empty] at hlook
  cases hlook

theorem texts_rebuild {sz : Nat} {names : List ZString} (h : names.length = sz) :
    texts (NameRecord.rebuild sz names) = names.map ZString.chars := by
  by_cases hnil : (putNamesInMap 0 names ∅).entries = []
  · have hempty : names.map ZString.chars = List.replicate sz [] := by
      rw [List.eq_replicate_iff]
      refine ⟨by rw [List.length_map, h], fun s hs => ?_⟩
      obtain ⟨z, hz, rfl⟩ := List.mem_map.mp hs
      exact chars_eq_nil hnil hz
    have hnames : (NameRecord.rebuild sz names).names.length = 0 := by
      rw [NameRecord.rebuild]
      simp only [if_pos hnil, List.length_nil]
    rw [hempty]
    exact texts_of_nil hnames
  · have hnames : (NameRecord.rebuild sz names).names = names := by
      rw [NameRecord.rebuild]
      simp only [if_neg hnil]
    have hne : (NameRecord.rebuild sz names).names.length ≠ 0 := by
      rw [hnames]
      intro h0
      rw [List.eq_nil_of_length_eq_zero h0] at hnil
      exact hnil rfl
    rw [texts_of_ne_nil hne, hnames]

/-- A name moved to another place. -/
theorem assign_spec (hd : d.Fits) {i : Nat} {s : List UInt8} (hi : i < d.sz) (hs : s ∈ texts d)
    (hlt : s.length < STRING_SIZE) :
    ∃ d', d.assign i s = .ok d' () ∧ d'.Fits ∧ d'.sz = d.sz ∧ texts d' = (texts d).set i s := by
  by_cases h0 : d.names.length = 0
  · have hs0 : s = [] := by
      rw [texts_of_nil h0] at hs
      exact List.eq_of_mem_replicate hs
    have hassign : d.assign i s = .ok d () := by
      rw [NameRecord.assign, if_neg (Nat.not_le_of_lt hi), if_pos ⟨hs0, h0⟩]
    refine ⟨d, hassign, hd, rfl, ?_⟩
    rw [hs0, texts_of_nil h0, List.set_replicate_self]
  · have hlen : d.names.length = d.sz :=
      hd.full.resolve_left fun hnil => h0 (by rw [hnil, List.length_nil])
    have hhas : d.hasNames = true := decide_eq_true ⟨by omega, hlen.symm⟩
    have hassign : d.assign i s =
        .ok (NameRecord.rebuild d.sz (d.names.set i (ZString.ofString s))) () := by
      rw [NameRecord.assign, if_neg (Nat.not_le_of_lt hi), if_neg fun h => h0 h.2, hhas,
        if_neg (by decide)]
    have hchars : (ZString.ofString s).chars = s :=
      congrArg ZString.chars (ZString.ofString_chars (s := ⟨s, hlt.le, nonzero_of_mem hs⟩) hlt)
    refine ⟨_, hassign, NameRecord.assign_fits hd hassign, rfl, ?_⟩
    rw [texts_rebuild (by rw [List.length_set, hlen]), List.map_set, hchars, texts_of_ne_nil h0]

theorem resize_spec (hd : d.Fits) {n : Nat} (hn : n ≤ d.sz) :
    ∃ d', d.resize n 0 = .ok d' () ∧ d'.Fits ∧ d'.sz = n ∧ texts d' = (texts d).take n := by
  by_cases h0 : d.names.length = 0
  · have hresize : d.resize n 0 = .ok { d with sz := n } () := by
      rw [NameRecord.resize, if_pos h0]
    refine ⟨_, hresize, NameRecord.resize_fits hd hresize, rfl, ?_⟩
    rw [texts_of_nil (d := { d with sz := n }) h0, texts_of_nil h0, List.take_replicate,
      Nat.min_eq_left hn]
  · have hlen : d.names.length = d.sz :=
      hd.full.resolve_left fun hnil => h0 (by rw [hnil, List.length_nil])
    have hresize : d.resize n 0 = .ok (NameRecord.rebuild n (d.names.take n)) () := by
      rw [NameRecord.resize, if_neg h0, if_neg (by omega), List.drop_zero,
        show n - (d.names.length - 0) = 0 by omega, List.replicate_zero, List.append_nil]
    have hn' : (d.names.take n).length = n := by rw [List.length_take, hlen, Nat.min_eq_left hn]
    refine ⟨_, hresize, NameRecord.resize_fits hd hresize, rfl, ?_⟩
    rw [texts_rebuild hn', List.map_take, texts_of_ne_nil h0]

/-- Where the map is exact a name stands for the first element that has it. -/
theorem get_eq_ok (hd : d.Inv) {s : List UInt8} {p : Nat} :
    d.get s = .ok p ↔ s ≠ [] ∧ (texts d).findIdx? (fun t => t = s) = some p := by
  rw [hd.finds s p]
  refine and_congr_right fun hs => ?_
  by_cases h0 : d.names.length = 0
  · have hnone : (List.replicate d.sz ([] : List UInt8)).findIdx? (fun t => t = s) = none := by
      rw [List.findIdx?_eq_none_iff]
      intro t ht
      rw [List.eq_of_mem_replicate ht]
      exact decide_eq_false (Ne.symm hs)
    rw [texts_of_nil h0, hnone, List.eq_nil_of_length_eq_zero h0]
    exact iff_of_false nofun nofun
  · rw [texts_of_ne_nil h0, List.findIdx?_map]
    rfl

end Names

/-! ## Removing one element -/

namespace VList

variable {T : Type}

/-- The list has these elements, with their names. -/
structure Stands (l : VList T) (es : List (T × List UInt8)) : Prop where
  valid : l.Valid
  v : l.v = es.map Prod.fst
  names : texts l.names = es.map Prod.snd

theorem Valid.stands {l : VList T} (h : l.Valid) : l.Stands l.entries := by
  have hlen : (texts l.names).length = l.v.length := by rw [length_texts h.names, h.sz]
  exact ⟨h, (List.map_fst_zip hlen.ge).symm, (List.map_snd_zip hlen.le).symm⟩

theorem Stands.entries {l : VList T} {es : List (T × List UInt8)} (h : l.Stands es) :
    l.entries = es := by
  rw [VList.entries, h.v, h.names, List.zip_map', List.map_id'']
  exact fun _ => rfl

theorem Stands.length {l : VList T} {es : List (T × List UInt8)} (h : l.Stands es) :
    l.v.length = es.length := by
  rw [h.v, List.length_map]

variable {l : VList T} {es : List (T × List UInt8)}

theorem Stands.moveDown (h : l.Stands es) {j : Nat} {y : T × List UInt8}
    (hy : es[j + 1]? = some y) : ∃ l', l.moveDown j = .ok () l' ∧ l'.Stands (es.set j y) := by
  have hv : l.v[j + 1]? = some y.1 := by rw [h.v, List.getElem?_map, hy, Option.map_some]
  have hs : (texts l.names)[j + 1]? = some y.2 := by
    rw [h.names, List.getElem?_map, hy, Option.map_some]
  have hmem := List.mem_of_getElem? hs
  have hj : j < l.names.sz := by
    rw [h.valid.sz, h.length]
    exact Nat.lt_of_succ_lt (List.getElem?_eq_some_iff.mp hy).1
  obtain ⟨d, hassign, hinv, hsz, htexts⟩ :=
    assign_spec h.valid.names hj hmem (h.valid.short y.2 hmem)
  refine ⟨⟨l.v.set j y.1, d⟩, ?_, ⟨hinv, ?_, ?_⟩, ?_, ?_⟩
  · rw [VList.moveDown, hv]
    simp only [text_eq h.valid.names hs, hassign, mapState_ok, bind_ok]
  · rw [hsz, h.valid.sz, List.length_set]
  · intro s hmem'
    rw [htexts] at hmem'
    rcases List.mem_or_eq_of_mem_set hmem' with hold | rfl
    · exact h.valid.short s hold
    · exact h.valid.short _ hmem
  · rw [h.v, List.map_set]
  · rw [htexts, h.names, List.map_set]

theorem Stands.resize (h : l.Stands es) {n : Nat} (hn : n ≤ es.length) :
    ∃ l', l.resize n = .ok () l' ∧ l'.Stands (es.take n) := by
  obtain ⟨d, hresize, hinv, hsz, htexts⟩ :=
    resize_spec h.valid.names (n := n) (by rw [h.valid.sz, h.length]; exact hn)
  refine ⟨⟨l.v.take n, d⟩, ?_, ⟨hinv, ?_, ?_⟩, ?_, ?_⟩
  · simp only [VList.resize, hresize, mapState_ok, bind_ok]
  · rw [hsz, List.length_take, h.length, Nat.min_eq_left hn]
  · intro s hs
    rw [htexts] at hs
    exact h.valid.short s (List.mem_of_mem_take hs)
  · rw [h.v, List.map_take]
  · rw [htexts, h.names, List.map_take]

/-- The loop of `remove` up to the last element. -/
theorem Stands.shiftDown {k j : Nat} (h : l.Stands es) (hk : j + k + 1 = es.length) :
    ∃ l' es', l.shiftDown k j = .ok () l' ∧ l'.Stands es' ∧ es'.length = es.length ∧
      es'.take (j + k) = es.eraseIdx j := by
  induction k generalizing j l es with
  | zero => exact ⟨l, es, rfl, h, rfl, take_eq_eraseIdx hk.ge⟩
  | succ k ih =>
      obtain ⟨y, hy⟩ : ∃ y, es[j + 1]? = some y :=
        ⟨_, List.getElem?_eq_getElem (show j + 1 < es.length by omega)⟩
      obtain ⟨l₁, hmove, h₁⟩ := h.moveDown hy
      obtain ⟨l', es', hrun, h', hlen, htake⟩ :=
        ih (j := j + 1) h₁ (by rw [List.length_set]; omega)
      refine ⟨l', es', ?_, h', hlen.trans List.length_set, ?_⟩
      · rw [VList.shiftDown, hmove, bind_ok, hrun]
      · rw [show j + (k + 1) = j + 1 + k by omega, htake, eraseIdx_set_next hy]

/-- Behind the end it is the last element that goes. -/
theorem Stands.remove (h : l.Stands es) (hne : es ≠ []) (i : Nat) :
    ∃ l', l.remove i = .ok () l' ∧ l'.Stands (es.eraseIdx (min i (es.length - 1))) := by
  have hpos : 0 < es.length := List.length_pos_of_ne_nil hne
  obtain ⟨l₁, es₁, hrun, h₁, hlen, htake⟩ : ∃ l₁ es₁,
      l.shiftDown (es.length - 1 - i) i = .ok () l₁ ∧ l₁.Stands es₁ ∧ es₁.length = es.length ∧
        es₁.take (es.length - 1) = es.eraseIdx (min i (es.length - 1)) := by
    by_cases hi : i ≤ es.length - 1
    · have hspec := h.shiftDown (k := es.length - 1 - i) (j := i) (by omega)
      rw [Nat.min_eq_left hi]
      rwa [show i + (es.length - 1 - i) = es.length - 1 by omega] at hspec
    · rw [show es.length - 1 - i = 0 by omega, Nat.min_eq_right (by omega)]
      exact ⟨l, es, rfl, h, rfl, take_eq_eraseIdx (by omega)⟩
  obtain ⟨l', hresize, h'⟩ := h₁.resize (n := es.length - 1) (by omega)
  refine ⟨l', ?_, htake ▸ h'⟩
  rw [VList.remove, h.length, if_neg hpos.ne', hrun, bind_ok, h₁.length, hlen,
    hresize]

theorem Stands.remove_nil (h : l.Stands []) (i : Nat) : ∃ e, l.remove i = .throw e l := by
  have hv : l.v = [] := h.v
  refine ⟨.rangeError "subscript out of bounds", ?_⟩
  rw [VList.remove, if_pos (by rw [hv, List.length_nil]), VList.moveDown,
    List.getElem?_eq_none (by rw [hv]; exact Nat.zero_le _)]

end VList

end Ztsdb.Arr.ListDelete
