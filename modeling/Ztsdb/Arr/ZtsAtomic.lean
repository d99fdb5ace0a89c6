import Mathlib
import Ztsdb.Arr.ZtsRollback

/-!
# When `zts::append` takes all or nothing

The index and the data are two arrays, so an append that is all or nothing needs more
than each of them being so: what the index took has to be put back when the data
refuses, and when both take, they have to take as many rows.

`Meets` says of a buffer, by the pieces it holds for the columns, when that comes
about. It fails where a read leaves the buffer, where a flag is lost to a piece that
is put back later, where the names refuse after the columns took, and where the
extents, the counts or the order of the times are not what the headers say.
-/

namespace Ztsdb.Arr

open Ztsdb.Lib

namespace Vector

variable {T : Type} (O : T → T → Bool)

/-- Taking the piece does not clear the flag. -/
def KeepsFlag (p : List T × Bool) (c : Vector T) : Prop :=
  p.1 ≠ [] → c.ordered = true → p.2 = true ∧ seam O c.v p.1 = true

theorem joined_flag_eq {p : List T × Bool} {c : Vector T} :
    (c.joined O p).2 = c.ordered ↔ c.KeepsFlag O p := by
  rw [joined, KeepsFlag]
  by_cases hp : p.1 = []
  · simp [hp]
  · have hlen : p.1.length ≠ 0 := fun h => hp (List.eq_nil_of_length_eq_zero h)
    cases hc : c.ordered with
    | false => simp
    | true => simp [hp]

theorem joined_flag_true {p : List T × Bool} {c : Vector T} :
    (c.joined O p).2 = true ↔ c.ordered = true ∧ c.KeepsFlag O p := by
  rw [joined, KeepsFlag]
  by_cases hp : p.1 = []
  · simp [hp]
  · simp only [List.length_eq_zero_iff, hp, if_false, Bool.and_eq_true, ne_eq, not_false_eq_true,
      true_imp_iff]
    tauto

end Vector

namespace Array

open Ztsdb.Arr.Vector

section Pieces

variable {T : Type} (O : T → T → Bool)

/-- No piece clears the flag of its column. -/
def KeepFlags (ps : List (List T × Bool)) (cs : List (Vector T)) : Prop :=
  ∀ q ∈ ps.zip cs, q.2.KeepsFlag O q.1

theorem joined_flags {ps : List (List T × Bool)} {cs : List (Vector T)} :
    (joined O ps cs).map Prod.snd = cs.map (·.ordered) ↔ KeepFlags O ps cs := by
  induction ps generalizing cs with
  | nil =>
      have : joined O [] cs = content cs := by cases cs <;> rfl
      simp [this, content, KeepFlags]
  | cons p ps ih =>
      cases cs with
      | nil => simp [joined, content, KeepFlags]
      | cons c cs =>
          rw [joined, List.map_cons, List.map_cons, List.cons.injEq, joined_flag_eq, ih]
          simp [KeepFlags]

theorem joined_content {ps : List (List T × Bool)} {cs : List (Vector T)}
    (h : ps.length = cs.length) : joined O ps cs = content cs ↔ ∀ p ∈ ps, p.1 = [] := by
  induction ps generalizing cs with
  | nil =>
      have : joined O [] cs = content cs := by cases cs <;> rfl
      simp [this]
  | cons p ps ih =>
      cases cs with
      | nil => cases h
      | cons c cs =>
          rw [joined, content, List.map_cons, List.cons.injEq,
            show cs.map (fun c => (c.v, c.ordered)) = content cs from rfl,
            ih (Nat.succ.inj h), List.forall_mem_cons]
          refine and_congr_left fun _ => ⟨fun hc => ?_, fun hp => ?_⟩
          · simpa [Vector.joined] using congrArg Prod.fst hc
          · simp [Vector.joined, hp]

/-- All columns have `n + k` elements when all had `n` and took `k`. -/
theorem joined_lengths {n k : Nat} {ps : List (List T × Bool)} {cs : List (Vector T)}
    (h : ps.length = cs.length) (hcs : ∀ c ∈ cs, c.size = n) :
    (∀ q ∈ joined O ps cs, q.1.length = n + k) ↔ ∀ p ∈ ps, p.1.length = k := by
  induction ps generalizing cs with
  | nil =>
      cases cs with
      | nil => simp [joined, content]
      | cons c cs => cases h
  | cons p ps ih =>
      cases cs with
      | nil => cases h
      | cons c cs =>
          have hc := hcs c List.mem_cons_self
          rw [joined, List.forall_mem_cons, List.forall_mem_cons,
            ih (Nat.succ.inj h) fun d hd => hcs d (List.mem_cons_of_mem c hd)]
          refine and_congr_left fun _ => ?_
          rw [Vector.joined, List.length_append, show c.v.length = n from hc]
          omega

/-- The index stays in order with the pieces behind its columns. -/
def KeepOrder (ps : List (List T × Bool)) (cs : List (Vector T)) : Prop :=
  ∀ q ∈ ps.zip cs, q.2.ordered = true ∧ q.2.KeepsFlag O q.1

theorem joined_ordered {ps : List (List T × Bool)} {cs : List (Vector T)}
    (h : ps.length = cs.length) :
    (∀ q ∈ joined O ps cs, q.2 = true) ↔ KeepOrder O ps cs := by
  induction ps generalizing cs with
  | nil =>
      cases cs with
      | nil => simp [joined, content, KeepOrder]
      | cons c cs => cases h
  | cons p ps ih =>
      cases cs with
      | nil => cases h
      | cons c cs =>
          rw [joined, List.forall_mem_cons, ih (Nat.succ.inj h), joined_flag_true]
          simp [KeepOrder]

theorem content_eq_iff {cs cs' : List (Vector T)} : content cs' = content cs ↔
    cs'.map (·.v) = cs.map (·.v) ∧ cs'.map (·.ordered) = cs.map (·.ordered) := by
  induction cs' generalizing cs with
  | nil => cases cs <;> simp [content]
  | cons c' cs' ih =>
      cases cs with
      | nil => simp [content]
      | cons c cs =>
          rw [content, content, List.map_cons, List.map_cons, List.cons.injEq, Prod.mk.injEq]
          have := @ih cs
          rw [content, content] at this
          rw [this, List.map_cons, List.map_cons, List.map_cons, List.map_cons,
            List.cons.injEq, List.cons.injEq]
          tauto

theorem Taken.nrows_eq {heap : Allocator} {ps : List (List T × Bool)} {rows : Nat}
    {a a' : Array T} (h : Taken O heap ps rows a a') (ha : a.dim.v ≠ []) :
    a'.nrows = (a.nrows + rows) % 2 ^ 64 := by
  obtain ⟨d, ds, hd⟩ := List.exists_cons_of_ne_nil ha
  rw [nrows, nrows, h.dim, hd]
  show (d + UInt64.ofNat rows).toNat = _
  rw [UInt64.toNat_add, UInt64.toNat_ofNat', Nat.add_mod_mod]

theorem scanRows_lt {heap : Allocator} {mem : List UInt8} {a : Array T} {rows : Nat} {u : Unit}
    (h : a.scanRows heap mem = .ok rows u) : rows < 2 ^ 64 := by
  unfold scanRows at h
  split at h
  · next hrows hn =>
      obtain ⟨_, _, _, heq⟩ := Outcome.bind_eq_ok.1 h
      cases heq
      exact readWord_lt hrows
  · cases h

end Pieces

variable {T : Type} [Raw T] (O : T → T → Bool)

theorem scanCols_taken_length {mem : List UInt8} {cs : List (Vector T)} {offset next : Nat}
    {ps : List (List T × Bool)} (h : scanCols mem offset cs = .taken ps next) :
    ps.length = cs.length := by
  induction cs generalizing offset ps with
  | nil =>
      cases h
      rfl
  | cons c cs ih =>
      rw [scanCols] at h
      split at h
      · cases h
      · split at h
        · cases h
        · cases h
        · split at h
          · cases h
          · cases h
          · next hs =>
              cases h
              rw [List.length_cons, List.length_cons, ih hs]

theorem scan_taken_length {mem : List UInt8} {a : Array T} {ps : List (List T × Bool)}
    {next : Nat} (h : a.scan mem = .taken ps next) : ps.length = a.v.length := by
  unfold scan at h
  split at h
  · cases h
  · split at h
    · cases h
    · split at h
      · cases h
      · cases h
      · exact scanCols_taken_length h

/-- An array with one column refuses before that column takes anything. -/
theorem scan_refused_of_one {mem : List UInt8} {a : Array T} {c : Vector T}
    {ps : List (List T × Bool)} (hc : a.v = [c]) (h : a.scan mem = .refused ps) : ps = [] := by
  unfold scan at h
  split at h
  · cases h
    rfl
  · split at h
    · cases h
    · split at h
      · cases h
      · cases h
        rfl
      · rw [hc, scanCols] at h
        split at h
        · cases h
        · split at h
          · cases h
          · cases h
            rfl
          · cases h

theorem setv_head {U : Type} (P : U → U → Bool) (x : U) {s : Vector U} {y : U} {ys : List U}
    (h : s.v = y :: ys) : ∃ s', Vector.setv P 0 x s = .ok () s' ∧ s'.v = x :: ys := by
  rw [setv, if_neg (by rw [Vector.size, h, List.length_cons]; omega)]
  exact ⟨_, rfl, by rw [h]; rfl⟩

/-- The first dimension goes back to the rows it had, the elements of the columns too;
their flags stay as they are. -/
theorem resize_back (heap : Allocator) {a a' : Array T} {d : idx_type} {ds : List idx_type}
    {nm' nm'' : Dname} {nms : List Dname} (hw : Flat.width T = 8)
    (hcs : ∀ c ∈ a.v, c.Hosted ∧ c.size = a.nrows) (hv : a.v ≠ [])
    (hext : List.Forall₂ Extends a.v a'.v) (hd : a.dim.v = d :: ds)
    (hd' : ∃ e, a'.dim.v = e :: ds) (hn : a'.names = nm' :: nms)
    (hback : nm'.resize a.nrows 0 = .ok () nm'') :
    ∃ a'', a'.resize O heap a.nrows 0 = .ok () a'' ∧ a''.dim.v = a.dim.v ∧
      a''.v.map (·.v) = a.v.map (·.v) ∧ a''.v.map (·.ordered) = a'.v.map (·.ordered) := by
  obtain ⟨e, he⟩ := hd'
  obtain ⟨cs'', hcs'', hvs, hords⟩ := resizeCols_back hw hcs hext
  obtain ⟨c', cs', hv'⟩ : ∃ c' cs', a'.v = c' :: cs' := by
    apply List.exists_cons_of_ne_nil
    intro hnil
    rw [hnil] at hext
    exact hv (List.forall₂_nil_right_iff.1 hext)
  obtain ⟨dim'', hset, hdim⟩ := setv_head lessIdx (UInt64.ofNat a.nrows) he
  refine ⟨{ a' with v := cs'', dim := dim'', names := nm'' :: nms }, ?_, ?_, hvs, hords⟩
  · rw [resize, resizeNull, he, Outcome.bind_ok, resizeNoCols, hv', Outcome.bind_ok,
      hcs'', Outcome.mapState_ok, Outcome.bind_ok]
    simp only
    rw [hset, Outcome.mapState_ok, Outcome.bind_ok]
    simp only [hn]
    rw [hback, Outcome.mapState_ok]
  · show dim''.v = a.dim.v
    rw [hdim, hd, nrows, hd, UInt64.ofNat_toNat]

theorem scanCols_taken_le {mem : List UInt8} {cs : List (Vector T)} {offset next : Nat}
    {ps : List (List T × Bool)} (h : scanCols mem offset cs = .taken ps next) :
    ∀ p ∈ ps, p.1.length ≤ mem.length := by
  induction cs generalizing offset ps with
  | nil =>
      cases h
      intro p hp
      cases hp
  | cons c cs ih =>
      rw [scanCols] at h
      split at h
      · cases h
      · split at h
        · cases h
        · cases h
        · next n flag hv =>
            split at h
            · cases h
            · cases h
            · next hs =>
                cases h
                have hle := le_of_verdict_taken hv
                have hn := Nat.le_mul_of_pos_right n (Flat.width_pos (T := T))
                rw [List.length_drop] at hle
                rw [List.forall_mem_cons]
                refine ⟨?_, ih hs⟩
                rw [piece, Flat.length_decode]
                omega

theorem scan_taken_le {mem : List UInt8} {a : Array T} {ps : List (List T × Bool)}
    {next : Nat} (h : a.scan mem = .taken ps next) : ∀ p ∈ ps, p.1.length ≤ mem.length := by
  unfold scan at h
  split at h
  · cases h
  · split at h
    · cases h
    · split at h
      · cases h
      · cases h
      · exact scanCols_taken_le h

/-- Nothing is read where there is no memory. -/
theorem append_outside (heap : Allocator) {a : Array T} {len : Nat} (h : a.dim.v ≠ []) :
    a.append O heap [] len = .fault := by
  obtain ⟨d, ds, hd⟩ := List.exists_cons_of_ne_nil h
  rw [append, hd]
  rfl

end Array

namespace zts

open Ztsdb.Arr.Vector Ztsdb.Arr.Array

/-- The index is one column of strictly ascending times, and the data has as many rows. -/
structure Matched (z : zts) : Prop where
  vector : ∃ n, z.idx.dim.v = [n]
  column : ∃ c, z.idx.v = [c]
  idxRows : ∀ c ∈ z.idx.v, c.size = z.idx.nrows
  aRows : ∀ c ∈ z.a.v, c.size = z.a.nrows
  rows : z.a.nrows = z.idx.nrows
  ascending : ∀ c ∈ z.idx.v, c.v.IsChain fun s t => dtime.less s t = true
  idxNames : z.idx.names.length = z.idx.dim.size
  aNames : z.a.names.length = z.a.dim.size

/-- The columns are in the memory of a machine, and the names of the index can be cut
back after they were extended. -/
structure Hosted (heap : Allocator) (z : zts) : Prop where
  idxCols : ∀ c ∈ z.idx.v, c.Hosted
  aCols : ∀ c ∈ z.a.v, c.Hosted
  names : ∀ nm ∈ z.idx.names, ∀ rows nm', nm.addrows heap rows = .ok () nm' →
    ∃ nm'', nm'.resize z.idx.nrows 0 = .ok () nm''

/-- All columns and both extents are as long, and the times ascend. -/
structure Aligned (z : zts) : Prop where
  idxRows : ∀ c ∈ z.idx.v, c.size = z.idx.nrows
  aRows : ∀ c ∈ z.a.v, c.size = z.a.nrows
  rows : z.a.nrows = z.idx.nrows
  ascending : ∀ c ∈ z.idx.v, c.v.IsChain fun s t => dtime.less s t = true

/-- The elements, the flags and the extents are those of `z`. -/
structure Same (z z' : zts) : Prop where
  idx : content z'.idx.v = content z.idx.v
  a : content z'.a.v = content z.a.v
  idxDim : z'.idx.dim.v = z.idx.dim.v
  aDim : z'.a.dim.v = z.a.dim.v

/-- `append` of all of `mem` takes it or leaves no trace. -/
def AllOrNothing (heap : Allocator) (mem : List UInt8) (z : zts) : Prop :=
  (z.append heap mem mem.length).Holds (fun _ z' => z'.Aligned) fun _ z' => z.Same z'

/-- The rest of the buffer holds for the data as many rows as `ts`, all of them
announced, or is refused before a flag is lost. -/
def DataMeets (heap : Allocator) (mem : List UInt8) (rows : Nat) (ts : List (List dtime × Bool))
    (a : Array Double) : Prop :=
  match a.scan mem with
  | .fault => False
  | .refused ps => KeepFlags Double.less ps a.v
  | .taken ps _ =>
    match a.scanRows heap mem with
    | .fault => False
    | .throw _ _ => ∀ p ∈ ps, p.1 = []
    | .ok rows' _ => rows' = rows ∧ (∀ p ∈ ps, p.1.length = rows) ∧
        ∀ p ∈ ts, p.1.length = rows ∧ p.1.IsChain fun s t => dtime.less s t = true

/-- The buffer is one that the index and the data both take, or that leaves no trace. -/
def ReadMeets (heap : Allocator) (mem : List UInt8) (z : zts) : Prop :=
  match z.idx.scan mem with
  | .fault => False
  | .refused _ => True
  | .taken ts offset =>
    match z.idx.scanRows heap mem with
    | .fault => False
    | .throw _ _ => ∀ p ∈ ts, p.1 = []
    | .ok rows _ =>
      (KeepOrder dtime.less ts z.idx.v → DataMeets heap (mem.drop offset) rows ts z.a) ∧
        (¬ KeepOrder dtime.less ts z.idx.v → ∀ c ∈ z.idx.v, c.ordered = true)

/-- The condition under which `append` is all or nothing; null data takes nothing. -/
def Meets (heap : Allocator) (mem : List UInt8) (z : zts) : Prop :=
  z.a.dim.v = [] ∨ z.ReadMeets heap mem

/-- What `append` does once the index has taken its part: `i` is that index. -/
def appendData (heap : Allocator) (mem : List UInt8) (buflen : Nat) (z : zts)
    (i : Array dtime) : Outcome Exn zts Nat :=
  if i.isOrdered then
    ((z.a.append Double.less heap mem buflen).mapState fun a => { z with idx := i, a }).tryCatch
      fun e z' => ((z'.idx.resize dtime.less heap z'.a.nrows 0).mapState
        fun idx => { z' with idx }).bind fun _ z' => .throw e z'
  else
    (((i.resize dtime.less heap z.a.nrows 0).bind fun _ idx =>
      forceOrdered idx).mapState fun idx => { z with idx }).bind fun _ z =>
        .throw (.rangeError "index not ascending") z

theorem append_eq_appendData {heap : Allocator} {mem : List UInt8} {z : zts} {i : Array dtime}
    {offset : Nat} (ha : z.a.dim.v ≠ []) (hmem : mem.length < 2 ^ 62)
    (h : z.idx.append dtime.less heap mem mem.length = .ok offset i) :
    z.append heap mem mem.length =
      appendData heap (mem.drop offset) (mem.drop offset).length z i := by
  have hnull : ¬ z.a.dim.size = 0 := fun h0 => ha (List.eq_nil_of_length_eq_zero h0)
  rw [append, if_neg hnull, h, Outcome.mapState_ok, Outcome.bind_ok, appendData]
  simp only [Outcome.mapState]
  by_cases hout : mem.length < offset
  · rw [List.drop_eq_nil_of_le hout.le, append_outside _ _ ha, append_outside _ _ ha]
  · rw [List.length_drop, wsub_of_le (by omega) (by omega)]

/-- The index goes back to the rows it had; its flag stays. -/
theorem resize_idx_back {heap : Allocator} {z : zts} {i : Array dtime} {rows : Nat}
    {ts : List (List dtime × Bool)} (hz : z.Matched) (hh : z.Hosted heap)
    (hi : Taken dtime.less heap ts rows z.idx i) :
    ∃ i', i.resize dtime.less heap z.a.nrows 0 = .ok () i' ∧ i'.dim.v = z.idx.dim.v ∧
      i'.v.map (·.v) = z.idx.v.map (·.v) ∧ i'.v.map (·.ordered) = i.v.map (·.ordered) := by
  obtain ⟨nm, nms, nm', hn, hadd, hn'⟩ := hi.names
  obtain ⟨nm'', hback⟩ := hh.names nm (by rw [hn]; exact List.mem_cons_self) rows nm' hadd
  obtain ⟨d, hd⟩ := hz.vector
  obtain ⟨c, hc⟩ := hz.column
  rw [hz.rows]
  exact Array.resize_back dtime.less heap rfl (fun c hc => ⟨hh.idxCols c hc, hz.idxRows c hc⟩)
    (by rw [hc]; exact List.cons_ne_nil c []) hi.extended hd ⟨_, by rw [hi.dim, hd]; rfl⟩ hn'
    hback

theorem isOrdered_iff {heap : Allocator} {z : zts} {i : Array dtime} {rows : Nat}
    {ts : List (List dtime × Bool)} (hts : ts.length = z.idx.v.length)
    (hi : Taken dtime.less heap ts rows z.idx i) :
    i.isOrdered = true ↔ KeepOrder dtime.less ts z.idx.v := by
  rw [isOrdered, List.all_eq_true, ← joined_ordered _ hts, ← hi.cols, content,
    List.forall_mem_map]

/-- An index out of order is refused, and its flag set. -/
theorem appendData_unordered {heap : Allocator} {mem : List UInt8} {z : zts} {i : Array dtime}
    {rows : Nat} {ts : List (List dtime × Bool)} (hz : z.Matched) (hh : z.Hosted heap)
    (hts : ts.length = z.idx.v.length) (hi : Taken dtime.less heap ts rows z.idx i)
    (hord : ¬ KeepOrder dtime.less ts z.idx.v) :
    (appendData heap mem mem.length z i).Holds (fun _ z' => z'.Aligned)
      (fun _ z' => z.Same z') ↔ ∀ c ∈ z.idx.v, c.ordered = true := by
  obtain ⟨i', hi', hdim, hv, -⟩ := resize_idx_back hz hh hi
  obtain ⟨c, hc⟩ := hz.column
  rw [hc, List.map_singleton] at hv
  obtain ⟨c', hc', hcv⟩ := List.map_eq_singleton_iff.1 hv
  rw [appendData, if_neg (by rw [isOrdered_iff hts hi]; exact hord), hi', Outcome.bind_ok,
    forceOrdered, hc', Outcome.mapState_ok, Outcome.bind_ok, Outcome.holds_throw]
  refine ⟨fun h => ?_, fun h => ⟨?_, rfl, hdim, rfl⟩⟩
  · have := h.idx
    rw [hc, content_eq_iff] at this
    have hflag := this.2
    rw [hc, List.forall_mem_singleton]
    exact (List.cons.inj hflag).1.symm
  · rw [hc, content_eq_iff]
    refine ⟨by simp [hcv], ?_⟩
    have := h c (by rw [hc]; exact List.mem_singleton_self c)
    simp [this]

/-- After both took: every count is the one that was announced, and the times ascend. -/
theorem aligned_iff {heap : Allocator} {z : zts} {i : Array dtime} {a : Array Double}
    {rows rows' : Nat} {ts : List (List dtime × Bool)} {ps : List (List Double × Bool)}
    (hz : z.Matched) (hh : z.Hosted heap) (ha : z.a.dim.v ≠ [])
    (hi : Taken dtime.less heap ts rows z.idx i) (hd : Taken Double.less heap ps rows' z.a a)
    (hts : ts.length = z.idx.v.length) (hps : ps.length = z.a.v.length)
    (hord : KeepOrder dtime.less ts z.idx.v) (hsmall : ∀ p ∈ ts, p.1.length < 2 ^ 62)
    (hrows : rows < 2 ^ 64) (hrows' : rows' < 2 ^ 64) :
    Aligned { idx := i, a } ↔ rows' = rows ∧ (∀ p ∈ ps, p.1.length = rows) ∧
      ∀ p ∈ ts, p.1.length = rows ∧ p.1.IsChain fun s t => dtime.less s t = true := by
  obtain ⟨n, hn⟩ := hz.vector
  obtain ⟨c, hc⟩ := hz.column
  have hcm : c ∈ z.idx.v := by rw [hc]; exact List.mem_singleton_self c
  rw [hc] at hts
  obtain ⟨p, hp⟩ := List.length_eq_one_iff.1 hts
  have hcols := hi.cols
  rw [hp, hc] at hcols
  obtain ⟨c', hc', heq⟩ := List.map_eq_singleton_iff.1 hcols
  have hv : c'.v = c.v ++ p.1 := congrArg Prod.fst heq
  have hlen := hsmall p (by rw [hp]; exact List.mem_singleton_self p)
  have hsize : c.v.length = z.idx.nrows := hz.idxRows c hcm
  -- a block is small, so no sum of a length and a count wraps
  have hfit := (hh.idxCols c hcm).fits
  have hblock := (hh.idxCols c hcm).block
  rw [Fits, show Flat.width dtime = 8 from rfl, Vector.size] at hfit
  have hni := hi.nrows_eq dtime.less (by rw [hn]; exact List.cons_ne_nil n [])
  have hna := hd.nrows_eq Double.less ha
  rw [hz.rows] at hna
  have hlt : z.idx.nrows < 2 ^ 62 := by omega
  have hone : (c.v.length + p.1.length = i.nrows) ↔ p.1.length = rows := by
    rw [hni, hsize]
    omega
  have hboth : (a.nrows = i.nrows) ↔ rows' = rows := by
    rw [hni, hna]
    omega
  have hchain : (c.v ++ p.1).IsChain (fun s t => dtime.less s t = true) ↔
      p.1.IsChain fun s t => dtime.less s t = true := by
    rw [isChain_append_seam]
    refine ⟨fun h => h.2.1, fun h => ⟨hz.ascending c hcm, h, ?_⟩⟩
    by_cases hnil : p.1 = []
    · rw [hnil]
      cases c.v <;> rfl
    · have := hord (p, c) (by rw [hp, hc]; exact List.mem_singleton_self _)
      exact (this.2 hnil this.1).2
  have hdata : p.1.length = rows → rows' = rows →
      ((∀ d ∈ a.v, d.size = a.nrows) ↔ ∀ q ∈ ps, q.1.length = rows) := by
    intro hk hr
    have : a.nrows = z.a.nrows + rows := by
      rw [hna, hz.rows, hr]
      omega
    rw [← joined_lengths Double.less hps hz.aRows, ← hd.cols, content, List.forall_mem_map, this]
    rfl
  rw [hp, List.forall_mem_singleton]
  refine ⟨fun h => ?_, fun h => ?_⟩
  · have hi' := h.idxRows c' (by rw [hc']; exact List.mem_singleton_self c')
    rw [Vector.size, hv, List.length_append, hone] at hi'
    have hr := hboth.1 h.rows
    refine ⟨hr, (hdata hi' hr).1 h.aRows, hi', ?_⟩
    have := h.ascending c' (by rw [hc']; exact List.mem_singleton_self c')
    rwa [hv, hchain] at this
  · obtain ⟨hr, hps, hk, hasc⟩ := h
    refine ⟨?_, (hdata hk hr).2 hps, hboth.2 hr, ?_⟩
    · rw [hc', List.forall_mem_singleton, Vector.size, hv, List.length_append]
      exact hone.2 hk
    · rw [hc', List.forall_mem_singleton, hv, hchain]
      exact hasc

/-- An index in order: the data decides. -/
theorem appendData_ordered {heap : Allocator} {mem : List UInt8} {z : zts} {i : Array dtime}
    {rows : Nat} {ts : List (List dtime × Bool)} (hz : z.Matched) (hh : z.Hosted heap)
    (ha : z.a.dim.v ≠ []) (hmem : mem.length < 2 ^ 62) (hts : ts.length = z.idx.v.length)
    (hi : Taken dtime.less heap ts rows z.idx i) (hord : KeepOrder dtime.less ts z.idx.v)
    (hsmall : ∀ p ∈ ts, p.1.length < 2 ^ 62) (hrows : rows < 2 ^ 64) :
    (appendData heap mem mem.length z i).Holds (fun _ z' => z'.Aligned)
      (fun _ z' => z.Same z') ↔ DataMeets heap mem rows ts z.a := by
  obtain ⟨i', hi', hdim, hv, hflags⟩ := resize_idx_back hz hh hi
  have hordered := (isOrdered_iff hts hi).2 hord
  -- the index after the rollback
  have hidx : content i'.v = content z.idx.v := by
    refine content_eq_iff.2 ⟨hv, ?_⟩
    have := (joined_flags dtime.less).2 fun q hq => (hord q hq).2
    rw [hflags, ← this, ← hi.cols, content, List.map_map]
    rfl
  have hcols : ∀ c ∈ z.a.v, c.Hosted ∧ c.size = z.a.nrows :=
    fun c hc => ⟨hh.aCols c hc, hz.aRows c hc⟩
  have hnames : z.a.dim.v ≠ [] → z.a.names ≠ [] := by
    intro h hn
    have := hz.aNames
    rw [hn, Vector.size] at this
    exact h (List.eq_nil_of_length_eq_zero this.symm)
  have hscan := append_of_scan Double.less heap mem rfl hcols hnames hmem
  rw [appendData, if_pos hordered, DataMeets]
  cases hs : z.a.scan mem with
  | fault =>
      simp only [hs] at hscan ⊢
      rw [hscan]
      rfl
  | refused ps =>
      simp only [hs] at hscan ⊢
      obtain ⟨e, a', hthrow, hd', hv', hf'⟩ := hscan
      rw [hthrow, Outcome.mapState_throw, Outcome.tryCatch_throw]
      simp only [show a'.nrows = z.a.nrows by rw [nrows, nrows, hd'], hi']
      rw [Outcome.mapState_ok, Outcome.bind_ok, Outcome.holds_throw, ← joined_flags, ← hf']
      refine ⟨fun h => (content_eq_iff.1 h.a).2, fun h => ?_⟩
      exact ⟨hidx, content_eq_iff.2 ⟨hv', h⟩, hdim, congrArg Vector.v hd'⟩
  | taken ps offset =>
      have hps := scan_taken_length hs
      simp only [hs] at hscan ⊢
      cases hr : z.a.scanRows heap mem with
      | fault =>
          simp only [hr] at hscan ⊢
          rw [hscan]
          rfl
      | throw e u =>
          simp only [hr] at hscan ⊢
          obtain ⟨a', hthrow, hd', hcont⟩ := hscan
          rw [hthrow, Outcome.mapState_throw, Outcome.tryCatch_throw]
          simp only [show a'.nrows = z.a.nrows by rw [nrows, nrows, hd'], hi']
          rw [Outcome.mapState_ok, Outcome.bind_ok, Outcome.holds_throw,
            ← joined_content Double.less hps, ← hcont]
          exact ⟨fun h => h.a, fun h => ⟨hidx, h, hdim, congrArg Vector.v hd'⟩⟩
      | ok rows' u =>
          simp only [hr] at hscan ⊢
          obtain ⟨a', hok, htaken⟩ := hscan
          rw [hok, Outcome.mapState_ok, Outcome.tryCatch_ok, Outcome.holds_ok]
          exact aligned_iff hz hh ha hi htaken hts hps hord hsmall hrows (scanRows_lt hr)

/-- The append to data that is not null, part by part. -/
theorem holds_append_iff {heap : Allocator} {mem : List UInt8} {z : zts} (ha : z.a.dim.v ≠ [])
    (hz : z.Matched) (hh : z.Hosted heap) (hmem : mem.length < 2 ^ 62) :
    (z.append heap mem mem.length).Holds (fun _ z' => z'.Aligned) (fun _ z' => z.Same z') ↔
      z.ReadMeets heap mem := by
  rw [ReadMeets]
  obtain ⟨c, hc⟩ := hz.column
  have hnull : ¬ z.a.dim.size = 0 := fun h0 => ha (List.eq_nil_of_length_eq_zero h0)
  have hcols : ∀ c ∈ z.idx.v, c.Hosted ∧ c.size = z.idx.nrows :=
    fun c hc => ⟨hh.idxCols c hc, hz.idxRows c hc⟩
  have hnames : z.idx.dim.v ≠ [] → z.idx.names ≠ [] := by
    intro h hn
    have := hz.idxNames
    rw [hn, Vector.size] at this
    exact h (List.eq_nil_of_length_eq_zero this.symm)
  have hscan := append_of_scan dtime.less heap mem rfl hcols hnames hmem
  cases hs : z.idx.scan mem with
  | fault =>
      simp only [hs] at hscan ⊢
      rw [append, if_neg hnull, hscan]
      rfl
  | refused ps =>
      simp only [hs] at hscan ⊢
      obtain ⟨e, i, hthrow, hd', hv', hf'⟩ := hscan
      rw [append, if_neg hnull, hthrow, Outcome.mapState_throw, Outcome.bind_throw,
        Outcome.holds_throw, iff_true]
      rw [scan_refused_of_one hc hs, hc] at hf'
      refine ⟨content_eq_iff.2 ⟨hv', ?_⟩, rfl, congrArg Vector.v hd', rfl⟩
      rw [hf', hc]
      rfl
  | taken ts offset =>
      have hts := scan_taken_length hs
      have hle := scan_taken_le hs
      simp only [hs] at hscan ⊢
      cases hr : z.idx.scanRows heap mem with
      | fault =>
          simp only [hr] at hscan ⊢
          rw [append, if_neg hnull, hscan]
          rfl
      | throw e u =>
          simp only [hr] at hscan ⊢
          obtain ⟨i, hthrow, hd', hcont⟩ := hscan
          rw [append, if_neg hnull, hthrow, Outcome.mapState_throw, Outcome.bind_throw,
            Outcome.holds_throw, ← joined_content dtime.less hts, ← hcont]
          exact ⟨fun h => h.idx, fun h => ⟨h, rfl, congrArg Vector.v hd', rfl⟩⟩
      | ok rows u =>
          simp only [hr] at hscan ⊢
          obtain ⟨i, hok, hi⟩ := hscan
          rw [append_eq_appendData ha hmem hok]
          have hdrop : (mem.drop offset).length < 2 ^ 62 := by
            rw [List.length_drop]
            omega
          by_cases hord : KeepOrder dtime.less ts z.idx.v
          · rw [appendData_ordered hz hh ha hdrop hts hi hord
              (fun p hp => Nat.lt_of_le_of_lt (hle p hp) hmem) (scanRows_lt hr)]
            exact ⟨fun h => ⟨fun _ => h, fun hno => absurd hord hno⟩, fun h => h.1 hord⟩
          · rw [appendData_unordered hz hh hts hi hord]
            exact ⟨fun h => ⟨fun hyes => absurd hyes hord, fun _ => h⟩, fun h => h.2 hord⟩

theorem append_null {heap : Allocator} {mem : List UInt8} {buflen : Nat} {z : zts}
    (ha : z.a.dim.v = []) : z.append heap mem buflen =
      .throw (.outOfRange "append on null zts not implemented") z := by
  rw [append, if_pos (by rw [Vector.size, ha]; rfl)]

/-- An append takes all or nothing exactly when the buffer meets the condition. -/
theorem allOrNothing_iff_meets (heap : Allocator) (mem : List UInt8) (z : zts)
    (hz : z.Matched) (hh : z.Hosted heap) (hmem : mem.length < 2 ^ 62) :
    z.AllOrNothing heap mem ↔ z.Meets heap mem := by
  rw [AllOrNothing, Meets]
  by_cases ha : z.a.dim.v = []
  · rw [append_null ha, Outcome.holds_throw]
    exact ⟨fun _ => .inl ha, fun _ => ⟨rfl, rfl, rfl, rfl⟩⟩
  · rw [or_iff_right ha, holds_append_iff ha hz hh hmem]

/-- Any series of a few rows of one column is matched. -/
theorem matched_seriesOf {times : List dtime} {values : List Double}
    (hlen : times.length = values.length) (hlt : times.length < 2 ^ 64)
    (hasc : times.IsChain fun s t => dtime.less s t = true) :
    (seriesOf times values).Matched := by
  have ht := (coherent_vectorOf dtime.less hlt).rows
  have hv := (coherent_vectorOf Double.less (l := values) (hlen ▸ hlt)).rows
  refine ⟨⟨_, rfl⟩, ⟨_, rfl⟩, ht, hv, ?_, ?_, rfl, rfl⟩
  · show (UInt64.ofNat values.length).toNat = (UInt64.ofNat times.length).toNat
    rw [hlen]
  · intro c hc
    rw [List.mem_singleton.1 hc]
    exact hasc

theorem hosted_columnOf {T : Type} [Raw T] (O : T → T → Bool) {l : List T}
    (hw : Flat.width T = 8) (hl : l.length < 512) : (columnOf O l).Hosted := by
  have h24 : sizeofRawVector = 24 := rfl
  refine ⟨?_, ?_, plentiful, rfl, ?_, ?_⟩
  · show sizeofRawVector + l.length * Flat.width T ≤ sizeofRawVector + 1024 * Flat.width T
    rw [hw]
    omega
  · show sizeofRawVector + 1024 * Flat.width T < 2 ^ 62
    rw [hw]
    omega
  · intro off n hg
    have := (of_decide_eq_true hg).2
    omega
  · show plentiful.grant 0 (memsize (Flat.width T) (growCapacity l.length)) = true
    rw [hw, growCapacity_of_le (by simp only [sizeMax]; omega), if_pos hl]
    rfl

theorem hosted_seriesOf {times : List dtime} {values : List Double}
    (ht : times.length < 512) (hv : values.length < 512) :
    (seriesOf times values).Hosted plentiful := by
  refine ⟨?_, ?_, ?_⟩
  · intro c hc
    rw [List.mem_singleton.1 hc]
    exact hosted_columnOf _ rfl ht
  · intro c hc
    rw [List.mem_singleton.1 hc]
    exact hosted_columnOf _ rfl hv
  · intro nm hnm rows nm' hadd
    rw [List.mem_singleton.1 hnm] at hadd
    cases hadd
    exact ⟨_, rfl⟩

/-- Two extents that differ, the second of them a new one, are neither end of an append. -/
theorem not_holds_of_rows {z : zts} {o : Outcome Exn zts Nat} {m n : Nat}
    (h : o.state?.map (fun z' => (z'.idx.nrows, z'.a.nrows)) = some (m, n)) (hmn : m ≠ n)
    (hn : n ≠ z.a.nrows) : ¬ o.Holds (fun _ z' => z'.Aligned) fun _ z' => z.Same z' := by
  intro hholds
  cases o with
  | ok k z' =>
      obtain ⟨hidx, ha⟩ := Prod.mk.inj (Option.some.inj h)
      exact hmn (by rw [← hidx, ← ha, hholds.rows])
  | throw e z' =>
      obtain ⟨-, ha⟩ := Prod.mk.inj (Option.some.inj h)
      exact hn (by rw [← ha, nrows, nrows, hholds.aDim])
  | fault => exact hholds

/-- One row, in a message whose data announces two. -/
def twoAnnounced : List UInt8 :=
  (vectorOf dtime.less [⟨2⟩]).toBuffer ++
    { vectorOf Double.less [⟨4⟩] with dim := columnOf lessIdx [2] }.toBuffer

theorem not_allOrNothing_twoAnnounced :
    (seriesOf [⟨1⟩] [⟨5⟩]).Matched ∧ (seriesOf [⟨1⟩] [⟨5⟩]).idx.isOrdered = true ∧
      ¬ (seriesOf [⟨1⟩] [⟨5⟩]).AllOrNothing plentiful twoAnnounced := by
  have hrun : ((seriesOf [⟨1⟩] [⟨5⟩]).append plentiful twoAnnounced
      twoAnnounced.length).state?.map (fun z' => (z'.idx.nrows, z'.a.nrows)) = some (2, 3) := by
    decide +kernel
  refine ⟨matched_seriesOf rfl (by decide) (List.isChain_singleton _), rfl, ?_⟩
  exact not_holds_of_rows hrun (by decide) (by decide)

theorem allOrNothing_iff_meets_one :
    (seriesOf [⟨1⟩] [⟨5⟩]).AllOrNothing plentiful ((seriesOf [⟨2⟩] [⟨4⟩]).toBuffer 0) ↔
      (seriesOf [⟨1⟩] [⟨5⟩]).Meets plentiful ((seriesOf [⟨2⟩] [⟨4⟩]).toBuffer 0) :=
  allOrNothing_iff_meets plentiful _ _
    (matched_seriesOf rfl (by decide) (List.isChain_singleton _))
    (hosted_seriesOf (by decide) (by decide)) (by
      rw [toBuffer, List.length_append, List.length_append, seriesOf, length_vectorOf,
        length_vectorOf]
      decide)

end zts

end Ztsdb.Arr
