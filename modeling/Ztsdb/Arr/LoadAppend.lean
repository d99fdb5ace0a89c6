import Mathlib
import Ztsdb.Arr.Load

/-!
# Appending to a series of files

A vector that is appended to is resized first, and a resize asks for memory whatever the
capacity is. The file of a vector that was loaded cannot be made longer, so the request is
refused: a series that was loaded never gets an element.
-/

namespace Ztsdb.Arr

open Ztsdb.Lib

variable {T : Type} [Raw T]

namespace Vector

/-- A vector that gets no more memory. -/
structure Stuck (s : Vector T) : Prop where
  alloc : s.alloc = some mmapallocator
  small : s.size < 2 ^ 64

/-- The elements, the flag and the memory of `s`. -/
structure Rests (s s' : Vector T) : Prop extends Same s s' where
  alloc : s'.alloc = s.alloc

omit [Raw T] in
theorem Rests.refl (s : Vector T) : s.Rests s := ⟨⟨rfl, rfl⟩, rfl⟩

omit [Raw T] in
theorem Rests.trans {s t u : Vector T} (h : s.Rests t) (h' : t.Rests u) : s.Rests u :=
  ⟨⟨h'.v.trans h.v, h'.ordered.trans h.ordered⟩, h'.alloc.trans h.alloc⟩

omit [Raw T] in
theorem Rests.stuck {s s' : Vector T} (h : s.Rests s') (hs : s.Stuck) : s'.Stuck where
  alloc := h.alloc.trans hs.alloc
  small := by
    rw [size, h.v]
    exact hs.small

/-- A new size asks for memory, whatever the capacity is, and is refused. -/
theorem Stuck.resize_rests {s : Vector T} (hs : s.Stuck) (n : Nat) : (s.resize n 0).Keeps s.Rests := by
  by_cases hn : n = s.size
  · rw [hn, resize_same]
    exact Outcome.keeps_ok (Rests.refl s)
  · rw [resize_refused (Nat.zero_le _) (.inr hn) hs.alloc rfl]
    exact Outcome.keeps_throw ⟨⟨rfl, rfl⟩, rfl⟩

variable (O : T → T → Bool)

theorem Stuck.appendElts_rests {s : Vector T} (hs : s.Stuck) {n : Nat} (hn : n < 2 ^ 64)
    (mem : List UInt8) (ordered : Bool) : (s.appendElts O mem n ordered).Keeps s.Rests := by
  rw [appendElts]
  by_cases h0 : n = 0
  · rw [h0, Nat.add_zero, wrap_of_lt hs.small, resize_same, Outcome.bind_ok, copyElts]
    dsimp only
    split
    · rw [if_pos rfl]
      refine Outcome.keeps_ok ⟨⟨?_, rfl⟩, rfl⟩
      simp only [overwrite, size, List.take_length, Nat.sub_self, List.append_nil, Flat.decode]
    · exact Outcome.keeps_fault
  · have hne : wrap (s.size + n) ≠ s.size := by
      have hsmall := hs.small
      rw [wrap]
      omega
    rw [resize_refused (Nat.zero_le _) (.inr hne) hs.alloc rfl, Outcome.bind_throw]
    exact Outcome.keeps_throw ⟨⟨rfl, rfl⟩, rfl⟩

/-- Whatever is in the buffer, nothing is appended. -/
theorem Stuck.append_rests {s : Vector T} (hs : s.Stuck) (mem : List UInt8) (len : Nat) :
    (s.append O mem len).Keeps s.Rests := by
  rw [append]
  split
  · exact Outcome.keeps_throw (Rests.refl s)
  · split
    · next n _ _ hn _ =>
        dsimp only
        split
        · exact Outcome.keeps_throw (Rests.refl s)
        · split
          · exact Outcome.keeps_throw (Rests.refl s)
          · exact (hs.appendElts_rests O (readWord_lt hn) mem _).bind fun _ s' h => Outcome.keeps_ok h
    · exact Outcome.keeps_fault

end Vector

namespace Array

variable (O : T → T → Bool)

omit [Raw T] in
theorem rests_refl (cs : List (Vector T)) : List.Forall₂ Vector.Rests cs cs :=
  List.forall₂_same.mpr fun c _ => Vector.Rests.refl c

omit [Raw T] in
theorem rests_trans {cs ds es : List (Vector T)} (h : List.Forall₂ Vector.Rests cs ds)
    (h' : List.Forall₂ Vector.Rests ds es) : List.Forall₂ Vector.Rests cs es := by
  induction h generalizing es with
  | nil => exact h'
  | cons hc _ ih =>
      cases h' with
      | cons hd hds => exact .cons (hc.trans hd) (ih hds)

omit [Raw T] in
theorem rests_stuck {cs ds : List (Vector T)} (h : List.Forall₂ Vector.Rests cs ds)
    (hs : ∀ c ∈ cs, c.Stuck) : ∀ c ∈ ds, c.Stuck := by
  induction h with
  | nil => exact hs
  | cons hc _ ih =>
      obtain ⟨hfirst, hrest⟩ := List.forall_mem_cons.mp hs
      exact List.forall_mem_cons.mpr ⟨hc.stuck hfirst, ih hrest⟩

theorem appendCols_rests {cs : List (Vector T)} (hs : ∀ c ∈ cs, c.Stuck) (mem : List UInt8)
    (buflen offset : Nat) :
    (appendCols O mem buflen offset cs).Keeps (List.Forall₂ Vector.Rests cs) := by
  induction cs generalizing offset with
  | nil => exact Outcome.keeps_ok .nil
  | cons c cs ih =>
      have hc := (hs c (.head _)).append_rests O (mem.drop offset) (wsub buflen offset)
      rw [appendCols]
      cases heq : c.append O (mem.drop offset) (wsub buflen offset) with
      | ok k c' =>
          have hc' := hc c' (by rw [heq]; rfl)
          refine Outcome.Keeps.mapState fun cs' hcs' => .cons hc' ?_
          exact ih (fun c hm => hs c (.tail _ hm)) _ cs' hcs'
      | throw e c' => exact Outcome.keeps_throw (.cons (hc c' (by rw [heq]; rfl)) (rests_refl cs))
      | fault => exact Outcome.keeps_fault

theorem resizeCols_rests {cs : List (Vector T)} (hs : ∀ c ∈ cs, c.Stuck) (n : Nat) :
    (resizeCols n 0 cs).Keeps (List.Forall₂ Vector.Rests cs) := by
  induction cs with
  | nil => exact Outcome.keeps_ok .nil
  | cons c cs ih =>
      have hc := (hs c (.head _)).resize_rests n
      rw [resizeCols]
      cases heq : c.resize n 0 with
      | ok k c' =>
          have hc' := hc c' (by rw [heq]; rfl)
          exact Outcome.Keeps.mapState fun cs' hcs' =>
            .cons hc' (ih (fun c hm => hs c (.tail _ hm)) cs' hcs')
      | throw e c' => exact Outcome.keeps_throw (.cons (hc c' (by rw [heq]; rfl)) (rests_refl cs))
      | fault => exact Outcome.keeps_fault

theorem append_rests {a : Array T} (hs : ∀ c ∈ a.v, c.Stuck) (heap : Allocator) (mem : List UInt8)
    (buflen : Nat) :
    (a.append O heap mem buflen).Keeps fun a' => List.Forall₂ Vector.Rests a.v a'.v := by
  have hself := rests_refl a.v
  rw [append]
  split
  · exact Outcome.keeps_throw hself
  · split
    · exact Outcome.keeps_fault
    · split
      · exact Outcome.keeps_fault
      · exact Outcome.keeps_throw hself
      · refine Outcome.Keeps.bind (Outcome.Keeps.mapState ?_) fun offset a' ha' => ?_
        · refine (appendCols_rests O hs mem buflen _).tryCatch fun e cols hcols => ?_
          refine Outcome.Keeps.bind (fun cols' hcols' => ?_) fun _ cols hcols => Outcome.keeps_throw hcols
          exact rests_trans hcols (resizeCols_rests (rests_stuck hcols hs) _ cols' hcols')
        · split
          · exact Outcome.keeps_fault
          · next rows _ =>
              refine Outcome.Keeps.bind ?_ fun _ a'' ha'' => Outcome.keeps_ok ha''
              rw [addRows]
              split
              · exact Outcome.keeps_fault
              · refine Outcome.Keeps.bind (Outcome.Keeps.mapState fun _ _ => ha') fun _ a'' ha'' => ?_
                split
                · exact Outcome.keeps_fault
                · exact Outcome.Keeps.mapState fun _ _ => ha''

theorem resize_rests {a : Array T} (hs : ∀ c ∈ a.v, c.Stuck) (hne : a.v ≠ []) (heap : Allocator)
    (sz : Nat) : (a.resize O heap sz 0).Keeps fun a' => List.Forall₂ Vector.Rests a.v a'.v := by
  have hnull : (resizeNull heap a).Keeps fun a' => a'.v = a.v := by
    rw [resizeNull]
    split
    · exact Outcome.keeps_ok rfl
    · refine Outcome.Keeps.bind (P := fun a' : Array T => a'.v = a.v)
        (Outcome.Keeps.mapState fun _ _ => rfl) fun _ a' ha' => ?_
      split
      · exact Outcome.keeps_ok ha'
      · exact Outcome.keeps_throw ha'
      · exact Outcome.keeps_fault
  rw [resize]
  intro s hres
  cases heq : resizeNull heap a with
  | fault => rw [heq] at hres; cases hres
  | throw e a₁ =>
      rw [heq] at hres
      cases hres
      rw [hnull s (by rw [heq]; rfl)]
      exact rests_refl a.v
  | ok _ a₁ =>
      have hv := hnull a₁ (by rw [heq]; rfl)
      have hcols : resizeNoCols O heap a₁ = .ok () a₁ := by
        rw [resizeNoCols]
        split
        · rfl
        · next hnil => exact absurd (hv.symm.trans hnil) hne
      rw [heq, Outcome.bind_ok, hcols, Outcome.bind_ok, hv] at hres
      revert hres s
      refine Outcome.Keeps.bind (Outcome.Keeps.mapState ?_) fun _ a₂ h₂ => ?_
      · exact resizeCols_rests hs sz
      · refine Outcome.Keeps.bind (Outcome.Keeps.mapState fun _ _ => h₂) fun _ a₃ h₃ => ?_
        split
        · exact Outcome.keeps_fault
        · exact Outcome.Keeps.mapState fun _ _ => h₃

end Array

namespace zts

/-- The times and the data of `z`, in its memory. -/
structure Rests (z z' : zts) : Prop where
  idx : List.Forall₂ Vector.Rests z.idx.v z'.idx.v
  a : List.Forall₂ Vector.Rests z.a.v z'.a.v

/-- A series that gets no more memory, with a sorted index. -/
structure Stuck (z : zts) : Prop where
  idx : ∀ c ∈ z.idx.v, c.Stuck
  a : ∀ c ∈ z.a.v, c.Stuck
  ordered : z.idx.isOrdered = true
  column : z.idx.v ≠ []

theorem Rests.refl (z : zts) : z.Rests z := ⟨Array.rests_refl _, Array.rests_refl _⟩

theorem Rests.trans {z z' z'' : zts} (h : z.Rests z') (h' : z'.Rests z'') : z.Rests z'' :=
  ⟨Array.rests_trans h.idx h'.idx, Array.rests_trans h.a h'.a⟩

theorem Rests.stuck {z z' : zts} (h : z.Rests z') (hs : z.Stuck) : z'.Stuck where
  idx := Array.rests_stuck h.idx hs.idx
  a := Array.rests_stuck h.a hs.a
  ordered := (Array.same_all_ordered (h.idx.imp fun _ _ hc => hc.toSame)).trans hs.ordered
  column hnil := hs.column (List.length_eq_zero_iff.mp (by rw [h.idx.length_eq, hnil, List.length_nil]))

/-- An append leaves times and data, whatever is in the buffer. -/
theorem Stuck.append_rests {z : zts} (hs : z.Stuck) (heap : Allocator) (mem : List UInt8)
    (buflen : Nat) : (z.append heap mem buflen).Keeps z.Rests := by
  have hself := Array.rests_refl z.a.v
  rw [append]
  split
  · exact Outcome.keeps_throw (Rests.refl z)
  · refine Outcome.Keeps.bind (Outcome.Keeps.mapState fun i hi => ?_) fun offset z₁ h₁ => ?_
    · exact ⟨Array.append_rests dtime.less hs.idx heap mem buflen i hi, hself⟩
    · have hs₁ := h₁.stuck hs
      rw [if_pos hs₁.ordered]
      refine (Outcome.Keeps.mapState fun a ha => ?_).tryCatch fun e z₂ h₂ => ?_
      · exact ⟨h₁.idx, Array.rests_trans h₁.a (Array.append_rests Double.less hs₁.a heap _ _ a ha)⟩
      · have hs₂ := h₂.stuck hs
        refine Outcome.Keeps.bind (Outcome.Keeps.mapState fun i hi => ?_) fun _ z₃ h₃ =>
          Outcome.keeps_throw h₃
        exact ⟨Array.rests_trans h₂.idx
          (Array.resize_rests dtime.less hs₂.idx hs₂.column heap _ i hi), h₂.a⟩

/-- An append of what is in a buffer, whether it returned or threw. -/
def Appends (heap : Allocator) (z z' : zts) : Prop :=
  ∃ mem buflen, (z.append heap mem buflen).state? = some z'

/-- Any number of them. -/
theorem Stuck.run_rests {heap : Allocator} {z z' : zts} (hs : z.Stuck)
    (h : Relation.ReflTransGen (Appends heap) z z') : z.Rests z' := by
  induction h with
  | refl => exact Rests.refl z
  | tail _ hstep ih =>
      obtain ⟨mem, buflen, hstate⟩ := hstep
      exact ih.trans ((ih.stuck hs).append_rests heap mem buflen _ hstate)

end zts

/-! ## What was loaded -/

namespace Vector

/-- A vector of a file gets no more memory. -/
theorem ofFile_stuck {file : List UInt8} {s : Vector T} (h : ofFile file = some s) : s.Stuck := by
  rw [ofFile] at h
  split at h
  · next n ordered hn _ =>
      split at h
      · cases h
        exact ⟨rfl, by rw [size, Flat.length_decode]; exact readWord_lt hn⟩
      · cases h
  · cases h

theorem mapped_stuck {file : Option (List UInt8)} {s : Vector T}
    (h : Array.mapped (file.bind ofFile) = .ok s ()) : s.Stuck := by
  cases hf : file.bind (ofFile (T := T)) with
  | none =>
      rw [hf] at h
      cases h
  | some s' =>
      rw [hf] at h
      cases h
      obtain ⟨bytes, _, hbytes⟩ := Option.bind_eq_some_iff.mp hf
      exact ofFile_stuck hbytes

end Vector

namespace Array

/-- The columns of an array of files are as many as its extents say. -/
theorem ofFiles_stuck {file : FileMap} {allocf : AllocFactory} {a : Array T} {u : Unit}
    (h : ofFiles (filesOf T file) allocf = .ok a u) :
    (∀ c ∈ a.v, c.Stuck) ∧ a.v.length = ncolsOf a.dim.v ∧ a.names.length = a.dim.size := by
  rw [ofFiles, Outcome.bind_eq_ok] at h
  obtain ⟨dim, _, _, h⟩ := h
  rw [Outcome.bind_eq_ok] at h
  obtain ⟨v, _, hv, h⟩ := h
  rw [Outcome.bind_eq_ok] at h
  obtain ⟨names, _, hnames, h⟩ := h
  cases h
  have hcols := Outcome.collect_eq_ok hv
  have hlen := (Outcome.collect_eq_ok hnames).length_eq
  refine ⟨fun c hc => ?_, ?_, ?_⟩
  · obtain ⟨j, hj, rfl⟩ := List.getElem_of_mem hc
    obtain ⟨hcount, hall⟩ := List.forall₂_iff_get.mp hcols
    have hmapped := hall j (by rw [hcount]; exact hj) hj
    rw [List.get_eq_getElem, List.getElem_map, List.get_eq_getElem] at hmapped
    exact Vector.mapped_stuck hmapped
  · rw [← hcols.length_eq, List.length_map, List.length_range]
  · rw [← hlen, List.length_map, List.length_zipIdx, Vector.size]

omit [Raw T] in
/-- Of an index that is a vector once its extents of 1 are gone, there is a column. -/
theorem column_of_drop {a a' : Array T} {u : Unit} (hn : a.names.length = a.dim.size)
    (hv : a.v.length = ncolsOf a.dim.v) (h : a.drop = .ok u a') (hone : a'.dim.size = 1) :
    a'.v = a.v ∧ a.v ≠ [] := by
  rw [drop] at h
  obtain ⟨⟨dim, names⟩, hs, rfl⟩ := Outcome.mapState_eq_ok.mp h
  obtain ⟨_, hcols, _⟩ := dropFrom_eq_ok hn hs
  obtain ⟨d, hd⟩ := List.length_eq_one_iff.mp hone
  have hcols' : colsOf a.dim.v = 1 := by
    rw [← hcols, hd]
    rfl
  refine ⟨rfl, fun hnil => ?_⟩
  rw [ncolsOf_eq (by rw [hcols']; norm_num), hcols', hnil] at hv
  cases hv

end Array

theorem make_cow_eq_ok {α : Type} {mk : α → Loaded} {o : Outcome Exn Unit α} {l : Loaded}
    (h : make_cow mk o = .ok l ()) : ∃ a, o = .ok a () ∧ mk a = l := by
  cases o with
  | ok a _ =>
      cases h
      exact ⟨a, rfl, rfl⟩
  | throw e _ => cases h
  | fault => cases h

/-- A series that `load` returns gets no more memory. -/
theorem load_zts_stuck {disk : Allocator} {dirname : String} {dir : Dir} {z : zts}
    (h : load disk dirname dir = .ok (.zts z) ()) : z.Stuck := by
  have hcow : ∃ idx, zts.ofFiles (filesOf Double dir.file) (filesOf dtime idx) (mmapFactory disk)
      (mmapFactory disk) = .ok z () := by
    rw [load] at h
    split at h
    · next idx _ =>
        obtain ⟨z', hz, ⟨⟩⟩ := make_cow_eq_ok h
        exact ⟨idx, hz⟩
    · split at h
      · cases h
      · split at h <;> first | cases h | (obtain ⟨_, _, ⟨⟩⟩ := make_cow_eq_ok h)
  obtain ⟨idx, hz⟩ := hcow
  rw [zts.ofFiles, Outcome.bind_eq_ok] at hz
  obtain ⟨a, _, ha, hz⟩ := hz
  rw [Outcome.bind_eq_ok] at hz
  obtain ⟨i, _, hi, hz⟩ := hz
  obtain ⟨hstuck, hcols, hnames⟩ := Array.ofFiles_stuck hi
  rw [zts.finish] at hz
  split at hz
  · cases hz
  · cases hz
  · next i' hdrop =>
      split at hz
      · cases hz
      · next hdims =>
          split at hz
          · cases hz
          · next hord =>
              cases hz
              have hone : i'.dim.size = 1 := by
                by_contra hne
                rw [zts.checkDims, if_pos hne] at hdims
                cases hdims
              obtain ⟨hv, hne⟩ := Array.column_of_drop hnames hcols hdrop hone
              exact {
                idx := by rw [hv]; exact hstuck
                a := (Array.ofFiles_stuck ha).1
                ordered := by simpa using hord
                column := by rw [hv]; exact hne }

/-- Whatever is appended to a series that was loaded, in any number of messages, its times and
its data stay as they are. -/
theorem append_loaded {disk heap : Allocator} {dirname : String} {dir : Dir} {z z' : zts}
    (h : load disk dirname dir = .ok (.zts z) ())
    (hrun : Relation.ReflTransGen (zts.Appends heap) z z') :
    List.Forall₂ Vector.Same z.idx.v z'.idx.v ∧ List.Forall₂ Vector.Same z.a.v z'.a.v := by
  have hrests := (load_zts_stuck h).run_rests hrun
  exact ⟨hrests.idx.imp fun _ _ hc => hc.toSame, hrests.a.imp fun _ _ hc => hc.toSame⟩

/-- The directory of `twoRowsArray` and `twoRowsIdx`. -/
def rowsDir : Dir := { file := twoRowsFiles, idx := some idxFiles }

set_option maxRecDepth 8000 in
/-- The series that `rowsDir` holds, appended to what was loaded from it. -/
theorem append_loaded_rows : ∃ z z', load (memallocator 0) "rows" rowsDir = .ok (.zts z) () ∧
    (z.append (memallocator 0) (zts.toBuffer 0 ⟨twoRowsArray, twoRowsIdx⟩) 144).state? = some z' ∧
    List.Forall₂ Vector.Same z.idx.v z'.idx.v ∧ List.Forall₂ Vector.Same z.a.v z'.a.v := by
  have hload : ∃ z, load (memallocator 0) "rows" rowsDir = .ok (.zts z) () ∧
      ∃ z', (z.append (memallocator 0) (zts.toBuffer 0 ⟨twoRowsArray, twoRowsIdx⟩) 144).state? =
        some z' :=
    ⟨_, rfl, _, rfl⟩
  obtain ⟨z, hz, z', hz'⟩ := hload
  exact ⟨z, z', hz, hz', append_loaded hz (.single ⟨_, _, hz'⟩)⟩

end Ztsdb.Arr
