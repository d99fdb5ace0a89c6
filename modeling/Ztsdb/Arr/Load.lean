import Mathlib
import Ztsdb.Arr.ZtsLife

/-!
# Arrays in files

An array that is made with a file name lives in a directory: its extents in the file `dim`,
each column in a file under its number, the names of a dimension in `names0` and so on. A file
is mapped into memory, so it is what its vector is: header, elements, and the room behind
them. `load` takes the type of an array from the header of its first column, and the directory
of a time series for what it is by the `idx` in it.

The capacity of a vector that is loaded is the length of its file, in bytes, and the file of
such a vector cannot be made longer.
-/

namespace Ztsdb.Arr

open Ztsdb.Lib

/-! ## Elements of records -/

/-- `tz::interval`, as it lies in memory. -/
structure IntervalRec where
  s : UInt64
  e : UInt64
  sopen : UInt32
  eopen : UInt32
  deriving DecidableEq

/-- `tz::period`, as it lies in memory. -/
structure PeriodRec where
  months : UInt32
  days : UInt32
  dur : UInt64
  deriving DecidableEq

theorem ofNat_leNat_leBytes4 (x : UInt32) : UInt32.ofNat (leNat (leBytes 4 x.toNat)) = x := by
  rw [leNat_leBytes_of_lt (by have := x.toNat_lt; norm_num; omega), UInt32.ofNat_toNat]

theorem ofNat_leNat_leBytes8 (x : UInt64) : UInt64.ofNat (leNat (leBytes 8 x.toNat)) = x := by
  rw [leNat_leBytes_of_lt (by have := x.toNat_lt; norm_num; omega), UInt64.ofNat_toNat]

instance : Raw IntervalRec where
  width := 24
  toBytes t := leBytes 8 t.s.toNat ++ (leBytes 8 t.e.toNat ++ (leBytes 4 t.sopen.toNat ++
    leBytes 4 t.eopen.toNat))
  ofBytes bs := ⟨UInt64.ofNat (leNat (slice 0 8 bs)), UInt64.ofNat (leNat (slice 8 8 bs)),
    UInt32.ofNat (leNat (slice 16 4 bs)), UInt32.ofNat (leNat (slice 20 4 bs))⟩
  width_pos := by decide
  length_toBytes _ := by simp only [List.length_append, length_leBytes]
  ofBytes_toBytes t := by
    have hlen (k n : Nat) : k = (leBytes k n).length := (length_leBytes k n).symm
    have h0 := slice_append_right [] (leBytes 8 t.s.toNat) (leBytes 8 t.e.toNat ++
      (leBytes 4 t.sopen.toNat ++ leBytes 4 t.eopen.toNat)) (hlen 8 _)
    have h8 := slice_append_right (leBytes 8 t.s.toNat) (leBytes 8 t.e.toNat)
      (leBytes 4 t.sopen.toNat ++ leBytes 4 t.eopen.toNat) (hlen 8 _)
    have h16 := slice_append_right (leBytes 8 t.s.toNat ++ leBytes 8 t.e.toNat)
      (leBytes 4 t.sopen.toNat) (leBytes 4 t.eopen.toNat) (hlen 4 _)
    have h20 := slice_append_right (leBytes 8 t.s.toNat ++ leBytes 8 t.e.toNat ++
      leBytes 4 t.sopen.toNat) (leBytes 4 t.eopen.toNat) [] (hlen 4 _)
    simp only [List.append_assoc, List.length_append, length_leBytes, List.length_nil, List.nil_append,
      List.append_nil] at h0 h8 h16 h20
    rw [h0, h8, h16, h20, ofNat_leNat_leBytes8, ofNat_leNat_leBytes8, ofNat_leNat_leBytes4,
      ofNat_leNat_leBytes4]
  getInitValue := ⟨0, 0, 0, 0⟩
  typenumber := 5
  typenumber_lt := by norm_num

instance : Raw PeriodRec where
  width := 16
  toBytes t := leBytes 4 t.months.toNat ++ (leBytes 4 t.days.toNat ++ leBytes 8 t.dur.toNat)
  ofBytes bs := ⟨UInt32.ofNat (leNat (slice 0 4 bs)), UInt32.ofNat (leNat (slice 4 4 bs)),
    UInt64.ofNat (leNat (slice 8 8 bs))⟩
  width_pos := by decide
  length_toBytes _ := by simp only [List.length_append, length_leBytes]
  ofBytes_toBytes t := by
    have hlen (k n : Nat) : k = (leBytes k n).length := (length_leBytes k n).symm
    have h0 := slice_append_right [] (leBytes 4 t.months.toNat) (leBytes 4 t.days.toNat ++
      leBytes 8 t.dur.toNat) (hlen 4 _)
    have h4 := slice_append_right (leBytes 4 t.months.toNat) (leBytes 4 t.days.toNat)
      (leBytes 8 t.dur.toNat) (hlen 4 _)
    have h8 := slice_append_right (leBytes 4 t.months.toNat ++ leBytes 4 t.days.toNat)
      (leBytes 8 t.dur.toNat) [] (hlen 8 _)
    simp only [List.append_assoc, List.length_append, length_leBytes, List.length_nil, List.nil_append,
      List.append_nil] at h0 h4 h8
    rw [h0, h4, h8, ofNat_leNat_leBytes4, ofNat_leNat_leBytes4, ofNat_leNat_leBytes8]
  getInitValue := ⟨0, 0, 0⟩
  typenumber := 6
  typenumber_lt := by norm_num

/-! ## Files -/

/-- `mmapallocator` on a file that is there: its member `fd` is not the descriptor that
`initialize` opens, so the file is never made longer. -/
def mmapallocator : Allocator where
  grant _ _ := false
  junk _ := 0

variable {T : Type} [Raw T]

namespace Vector

/-- A vector from its mapped file. There is none where the file does not have the elements it
counts. -/
def ofFile (mem : List UInt8) : Option (Vector T) :=
  match readWord mem 8, readWord mem 16 with
  | some n, some ordered =>
    if sizeofRawVector + n * Flat.width T ≤ mem.length then
      some {
        v := Flat.decode n (mem.drop sizeofRawVector)
        ordered := decide (ordered ≠ 0)
        capacity := mem.length
        block := mem.length
        alloc := some mmapallocator }
    else none
  | _, _ => none

/-- What is in a file is the elements and the flag of a vector. -/
structure Same (s s' : Vector T) : Prop where
  v : s'.v = s.v
  ordered : s'.ordered = s.ordered

/-- The vector in a file of `len` bytes. -/
def inFile (len : Nat) (s : Vector T) : Vector T :=
  { s with capacity := len, block := len, alloc := some mmapallocator }

/-- The file of a vector, with what is behind its elements. -/
theorem ofFile_toBuffer {s : Vector T} (h : s.size < 2 ^ 64) (rest : List UInt8) :
    ofFile (s.toBuffer ++ rest) = some (s.inFile (s.toBuffer ++ rest).length) := by
  have hfits : sizeofRawVector + s.size * Flat.width T ≤ (s.toBuffer ++ rest).length := by
    rw [List.length_append, length_toBuffer, getBufferSize]
    omega
  have hdrop : (s.toBuffer ++ rest).drop sizeofRawVector = Flat.encode s.v ++ rest := by
    have happ : s.toBuffer ++ rest = (leBytes 8 (Raw.typenumber T) ++ (leBytes 8 s.size ++
        leBytes 8 (if s.ordered then 1 else 0))) ++ (Flat.encode s.v ++ rest) := by
      simp only [toBuffer, List.append_assoc]
    rw [happ]
    exact List.drop_left' (by simp only [List.length_append, length_leBytes, sizeofRawVector])
  rw [ofFile, readWord_toBuffer_size _ _ h, readWord_toBuffer_ordered]
  dsimp only
  have hordered : decide ((if s.ordered then 1 else 0) ≠ 0) = s.ordered := by
    cases s.ordered <;> rfl
  rw [if_pos hfits, hdrop, size, Flat.decode_encode, hordered]
  rfl

/-- The capacity of a vector of a file is the length of the file. -/
theorem ofFile_eq_some {file : List UInt8} {s : Vector T} (h : ofFile file = some s) :
    s.capacity = file.length ∧ s.block = file.length ∧
      sizeofRawVector + s.size * Flat.width T ≤ file.length := by
  rw [ofFile] at h
  split at h
  · next n ordered _ _ =>
      split at h
      · next hfits =>
          cases h
          refine ⟨rfl, rfl, ?_⟩
          rw [size, Flat.length_decode]
          exact hfits
      · cases h
  · cases h

/-- A file holds a vector, and perhaps room behind it. -/
def Holds (file : Option (List UInt8)) (s : Vector T) : Prop :=
  ∃ rest, file = some (s.toBuffer ++ rest)

theorem mapped_of_holds {file : Option (List UInt8)} {s : Vector T} (h : s.size < 2 ^ 64)
    (hf : Holds file s) : ∃ s', Array.mapped (file.bind ofFile) = .ok s' () ∧ s.Same s' := by
  obtain ⟨rest, rfl⟩ := hf
  refine ⟨s.inFile (s.toBuffer ++ rest).length, ?_, rfl, rfl⟩
  rw [Option.bind_some, ofFile_toBuffer h rest]
  rfl

end Vector

/-! ## Arrays -/

/-- The files of a directory, under their names. -/
abbrev FileMap := String → Option (List UInt8)

/-- What `load` sees of a directory: its files, and those of the directory `idx` in it. -/
structure Dir where
  file : FileMap
  idx : Option FileMap

/-- The vectors in the files of an array. -/
def filesOf (T : Type) [Raw T] (file : FileMap) : Array.Files T where
  dim := (file "dim").bind Vector.ofFile
  column j := (file (toString j)).bind Vector.ofFile
  names j := (file s!"names{j}").bind Vector.ofFile

/-- `MmapAllocFactory`, where the files that are made have `disk`. -/
def mmapFactory (disk : Allocator) : AllocFactory where
  column _ := disk
  named _ := disk

namespace Array

/-- The names of a dimension are none, or one for each place. -/
def Named (a : Array T) : Prop :=
  List.Forall₂ (fun d nm => nm.sz = d.toNat ∧ (nm.names.size = 0 ∨ nm.names.size = d.toNat))
    a.dim.v a.names

/-- The files of an array. -/
structure Stored (file : FileMap) (a : Array T) : Prop where
  dim : Vector.Holds (file "dim") a.dim
  columns : ∀ (j : Nat) (h : j < a.v.length), Vector.Holds (file (toString j)) a.v[j]
  names : ∀ (j : Nat) (h : j < a.names.length),
    Vector.Holds (file s!"names{j}") a.names[j].names

/-- The array `a'` has the elements, the flags and the names of `a`. -/
structure Reloaded (a a' : Array T) : Prop where
  dim : a.dim.Same a'.dim
  columns : List.Forall₂ Vector.Same a.v a'.v
  names : List.Forall₂ (fun nm nm' => nm'.sz = nm.sz ∧ nm.names.Same nm'.names) a.names a'.names

omit [Raw T] in
theorem Reloaded.column {a a' : Array T} (h : a.Reloaded a') {c' : Vector T} (hc : c' ∈ a'.v) :
    ∃ c ∈ a.v, c.Same c' := by
  obtain ⟨j, hj, rfl⟩ := List.getElem_of_mem hc
  obtain ⟨hlen, hall⟩ := List.forall₂_iff_get.1 h.columns
  exact ⟨a.v[j], List.getElem_mem (by omega), hall j (by omega) hj⟩

omit [Raw T] in
theorem Reloaded.shaped {a a' : Array T} (h : a.Reloaded a') (hs : a.Shaped) : a'.Shaped where
  cols := by rw [← h.columns.length_eq, hs.cols, h.dim.v]
  few := by rw [← h.columns.length_eq]; exact hs.few
  rows := by
    intro c hc
    obtain ⟨c₀, hc₀, hsame⟩ := h.column hc
    rw [Vector.size, hsame.v, nrows, h.dim.v]
    exact hs.rows c₀ hc₀
  names := by rw [← h.names.length_eq, hs.names, Vector.size, Vector.size, h.dim.v]

omit [Raw T] in
theorem Reloaded.nrows {a a' : Array T} (h : a.Reloaded a') : a'.nrows = a.nrows := by
  rw [Array.nrows, Array.nrows, h.dim.v]

omit [Raw T] in
theorem same_all_ordered {cs ds : List (Vector T)} (h : List.Forall₂ Vector.Same cs ds) :
    (ds.all fun c => c.ordered) = cs.all fun c => c.ordered := by
  induction h with
  | nil => rfl
  | cons hsame _ ih => rw [List.all_cons, List.all_cons, hsame.ordered, ih]

omit [Raw T] in
theorem Reloaded.isOrdered {a a' : Array T} (h : a.Reloaded a') : a'.isOrdered = a.isOrdered := by
  rw [Array.isOrdered, Array.isOrdered]
  exact same_all_ordered h.columns

/-- Commands that all return, one for each of `bs`. -/
theorem collect_exists {ε α β : Type} {R : β → α → Prop} {os : List (Outcome ε Unit α)} {bs : List β}
    (h : List.Forall₂ (fun o b => ∃ a, o = .ok a () ∧ R b a) os bs) :
    ∃ as, Outcome.collect os = .ok as () ∧ List.Forall₂ R bs as := by
  induction h with
  | nil => exact ⟨[], rfl, .nil⟩
  | cons ho _ ih =>
      obtain ⟨a, rfl, ha⟩ := ho
      obtain ⟨as, has, hall⟩ := ih
      exact ⟨a :: as, by rw [Outcome.collect, Outcome.bind_ok, has, Outcome.bind_ok], .cons ha hall⟩

omit [Raw T] in
theorem nrows_lt (a : Array T) : a.nrows < 2 ^ 64 := by
  rw [nrows]
  split
  · norm_num
  · exact UInt64.toNat_lt _

/-- An array from its files. -/
theorem ofFiles_stored {file : FileMap} {a : Array T} (hs : a.Shaped) (hn : a.Named)
    (hd : a.dim.size < 2 ^ 64) (h : Stored file a) (allocf : AllocFactory) :
    ∃ a', ofFiles (filesOf T file) allocf = .ok a' () ∧ a.Reloaded a' := by
  obtain ⟨dim, hdim, hsame⟩ := Vector.mapped_of_holds hd h.dim
  have hcols : ncolsOf dim.v = a.v.length := by
    rw [hsame.v, hs.cols, ncolsOf_eq]
    rw [← hs.cols]
    exact hs.few.trans (by norm_num)
  have hv : List.Forall₂ (fun o s => ∃ s', o = .ok s' () ∧ Vector.Same s s')
      ((List.range (ncolsOf dim.v)).map fun j => mapped ((filesOf T file).column j)) a.v := by
    rw [List.forall₂_iff_get]
    refine ⟨by rw [List.length_map, List.length_range, hcols], fun j hj hj' => ?_⟩
    have hrows := hs.rows _ (List.getElem_mem hj')
    obtain ⟨c, hc, hcs⟩ := Vector.mapped_of_holds (by rw [hrows]; exact a.nrows_lt)
      (h.columns j hj')
    refine ⟨c, ?_, hcs⟩
    rw [List.get_eq_getElem, List.getElem_map, List.getElem_range]
    exact hc
  have hnames : List.Forall₂
      (fun o nm => ∃ nm', o = .ok nm' () ∧ nm'.sz = nm.sz ∧ nm.names.Same nm'.names)
      (dim.v.zipIdx.map fun x => (mapped ((filesOf T file).names x.2)).bind fun names _ =>
        Dname.ofNames x.1.toNat names) a.names := by
    rw [List.forall₂_iff_get]
    rw [Named, List.forall₂_iff_get] at hn
    refine ⟨by rw [List.length_map, List.length_zipIdx, hsame.v, hn.1], fun j hj hj' => ?_⟩
    have hjd : j < a.dim.v.length := by rw [hn.1]; exact hj'
    obtain ⟨hsz, hlen⟩ := hn.2 j hjd hj'
    simp only [List.get_eq_getElem] at hsz hlen
    have hlt : a.names[j].names.size < 2 ^ 64 := by
      have hd64 := a.dim.v[j].toNat_lt
      omega
    obtain ⟨ns, hns, hnsame⟩ := Vector.mapped_of_holds hlt (h.names j hj')
    refine ⟨⟨_, ns⟩, ?_, hsz.symm, hnsame⟩
    have hsize : ns.size = a.names[j].names.size := by rw [Vector.size, hnsame.v, Vector.size]
    simp only [List.get_eq_getElem, List.getElem_map, List.getElem_zipIdx, Nat.zero_add, filesOf,
      hns, Outcome.bind_ok, hsame.v]
    rw [Dname.ofNames, if_neg (by rw [hsize]; omega)]
    rfl
  obtain ⟨v, hv, hcolumns⟩ := collect_exists hv
  obtain ⟨names, hnames, hall⟩ := collect_exists hnames
  refine ⟨⟨dim, v, names, allocf⟩, ?_, hsame, hcolumns, hall⟩
  rw [ofFiles]
  show (mapped ((file "dim").bind Vector.ofFile)).bind _ = _
  rw [hdim, Outcome.bind_ok, hv, Outcome.bind_ok]
  exact congrArg (fun o => Outcome.bind o fun names _ => Outcome.ok (Array.mk dim v names allocf) ())
    hnames

end Array

/-! ## Loading -/

/-- The values that `load` returns. -/
inductive Loaded where
  | double (a : Array Double)
  | bool (a : Array Bool)
  | dtime (a : Array dtime)
  | zstring (a : Array ZString)
  | duration (a : Array duration)
  | interval (a : Array IntervalRec)
  | period (a : Array PeriodRec)
  | zts (z : zts)

/-- What `load` throws. -/
inductive LoadExn where
  | exn (e : Exn)
  | domainError (what : String)

/-- `dirname / name`. -/
def pathOf (dirname name : String) : String :=
  if dirname = "" ∨ dirname.endsWith "/" then dirname ++ name else dirname ++ "/" ++ name

/-- `make_cow` of what a constructor leaves. -/
def make_cow {α : Type} (mk : α → Loaded) : Outcome Exn Unit α → Outcome LoadExn Unit Loaded
  | .ok a _ => .ok (mk a) ()
  | .throw e _ => .throw (.exn e) ()
  | .fault => .fault

/-- The type number of a header, none where the file is shorter. -/
def freadType (file : List UInt8) : Option Nat :=
  if file.length < sizeofRawVector then none else readWord file 0

/-- `load(dirname)`. -/
def load (disk : Allocator) (dirname : String) (dir : Dir) : Outcome LoadExn Unit Loaded :=
  match dir.idx with
  | some idx =>
    make_cow .zts (zts.ofFiles (filesOf Double dir.file) (filesOf dtime idx) (mmapFactory disk)
      (mmapFactory disk))
  | none =>
    match dir.file "0" with
    | none => .throw (.exn (.rangeError ("no data in directory " ++ dirname))) ()
    | some file =>
      match freadType file with
      | none => .throw (.exn (.systemError ("cannot fread " ++ pathOf dirname "0"))) ()
      | some 0 => make_cow .double (Array.ofFiles (filesOf Double dir.file) (mmapFactory disk))
      | some 1 => make_cow .bool (Array.ofFiles (filesOf Bool dir.file) (mmapFactory disk))
      | some 2 => make_cow .dtime (Array.ofFiles (filesOf dtime dir.file) (mmapFactory disk))
      | some 3 => make_cow .zstring (Array.ofFiles (filesOf ZString dir.file) (mmapFactory disk))
      | some 4 => make_cow .duration (Array.ofFiles (filesOf duration dir.file) (mmapFactory disk))
      | some 5 =>
        make_cow .interval (Array.ofFiles (filesOf IntervalRec dir.file) (mmapFactory disk))
      | some 6 => make_cow .period (Array.ofFiles (filesOf PeriodRec dir.file) (mmapFactory disk))
      | some n => .throw (.domainError ("unknown type number: " ++ toString n)) ()

/-- The types whose arrays `load` knows by their number. -/
class Kind (T : Type) [Raw T] where
  val : Array T → Loaded
  load_eq (disk : Allocator) (dirname : String) {dir : Dir} {file : List UInt8} :
    dir.idx = none → dir.file "0" = some file → freadType file = some (Raw.typenumber T) →
      load disk dirname dir =
        make_cow val (Array.ofFiles (filesOf T dir.file) (mmapFactory disk))

instance : Kind Double where
  val := .double
  load_eq _ _ _ _ hidx hfile htype := by simp only [load, hidx, hfile, htype, Raw.typenumber]

instance : Kind Bool where
  val := .bool
  load_eq _ _ _ _ hidx hfile htype := by simp only [load, hidx, hfile, htype, Raw.typenumber]

instance : Kind dtime where
  val := .dtime
  load_eq _ _ _ _ hidx hfile htype := by simp only [load, hidx, hfile, htype, Raw.typenumber]

instance : Kind ZString where
  val := .zstring
  load_eq _ _ _ _ hidx hfile htype := by simp only [load, hidx, hfile, htype, Raw.typenumber]

instance : Kind duration where
  val := .duration
  load_eq _ _ _ _ hidx hfile htype := by simp only [load, hidx, hfile, htype, Raw.typenumber]

instance : Kind IntervalRec where
  val := .interval
  load_eq _ _ _ _ hidx hfile htype := by simp only [load, hidx, hfile, htype, Raw.typenumber]

instance : Kind PeriodRec where
  val := .period
  load_eq _ _ _ _ hidx hfile htype := by simp only [load, hidx, hfile, htype, Raw.typenumber]

theorem freadType_toBuffer (s : Vector T) (rest : List UInt8) :
    freadType (s.toBuffer ++ rest) = some (Raw.typenumber T) := by
  rw [freadType, if_neg, Vector.readWord_toBuffer_typenumber]
  rw [List.length_append, Vector.length_toBuffer, Vector.getBufferSize]
  omega

/-- What is in the files of an array is what `load` returns, as an array of the same type with the
same contents. An array without columns has no file to take the type from. -/
theorem load_stored [Kind T] (disk : Allocator) (dirname : String) {dir : Dir} {a : Array T}
    (hs : a.Shaped) (hn : a.Named) (hd : a.dim.size < 2 ^ 64) (h : Array.Stored dir.file a)
    (hidx : dir.idx = none) (hnone : a.v = [] → dir.file "0" = none) :
    (a.v = [] → load disk dirname dir =
      .throw (.exn (.rangeError ("no data in directory " ++ dirname))) ()) ∧
    (a.v ≠ [] → ∃ a', load disk dirname dir = .ok (Kind.val a') () ∧ a.Reloaded a') := by
  constructor
  · intro hnil
    simp only [load, hidx, hnone hnil]
  · intro hne
    obtain ⟨rest, hfile⟩ := h.columns 0 (List.length_pos_of_ne_nil hne)
    obtain ⟨a', ha', hre⟩ := Array.ofFiles_stored hs hn hd h (mmapFactory disk)
    refine ⟨a', ?_, hre⟩
    rw [Kind.load_eq (T := T) disk dirname hidx hfile (freadType_toBuffer _ rest), ha']
    rfl

/-- Two rows of a file with room for a third. -/
def twoRows : Vector Double :=
  { v := [⟨0⟩, ⟨1⟩], ordered := true, capacity := 2, block := 40, alloc := none }

def twoRowsArray : Array Double where
  dim := { v := [2], ordered := true, capacity := 1, block := 32, alloc := none }
  v := [twoRows]
  names := [{ sz := 2, names := { v := [], ordered := true, capacity := 1, block := 24, alloc := none } }]
  allocf := memFactory (memallocator 0)

/-- The files of `twoRowsArray`, or of a series with these rows. -/
def twoRowsFiles (name : String) : Option (List UInt8) :=
  if name = "dim" then some twoRowsArray.dim.toBuffer
  else if name = "0" then some (twoRows.toBuffer ++ List.replicate 8 0)
  else if name = "names0" then some (leBytes 8 3 ++ (leBytes 8 0 ++ leBytes 8 1))
  else none

theorem twoRowsArray_shaped : twoRowsArray.Shaped where
  cols := rfl
  few := by decide
  rows c hc := by
    obtain rfl := List.mem_singleton.1 hc
    rfl
  names := rfl

theorem twoRowsArray_named : twoRowsArray.Named := .cons ⟨rfl, .inl rfl⟩ .nil

theorem twoRowsArray_stored : Array.Stored twoRowsFiles twoRowsArray where
  dim := ⟨[], rfl⟩
  columns j h := by
    obtain rfl : j = 0 := Nat.lt_one_iff.1 h
    exact ⟨List.replicate 8 0, rfl⟩
  names j h := by
    obtain rfl : j = 0 := Nat.lt_one_iff.1 h
    exact ⟨[], rfl⟩

theorem load_stored_rows : ∃ a', load (memallocator 0) "rows" { file := twoRowsFiles, idx := none } =
    .ok (.double a') () ∧ twoRowsArray.Reloaded a' :=
  (@load_stored Double _ _ (memallocator 0) "rows" { file := twoRowsFiles, idx := none } twoRowsArray
    twoRowsArray_shaped twoRowsArray_named (by decide) twoRowsArray_stored rfl (fun h => by cases h)).2
      fun h => by cases h

/-- What is in the files of a series is what `load` returns. -/
theorem load_stored_zts (disk : Allocator) (dirname : String) {dir : Dir} {idx : FileMap} {z : zts}
    (hinv : z.Inv) (hord : z.idx.isOrdered = true) (ha : z.a.Named) (hi : z.idx.Named)
    (hd : z.a.dim.size < 2 ^ 64) (hfile : Array.Stored dir.file z.a) (hidx : Array.Stored idx z.idx)
    (hdir : dir.idx = some idx) :
    ∃ z', load disk dirname dir = .ok (.zts z') () ∧ z.a.Reloaded z'.a ∧ z.idx.Reloaded z'.idx ∧
      z'.Inv := by
  obtain ⟨a, hofa, hrea⟩ := Array.ofFiles_stored hinv.a ha hd hfile (mmapFactory disk)
  obtain ⟨i, hofi, hrei⟩ := Array.ofFiles_stored hinv.idx hi (by rw [hinv.vector]; norm_num) hidx
    (mmapFactory disk)
  have hsize : i.dim.size = 1 := by rw [Vector.size, hrei.dim.v]; exact hinv.vector
  have hdrop : i.drop = .ok () i := by
    rw [Array.drop, hsize]
    rfl
  have hcol : i.v.length = 1 := by
    obtain ⟨c, hc⟩ := hinv.column
    rw [← hrei.columns.length_eq, hc, List.length_singleton]
  have hlen : i.size = i.nrows := by
    rw [Array.size, hcol, Nat.one_mul, wrap, Nat.mod_eq_of_lt (Array.nrows_lt i)]
  have hrows : a.dim.v ≠ [] → a.nrows = i.nrows := by
    rw [hrea.nrows, hrei.nrows, hrea.dim.v]
    exact hinv.rows
  have hdims : zts.checkDims a i = none := by
    rw [zts.checkDims, if_neg (by omega), if_neg]
    rw [not_not, hlen]
    split
    · next hne =>
        rw [hrows (fun hnil => hne (by rw [Vector.size, hnil, List.length_nil]))]
    · rfl
  refine ⟨⟨a, i⟩, ?_, hrea, hrei, hrei.shaped hinv.idx, hrea.shaped hinv.a, hsize, hrows, ?_⟩
  · rw [load, hdir]
    dsimp only
    rw [zts.ofFiles, hofa, Outcome.bind_ok, hofi, Outcome.bind_ok, zts.finish, hdrop]
    dsimp only
    rw [hdims]
    dsimp only
    rw [hrei.isOrdered, hord]
    rfl
  · intro c hc
    obtain ⟨c₀, hc₀, hsame⟩ := hrei.column hc
    rw [hsame.v]
    exact hinv.ascending c₀ hc₀

def twoRowsIdx : Array dtime where
  dim := { v := [2], ordered := true, capacity := 1, block := 32, alloc := none }
  v := [{ v := [⟨1⟩, ⟨2⟩], ordered := true, capacity := 2, block := 40, alloc := none }]
  names := [{ sz := 2, names := { v := [], ordered := true, capacity := 1, block := 24, alloc := none } }]
  allocf := memFactory (memallocator 0)

/-- The files of `twoRowsIdx`. -/
def idxFiles (name : String) : Option (List UInt8) :=
  if name = "dim" then some twoRowsIdx.dim.toBuffer
  else if name = "0" then some (twoRowsIdx.v.flatMap Vector.toBuffer)
  else if name = "names0" then some (leBytes 8 3 ++ (leBytes 8 0 ++ leBytes 8 1))
  else none

theorem twoRowsIdx_stored : Array.Stored idxFiles twoRowsIdx where
  dim := ⟨[], rfl⟩
  columns j h := by
    obtain rfl : j = 0 := Nat.lt_one_iff.1 h
    exact ⟨[], rfl⟩
  names j h := by
    obtain rfl : j = 0 := Nat.lt_one_iff.1 h
    exact ⟨[], rfl⟩

theorem twoRowsIdx_inv : zts.Inv ⟨twoRowsArray, twoRowsIdx⟩ where
  idx := {
    cols := rfl
    few := by decide
    rows := fun c hc => by
      obtain rfl := List.mem_singleton.1 hc
      rfl
    names := rfl }
  a := twoRowsArray_shaped
  vector := rfl
  rows _ := rfl
  ascending c hc := by
    obtain rfl := List.mem_singleton.1 hc
    exact .cons_cons (by decide) (.singleton _)

theorem load_stored_zts_rows : ∃ z', load (memallocator 0) "rows"
      { file := twoRowsFiles, idx := some idxFiles } = .ok (.zts z') () ∧
    twoRowsArray.Reloaded z'.a ∧ twoRowsIdx.Reloaded z'.idx ∧ z'.Inv :=
  @load_stored_zts (memallocator 0) "rows" { file := twoRowsFiles, idx := some idxFiles } idxFiles
    ⟨twoRowsArray, twoRowsIdx⟩ twoRowsIdx_inv rfl twoRowsArray_named (.cons ⟨rfl, .inl rfl⟩ .nil) (by decide)
    twoRowsArray_stored twoRowsIdx_stored rfl

/-! ## Growing a vector of a file -/

namespace Vector

variable (O : T → T → Bool)

/-- One more element in a vector whose capacity is a count of bytes. -/
theorem push_back_inFile {len : Nat} (hlen : len < 2 ^ 64) (x : T) {s : Vector T}
    (hcap : s.capacity = len) (hblock : s.block = len)
    (hfits : sizeofRawVector + s.size * Flat.width T ≤ len) :
    (sizeofRawVector + (s.size + 1) * Flat.width T ≤ len →
      ∃ s', s.push_back O x = .ok () s' ∧ s'.v = s.v ++ [x] ∧ s'.capacity = len ∧ s'.block = len) ∧
    (len < sizeofRawVector + (s.size + 1) * Flat.width T → s.push_back O x = .fault) := by
  have hwidth : s.size ≤ s.size * Flat.width T := Nat.le_mul_of_pos_right _ Flat.width_pos
  have hroom : ¬ wrap (s.size + 1) > s.capacity := by
    rw [hcap, wrap, Nat.mod_eq_of_lt (by rw [sizeofRawVector] at hfits; omega)]
    rw [sizeofRawVector] at hfits
    omega
  have hfit : s.Fits (s.size + 1) ↔ sizeofRawVector + (s.size + 1) * Flat.width T ≤ len := by
    rw [Fits, hblock]
  rw [push_back, if_neg hroom, place]
  constructor
  · intro h
    rw [if_pos (hfit.2 h)]
    exact ⟨_, rfl, rfl, hcap, hblock⟩
  · intro h
    rw [if_neg fun hf => absurd (hfit.1 hf) (by omega)]

/-- A vector takes elements as long as its file has bytes for them. The one after is written
behind the mapping: the capacity, in bytes, is never reached by a count of elements. -/
theorem push_back_loaded {file : List UInt8} {s : Vector T} (hload : ofFile file = some s)
    (hlen : file.length < 2 ^ 64) (xs : List T) :
    (sizeofRawVector + (s.size + xs.length) * Flat.width T ≤ file.length →
      ∃ s', pushAll O xs s = .ok () s' ∧ s'.v = s.v ++ xs) ∧
    (file.length < sizeofRawVector + (s.size + xs.length) * Flat.width T →
      pushAll O xs s = .fault) := by
  obtain ⟨hcap, hblock, hfits⟩ := ofFile_eq_some hload
  clear hload
  induction xs generalizing s with
  | nil => exact ⟨fun _ => ⟨s, rfl, (List.append_nil _).symm⟩, fun h => absurd hfits (Nat.not_le.2 h)⟩
  | cons x xs ih =>
      obtain ⟨hok, hfault⟩ := push_back_inFile O hlen x hcap hblock hfits
      have hcount : s.size + (x :: xs).length = s.size + 1 + xs.length := by
        rw [List.length_cons]
        omega
      rw [hcount]
      by_cases hone : sizeofRawVector + (s.size + 1) * Flat.width T ≤ file.length
      · obtain ⟨s₁, h₁, hv, hcap₁, hblock₁⟩ := hok hone
        have hsize : s₁.size = s.size + 1 := by
          rw [size, hv, List.length_append, List.length_singleton, size]
        obtain ⟨hall, hnot⟩ := ih hcap₁ hblock₁ (by rw [hsize]; exact hone)
        rw [hsize] at hall hnot
        rw [pushAll, h₁, Outcome.bind_ok]
        refine ⟨fun h => ?_, hnot⟩
        obtain ⟨s', h', hv'⟩ := hall h
        exact ⟨s', h', by rw [hv', hv, List.append_assoc, List.singleton_append]⟩
      · have hle : (s.size + 1) * Flat.width T ≤ (s.size + 1 + xs.length) * Flat.width T :=
          Nat.mul_le_mul_right _ (Nat.le_add_right _ _)
        rw [pushAll, hfault (Nat.lt_of_not_le hone)]
        exact ⟨fun h => absurd h (by omega), fun _ => rfl⟩

/-- The third row of `twoRows` is the last that its file takes. -/
theorem push_back_loaded_rows :
    pushAll Double.less [⟨2⟩, ⟨3⟩] (twoRows.inFile (twoRows.toBuffer ++ List.replicate 8 0).length) =
      .fault :=
  (push_back_loaded Double.less (ofFile_toBuffer (by decide) _) (by decide) [⟨2⟩, ⟨3⟩]).2 (by decide)

end Vector

end Ztsdb.Arr
