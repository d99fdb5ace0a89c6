import Mathlib
import Ztsdb.Arr.GridBind
import Ztsdb.Csv.TableTypes

/-!
# Series in files

`writecsv_zts` writes a row for each time, with the time in front. The header begins with an
empty field: the name of the index is copied into the buffer, but the place to write at does not
move on, and the separator comes over it. `readcsv_zts` skips that field, whatever ends it, and
binds a column for each other one.

Without a header the columns are bound as the first row is read, one of a row each, to an array
without rows.
-/

namespace Ztsdb.Csv

open Ztsdb.Lib Ztsdb.Lib.Decimal Ztsdb.Arr Ztsdb.Tz

/-- A series: its times, and the matrix beside them. -/
structure Series where
  times : List dtime
  data : Matrix Double
  length_times : times.length = data.nrows

namespace Series

variable (z : Series)

/-- The names of the columns, empty where there are none. -/
def names : List ZString :=
  if z.data.names = [] then z.data.cols.map fun _ => ZString.empty else z.data.names

def rows : List (dtime × List Double) := z.times.zip z.data.rows

end Series

section Codecs

variable (ct : Codec dtime) (cd : Codec Double)

/-! ## Writing -/

/-- The rows of a series. -/
def Writer.putSeries (sep : UInt8) :
    List (dtime × List Double) → Writer → Outcome Exn Writer Unit
  | [], w => .ok () w
  | row :: rows, w =>
    let w := w.reserve ct.CMAX
    match ct.toChar row.1 with
    | .throw e _ => .throw e w
    | .fault => .fault
    | .ok text _ =>
      ((w.put text (ender sep row.2)).bind fun _ w => putRow cd sep row.2 w).bind fun _ w =>
        putSeries sep rows w

/-- `writecsv_zts`, with the file. -/
def writecsv_zts (z : Series) (header : Bool) (sep : UInt8) : Outcome Exn Unit (List UInt8) :=
  let written := (if header then
      -- an index without places has no first name
      if z.times = [] then .throw (.rangeError "subscript out of bounds") ⟨[], []⟩
      else (Writer.put [] (Writer.ender sep z.data.cols) ⟨[], []⟩).bind fun _ w =>
        Writer.putNames sep z.names w
    else .ok () ⟨[], []⟩).bind fun _ w => Writer.putSeries ct cd sep z.rows w
  match written with
  | .ok _ w => .ok w.flush.file ()
  | .throw e _ => .throw e ()
  | .fault => .fault

/-! ## Reading -/

/-- The time that a token is parsed to. -/
def parseTime (r : Reader) : Outcome Exn Unit dtime :=
  (ct.fromChar (r.buf.drop r.tb) (r.te - r.tb)).bind fun got _ =>
    if got.2 ≠ r.te - r.tb then
      .throw (.outOfRange ("can't parse datetime '" ++ shown r.token)) ()
    else .ok got.1 ()

/-- A row: the time, the elements and the reader behind it, or none at the end of the file. -/
def readTimed (sep : UInt8) (ncols : Nat) (r : Reader) :
    Outcome Exn Unit (Option (dtime × List Double × Reader)) :=
  withToken sep r (fun _ _ => none) fun ret r =>
    (parseTime ct r).bind fun t _ =>
      (readRow cd sep ncols 0 ret r).bind fun got _ =>
        if 0 ≤ got.2.1 ∧ got.2.1 ≠ charVal newline then
          .throw (.outOfRange "incorrect number of elements") ()
        else .ok (some (t, got.1, got.2.2)) ()

/-- The rows, and how many there are behind `row`. -/
def readTimedRows (sep : UInt8) : Nat → Nat → List dtime → List (List Double) → Reader →
    Outcome Exn Unit (List dtime × List (List Double) × Nat)
  | 0, _, _, _, _ => .fault
  | fuel + 1, row, times, cols, r =>
    (onRow row (readTimed ct cd sep cols.length r)).bind fun got _ =>
      got.elim (.ok (times, cols, row) ()) fun line =>
        readTimedRows sep fuel (row + 1) (times ++ [line.1]) (pushRow cols line.2.1) line.2.2

/-- What a series has been read as. -/
structure TimedTable where
  times : List dtime
  table : Table Double

/-- `zts(dim, ...)` with the extents 0 and 0. -/
def TimedTable.empty : TimedTable := ⟨[], ⟨0, [], []⟩⟩

/-- `resize(0, sz)` of the index and of the array. -/
def TimedTable.ofRows (sz : Nat) (times : List dtime) (cols : List (List Double))
    (names : List ZString) : TimedTable :=
  ⟨times.take sz ++ List.replicate (sz - times.length) ⟨0⟩, resized ⟨0⟩ sz cols names⟩

/-- The elements of the first row, bound as columns. -/
def readColumns (sep : UInt8) : Nat → Grid Double → Reader →
    Outcome Exn Unit (Grid Double × Reader)
  | 0, _, _ => .fault
  | fuel + 1, a, r =>
    withToken sep r (fun _ r => (a, r)) fun ret r =>
      (parse cd "" r).bind fun d _ =>
        (Grid.abind ⟨[1, 1], [[d]], [.ofExtent 1, .ofExtent 1]⟩ 1 a).bind fun a _ =>
          if ret = charVal newline then .ok (a, r) () else readColumns sep fuel a r

/-- `readcsv_zts`, from a file at its beginning. -/
def readcsv_zts (header : Bool) (sep : UInt8) (r : Reader) : Outcome Exn Unit TimedTable :=
  let fuel := r.pieces.flatten.length + 2
  if header then
    -- what ends the first field is not looked at
    (onRow 0 (withToken sep r (fun _ _ => none) fun _ r =>
      (readNames sep fuel [] r).bind fun got _ => .ok (some got) ())).bind fun got _ =>
        got.elim (.ok TimedTable.empty ()) fun head =>
          (readTimedRows ct cd sep fuel 1 [] (head.1.map fun _ => []) head.2).bind fun rows _ =>
            .ok (TimedTable.ofRows (rows.2.2 - 1) rows.1 rows.2.1 head.1) ()
  else
    (onRow 0 (withToken sep r (fun _ _ => none) fun _ r =>
      (parse ct ("' on row " ++ toString 1) r).bind fun t _ =>
        (readColumns cd sep fuel ⟨[0, 0], [], [.ofExtent 0, .ofExtent 0]⟩ r).bind fun got _ =>
          .ok (some (t, got)) ())).bind fun got _ =>
        got.elim (.ok TimedTable.empty ()) fun first =>
          (readTimedRows ct cd sep fuel 1 [first.1] first.2.1.v first.2.2).bind fun rows _ =>
            .ok (TimedTable.ofRows rows.2.2 rows.1 rows.2.1 []) ()

end Codecs

/-! ## Rows -/

section Rows

variable {ct : Codec dtime} {cd : Codec Double} {sep : UInt8} {k : Nat}

/-- The texts of a row. -/
def texts (ct : Codec dtime) (cd : Codec Double) (row : dtime × List Double) : List (List UInt8) :=
  ct.text row.1 :: row.2.map cd.text

/-- Every element of a row is read from its text. -/
structure Kept (ct : Codec dtime) (cd : Codec Double) (sep : UInt8) (k : Nat)
    (row : dtime × List Double) : Prop where
  time : Stored ct sep k row.1 (ct.text row.1)
  elements : StoredRow cd sep k row.2 (row.2.map cd.text)
  size : row.2.length + 1 = k
  line : Line sep (texts ct cd row)

theorem ender_map {α β : Type} (f : α → β) (xs : List α) :
    Writer.ender sep (xs.map f) = Writer.ender sep xs := by
  rw [Writer.ender, Writer.ender, List.isEmpty_map]

theorem putSeries_fields (hct : ct.CMAX ≤ BUFSZ) (hcd : cd.CMAX ≤ BUFSZ)
    {rows : List (dtime × List Double)} (hrows : ∀ row ∈ rows, Kept ct cd sep k row) (w : Writer) :
    ∃ w', Writer.putSeries ct cd sep rows w = .ok () w' ∧
      w'.written = w.written ++ fileOf (rows.flatMap fun row => rowFields sep (texts ct cd row)) := by
  induction rows generalizing w with
  | nil => exact ⟨w, rfl, (List.append_nil _).symm⟩
  | cons row rows ih =>
      have hrow := hrows row (.head _)
      obtain ⟨w₁, hput, hw₁⟩ := Writer.put_reserve (Writer.ender sep row.2) w hrow.time.lt_max hct
      obtain ⟨w₂, helts, hw₂⟩ := Writer.putRow_fields hcd hrow.elements w₁
      obtain ⟨w₃, hrest, hw₃⟩ := ih (fun row hmem => hrows row (.tail _ hmem)) w₂
      refine ⟨w₃, ?_, ?_⟩
      · rw [Writer.putSeries]
        simp only [hrow.time.toChar_eq, hput, Outcome.bind_ok, helts, hrest]
      · rw [hw₃, hw₂, hw₁, List.flatMap_cons, texts, rowFields, fileOf_append, fileOf_cons, ender_map]
        simp only [List.append_assoc, List.cons_append, List.nil_append]

variable {all : List (List UInt8)} {r : Reader}

theorem parseTime_got {t : dtime} {f : Field} {rest : List UInt8} (ht : Stored ct sep k t f.1)
    (hf : f.2 = newline ∨ 1 < k ∧ f.2 = sep) (h : Got sep all f rest r) :
    parseTime ct r = .ok t () := by
  obtain ⟨more, hmore⟩ := h.behind
  rw [parseTime, hmore, h.size_eq, ht.fromChar_eq _ _ hf]
  simp only [Outcome.bind_ok, ne_eq, not_true_eq_false, if_false]

theorem readTimed_line {row : dtime × List Double} {rest : List UInt8}
    (hrow : Kept ct cd sep k row)
    (h : InFrontOf sep all r (fileOf (rowFields sep (texts ct cd row)) ++ rest)) :
    ∃ r', readTimed ct cd sep row.2.length r = .ok (some (row.1, row.2, r')) () ∧
      InFrontOf sep all r' rest := by
  have hline := hrow.line
  have hsize := hrow.size
  rw [texts] at hline
  rw [texts, rowFields, fileOf_cons, List.append_assoc, List.cons_append] at h
  obtain ⟨r₁, hgot, htoken⟩ := withToken_field (hline.plain _ (.head _)) h
  have hender := @ender_eq_or sep k (row.2.map cd.text) (by rw [List.length_map]; omega)
  obtain ⟨r', hok, hnext⟩ := readRow_line 0 (charVal (Writer.ender sep (row.2.map cd.text)))
    hrow.elements (by rw [List.length_map]; omega) hline.tail hgot.next
  -- the row ends with the time or with its last element
  have hlast : (if row.2.map cd.text = [] then charVal (Writer.ender sep (row.2.map cd.text))
      else charVal newline) = charVal newline := by
    split
    · next hnil => rw [hnil]; rfl
    · rfl
  rw [hlast] at hok
  refine ⟨r', ?_, hnext⟩
  rw [readTimed, htoken, parseTime_got hrow.time hender hgot, Outcome.bind_ok, hok, Outcome.bind_ok]
  exact if_neg fun hbad => hbad.2 rfl

theorem readTimed_end (ncols : Nat) (h : InFrontOf sep all r []) :
    readTimed ct cd sep ncols r = .ok none () := by
  obtain ⟨r', hend⟩ := readToken_end h
  rw [readTimed, withToken, hend]
  exact if_pos (by decide)

/-- All rows up to the end of the file. -/
theorem readTimedRows_lines {rows : List (dtime × List Double)} {fuel row : Nat} {times : List dtime}
    {cols : List (List Double)} (hrows : ∀ row ∈ rows, Kept ct cd sep (cols.length + 1) row)
    (hfuel : rows.length < fuel)
    (h : InFrontOf sep all r (fileOf (rows.flatMap fun row => rowFields sep (texts ct cd row)))) :
    readTimedRows ct cd sep fuel row times cols r = .ok (times ++ rows.map fun x => x.1,
      (rows.map fun x => x.2).foldl pushRow cols, row + rows.length) () := by
  induction rows generalizing fuel row times cols r with
  | nil =>
      obtain ⟨fuel, rfl⟩ : ∃ n, fuel = n + 1 := ⟨fuel - 1, by rw [List.length_nil] at hfuel; omega⟩
      rw [readTimedRows, readTimed_end cols.length h]
      simp only [onRow, Outcome.tryCatch_ok, Outcome.bind_ok, Option.elim_none, List.map_nil,
        List.append_nil, List.foldl_nil, List.length_nil, Nat.add_zero]
  | cons line rows ih =>
      rw [List.length_cons] at hfuel
      obtain ⟨fuel, rfl⟩ : ∃ n, fuel = n + 1 := ⟨fuel - 1, by omega⟩
      rw [List.flatMap_cons, fileOf_append] at h
      have hline := hrows line (.head _)
      have hlen : line.2.length = cols.length := Nat.succ.inj hline.size
      obtain ⟨r', hok, hnext⟩ := readTimed_line hline h
      rw [hlen] at hok
      rw [readTimedRows, hok]
      simp only [onRow, Outcome.tryCatch_ok, Outcome.bind_ok, Option.elim_some]
      rw [ih (fun x hx => by rw [length_pushRow]; exact hrows x (.tail _ hx)) (by omega) hnext,
        List.map_cons, List.map_cons, List.foldl_cons, List.length_cons, List.append_assoc,
        Nat.add_right_comm, Nat.add_assoc]
      rfl

/-- A file of plain fields is read from its beginning. -/
theorem front_of_plain {fs : List Field} (hplain : ∀ f ∈ fs, Plain sep f)
    (hlen : ∀ f ∈ fs, f.1.length ≤ STRING_SIZE) {buf : List UInt8} (hbuf : buf.length = BUFSZ)
    {pieces : List (List UInt8)} (hread : Reads sep BUFSZ (fileOf fs) pieces) :
    InFrontOf sep pieces (start buf pieces) (fileOf fs) := by
  have hclean : Clean sep buf.length pieces := by
    rw [hbuf]
    exact clean_of_plain hplain hlen (by decide) hread
  have hskip := Reader.skip_start hclean
  rw [hread.file_eq] at hskip
  exact ⟨hskip, hclean⟩

end Rows

/-! ## Whole series -/

namespace Series

variable {ct : Codec dtime} {cd : Codec Double} {sep : UInt8} {z : Series}

/-- A series that is not empty and has legible texts, with names or without. -/
structure Storable (ct : Codec dtime) (cd : Codec Double) (sep : UInt8) (z : Series) : Prop where
  cols_ne : z.data.cols ≠ []
  rows_pos : 0 < z.data.nrows
  rows : ∀ row ∈ z.rows, Legible sep (texts ct cd row)
  names : Legible sep ([] :: z.names.map (·.chars))
  short : ∀ s ∈ z.names, s.chars.length < STRING_SIZE

/-- All that is in a series is read from its text. -/
structure Coded (ct : Codec dtime) (cd : Codec Double) (sep : UInt8) (z : Series) : Prop where
  times : ∀ t ∈ z.times, Stored ct sep (z.data.cols.length + 1) t (ct.text t)
  elements : ∀ c ∈ z.data.cols, ∀ x ∈ c, Stored cd sep (z.data.cols.length + 1) x (cd.text x)
  time_le : ct.CMAX ≤ STRING_SIZE
  element_le : cd.CMAX ≤ STRING_SIZE

theorem length_names : z.names.length = z.data.cols.length := by
  rw [names]
  split
  · exact List.length_map _
  · next hne => exact z.data.names_or.resolve_left hne

theorem length_rows : z.rows.length = z.data.nrows := by
  rw [rows, List.length_zip, z.length_times, Matrix.rows, List.length_map, List.length_range,
    Nat.min_self]

theorem map_fst_rows : z.rows.map (fun x => x.1) = z.times := by
  refine List.map_fst_zip (le_of_eq ?_)
  rw [z.length_times, Matrix.rows, List.length_map, List.length_range]

theorem map_snd_rows : z.rows.map (fun x => x.2) = z.data.rows := by
  refine List.map_snd_zip (le_of_eq ?_)
  rw [z.length_times, Matrix.rows, List.length_map, List.length_range]

theorem kept (h : z.Storable ct cd sep) (hc : z.Coded ct cd sep) :
    ∀ row ∈ z.rows, Kept ct cd sep (z.data.cols.length + 1) row := by
  intro row hrow
  obtain ⟨htime, helts⟩ := List.of_mem_zip hrow
  refine ⟨hc.times _ htime, ?_, by rw [length_of_mem_rows _ helts], (h.rows row hrow).line⟩
  refine List.forall₂_map_right_iff.mpr (List.forall₂_same.mpr fun x hx => ?_)
  obtain ⟨c, hcol, hxc⟩ := mem_cols_of_mem_rows helts hx
  exact hc.elements c hcol x hxc

/-- The fields of the rows. -/
def body (ct : Codec dtime) (cd : Codec Double) (sep : UInt8) (z : Series) : List Field :=
  z.rows.flatMap fun row => rowFields sep (texts ct cd row)

/-- The fields of the header: there is one in front of the names. -/
def head (sep : UInt8) (z : Series) : List Field := rowFields sep ([] :: z.names.map (·.chars))

theorem length_le_body : z.data.nrows ≤ (z.body ct cd sep).length := by
  rw [← length_rows, body]
  generalize z.rows = rows
  induction rows with
  | nil => exact Nat.zero_le _
  | cons row rows ih =>
      rw [List.flatMap_cons, List.length_append, length_rowFields, texts, List.length_cons,
        List.length_cons]
      omega

theorem body_plain (h : z.Storable ct cd sep) : ∀ f ∈ z.body ct cd sep, Plain sep f := by
  intro f hf
  obtain ⟨row, hrow, hf⟩ := List.mem_flatMap.mp hf
  exact (h.rows row hrow).plain f hf

theorem body_length_le (h : z.Storable ct cd sep) (hc : z.Coded ct cd sep) :
    ∀ f ∈ z.body ct cd sep, f.1.length ≤ STRING_SIZE := by
  intro f hf
  obtain ⟨row, hrow, hf⟩ := List.mem_flatMap.mp hf
  have hk := kept h hc row hrow
  rcases List.mem_cons.mp (mem_rowFields hf) with heq | hmem
  · rw [heq]
    exact hk.time.lt_max.le.trans hc.time_le
  · obtain ⟨x, -, hx⟩ := exists_of_mem_right hk.elements hmem
    exact hx.lt_max.le.trans hc.element_le

theorem head_length_le (h : z.Storable ct cd sep) : ∀ f ∈ z.head sep, f.1.length ≤ STRING_SIZE := by
  intro f hf
  rcases List.mem_cons.mp (mem_rowFields hf) with heq | hmem
  · rw [heq]
    exact Nat.zero_le _
  · obtain ⟨s, hs, hchars⟩ := List.mem_map.mp hmem
    rw [← hchars]
    exact (h.short s hs).le

/-! ### Writing -/

theorem writecsv_rows (h : z.Storable ct cd sep) (hc : z.Coded ct cd sep) (w : Writer) :
    ∃ w', Writer.putSeries ct cd sep z.rows w = .ok () w' ∧
      w'.written = w.written ++ fileOf (z.body ct cd sep) :=
  putSeries_fields (hc.time_le.trans (by decide)) (hc.element_le.trans (by decide)) (kept h hc) w

theorem writecsv_unnamed (h : z.Storable ct cd sep) (hc : z.Coded ct cd sep) :
    writecsv_zts ct cd z false sep = .ok (fileOf (z.body ct cd sep)) () := by
  obtain ⟨w, hput, hw⟩ := writecsv_rows h hc ⟨[], []⟩
  rw [writecsv_zts, if_neg Bool.false_ne_true]
  simp only [Outcome.bind_ok, hput, Writer.flush]
  rw [← Writer.written, hw]
  rfl

theorem writecsv_named (h : z.Storable ct cd sep) (hc : z.Coded ct cd sep) :
    writecsv_zts ct cd z true sep = .ok (fileOf (z.head sep ++ z.body ct cd sep)) () := by
  obtain ⟨w₁, hnames, hw₁⟩ :=
    Writer.putNames_fields sep h.short ⟨[Writer.ender sep z.data.cols], []⟩
  obtain ⟨w₂, hput, hw₂⟩ := writecsv_rows h hc w₁
  have hender : Writer.ender sep (z.names.map (·.chars)) = Writer.ender sep z.data.cols := by
    rw [ender_map, Writer.ender, Writer.ender, List.isEmpty_eq_false_iff.mpr h.cols_ne,
      List.isEmpty_eq_false_iff.mpr
        (List.ne_nil_of_length_pos (by rw [length_names]; exact List.length_pos_of_ne_nil h.cols_ne))]
  have htimes : z.times ≠ [] :=
    List.ne_nil_of_length_pos (by rw [z.length_times]; exact h.rows_pos)
  rw [writecsv_zts, if_pos rfl, if_neg htimes]
  have hfirst : Writer.put [] (Writer.ender sep z.data.cols) ⟨[], []⟩ =
      .ok () ⟨[Writer.ender sep z.data.cols], []⟩ := rfl
  simp only [hfirst, Outcome.bind_ok, hnames, hput, Writer.flush]
  rw [← Writer.written, hw₂, hw₁, fileOf_append, head, rowFields, fileOf_cons, hender]
  rfl

/-! ### Reading -/

theorem ofRows_self (h : z.data.cols ≠ []) (names : List ZString) :
    TimedTable.ofRows z.data.nrows z.times z.data.cols names =
      ⟨z.times, ⟨z.data.nrows, z.data.cols, names⟩⟩ := by
  rw [TimedTable.ofRows, resized_cols _ h, z.length_times, Nat.sub_self, List.replicate_zero,
    List.append_nil, List.take_of_length_le z.length_times.le]

variable {all : List (List UInt8)} {r : Reader} {fuel : Nat}

theorem read_rows (h : z.Storable ct cd sep) (hc : z.Coded ct cd sep) (hfuel : z.data.nrows < fuel)
    (hfront : InFrontOf sep all r (fileOf (z.body ct cd sep))) :
    readTimedRows ct cd sep fuel 1 [] (z.names.map fun _ => []) r =
      .ok (z.times, z.data.cols, 1 + z.data.nrows) () := by
  have hempty : z.names.map (fun _ => ([] : List Double)) = z.data.cols.map (·.take 0) := by
    simp only [List.take_zero, List.map_const', length_names]
  have hkept : ∀ row ∈ z.rows, Kept ct cd sep ((z.names.map fun _ => ([] : List Double)).length + 1)
      row := by
    rw [List.length_map, length_names]
    exact kept h hc
  rw [readTimedRows_lines hkept (by rw [length_rows]; exact hfuel) hfront, List.nil_append,
    map_fst_rows, map_snd_rows, length_rows, hempty, rows_eq, foldl_pushRow (Nat.zero_add _)]

theorem read_head (h : z.Storable ct cd sep) (hfuel : z.names.length ≤ fuel) {rest : List UInt8}
    (hfront : InFrontOf sep all r (fileOf (z.head sep) ++ rest)) :
    ∃ r', (withToken sep r (fun _ _ => none) fun _ r =>
        (readNames sep fuel [] r).bind fun got _ => .ok (some got) ()) =
          .ok (some (z.names, r')) () ∧ InFrontOf sep all r' rest := by
  have hline := h.names.line
  rw [head, rowFields, fileOf_cons, List.append_assoc, List.cons_append] at hfront
  obtain ⟨r₁, hgot, htoken⟩ := withToken_field (hline.plain _ (.head _)) hfront
  have hne : z.names.map (·.chars) ≠ [] := by
    refine List.ne_nil_of_length_pos ?_
    rw [List.length_map, length_names]
    exact List.length_pos_of_ne_nil h.cols_ne
  obtain ⟨r', hok, hnext⟩ := @readNames_line sep all r₁ _ rest fuel [] hline.tail hne
    (by rw [List.length_map]; exact hfuel) hgot.next
  have hchars : (z.names.map (·.chars)).map ZString.ofString = z.names := by
    rw [List.map_map]
    exact (List.map_congr_left fun s hs => ZString.ofString_chars (h.short s hs)).trans (List.map_id _)
  rw [hchars, List.nil_append] at hok
  exact ⟨r', by rw [htoken, hok, Outcome.bind_ok], hnext⟩

/-- The file that is written with a header is read as the series again, in whatever pieces.
Columns without names come back with empty ones. -/
def RoundTrips (ct : Codec dtime) (cd : Codec Double) (sep : UInt8) (z : Series) : Prop :=
  ∃ file, writecsv_zts ct cd z true sep = .ok file () ∧
    ∀ buf pieces, buf.length = BUFSZ → Reads sep BUFSZ file pieces →
      readcsv_zts ct cd true sep (start buf pieces) =
        .ok ⟨z.times, ⟨z.data.nrows, z.data.cols, z.names⟩⟩ ()

theorem roundTrips (h : z.Storable ct cd sep) (hc : z.Coded ct cd sep) :
    z.RoundTrips ct cd sep := by
  refine ⟨_, writecsv_named h hc, fun buf pieces hbuf hread => ?_⟩
  have hfront := front_of_plain
    (fun f hf => (List.mem_append.mp hf).elim (h.names.plain f) (body_plain h f))
    (fun f hf => (List.mem_append.mp hf).elim (head_length_le h f) (body_length_le h hc f)) hbuf hread
  rw [fileOf_append] at hfront
  have hfile := length_le_fileOf (z.head sep ++ z.body ct cd sep)
  have hhead : (z.head sep).length = z.names.length + 1 := by
    rw [head, length_rowFields, List.length_cons, List.length_map]
  have hbody := @length_le_body ct cd sep z
  rw [← hread.file_eq, List.length_append] at hfile
  obtain ⟨r', hok, hnext⟩ := @read_head ct cd sep z _ _ (pieces.flatten.length + 2) h (by omega) _
    hfront
  rw [readcsv_zts, if_pos rfl]
  simp only [start] at hok ⊢
  rw [hok]
  simp only [onRow, Outcome.tryCatch_ok, Outcome.bind_ok, Option.elim_some]
  rw [read_rows h hc (by omega) hnext, Outcome.bind_ok, Nat.add_sub_cancel_left, ofRows_self h.cols_ne]

/-! ### Without a header -/

/-- A column of one row does not fit an array without rows. -/
theorem abind_first (d : Double) :
    Grid.abind ⟨[1, 1], [[d]], [.ofExtent 1, .ofExtent 1]⟩ 1
      ⟨[0, 0], [], [.ofExtent 0, .ofExtent 0]⟩ =
        .throw (.rangeError "incorrect dimensions for abind") () := rfl

/-- The file that is written without a header is never read as a series again. -/
def NeverRead (ct : Codec dtime) (cd : Codec Double) (sep : UInt8) (z : Series) : Prop :=
  ∃ file, writecsv_zts ct cd z false sep = .ok file () ∧
    ∀ buf pieces, buf.length = BUFSZ → Reads sep BUFSZ file pieces →
      readcsv_zts ct cd false sep (start buf pieces) =
        .throw (.outOfRange "incorrect dimensions for abind on row 1") ()

theorem neverRead (h : z.Storable ct cd sep) (hc : z.Coded ct cd sep) : z.NeverRead ct cd sep := by
  refine ⟨_, writecsv_unnamed h hc, fun buf pieces hbuf hread => ?_⟩
  have hfront := front_of_plain (body_plain h) (body_length_le h hc) hbuf hread
  obtain ⟨row, rows, hz⟩ := List.exists_cons_of_length_pos (by rw [length_rows (z := z)]; exact h.rows_pos)
  have hk := kept h hc row (by rw [hz]; exact .head _)
  obtain ⟨d, ds, hd⟩ := List.exists_cons_of_length_pos (show 0 < row.2.length by
    have := List.length_pos_of_ne_nil h.cols_ne
    have := hk.size
    omega)
  have hline := hk.line
  have helts := hk.elements
  rw [texts, hd, List.map_cons] at hline
  rw [hd, List.map_cons] at helts
  rw [body, hz, List.flatMap_cons, texts, hd, List.map_cons, rowFields, rowFields, fileOf_append,
    fileOf_cons, fileOf_cons, List.append_assoc, List.cons_append, List.append_assoc,
    List.cons_append] at hfront
  obtain ⟨r₁, hgot₁, htoken₁⟩ := withToken_field (hline.plain _ (.head _)) hfront
  obtain ⟨r₂, hgot₂, htoken₂⟩ := withToken_field (hline.tail.plain _ (.head _)) hgot₁.next
  have hsize := hk.size
  rw [hd, List.length_cons] at hsize
  have hender₁ := @ender_eq_or sep (z.data.cols.length + 1) (cd.text d :: ds.map cd.text)
    (by rw [List.length_cons, List.length_map]; omega)
  have hender₂ := @ender_eq_or sep (z.data.cols.length + 1) (ds.map cd.text)
    (by rw [List.length_map]; omega)
  have htime := parse_got ("' on row " ++ toString 1) hk.time hender₁ hgot₁
  cases helts with
  | cons hd₁ _ =>
      have helt := parse_got "" hd₁ hender₂ hgot₂
      rw [readcsv_zts, if_neg Bool.false_ne_true]
      simp only [start] at htoken₁ ⊢
      rw [htoken₁, htime, Outcome.bind_ok, readColumns, htoken₂, helt, Outcome.bind_ok, abind_first]
      rfl

/-! ### Times for UTC -/

variable {tzones : List UInt8 → Except Exn Zone} {utc : Zone}

theorem coded (hfind : tzones utcName = .ok utc) (hlevel : Level utc) (hmax : cd.CMAX ≤ STRING_SIZE)
    (hcd : ∀ c ∈ z.data.cols, ∀ x ∈ c, Stored cd sep (z.data.cols.length + 1) x (cd.text x)) :
    z.Coded (dtimeCodec tzones) cd sep where
  times t _ := stored_dtime hfind hlevel t
  elements := hcd
  time_le := le_rfl
  element_le := hmax

/-- A codec of doubles, on 0 and 1. -/
def digits : Codec Double where
  toChar x :=
    if x = ⟨0⟩ then .ok [48] ()
    else if x = ⟨0x3ff0000000000000⟩ then .ok [49] ()
    else .throw (.outOfRange "not a digit") ()
  CMAX := 64
  fromChar buf _ :=
    if buf.head? = some 48 then .ok (⟨0⟩, 1) ()
    else if buf.head? = some 49 then .ok (⟨0x3ff0000000000000⟩, 1) ()
    else .ok (⟨0x7ff8000000000000⟩, 0) ()

theorem stored_digits {k : Nat} {x : Double} (h : x = ⟨0⟩ ∨ x = ⟨0x3ff0000000000000⟩) :
    Stored digits sep k x (digits.text x) := by
  rcases h with rfl | rfl
  · exact ⟨rfl, by decide, fun e more _ => rfl⟩
  · exact ⟨rfl, by decide, fun e more _ => rfl⟩

/-- There is only UTC. -/
def onlyUtc (name : List UInt8) : Except Exn Zone :=
  if name = utcName then .ok ⟨[], [⟨0, 0⟩], 0⟩ else .error (.rangeError "can't find timezone")

/-- Two rows of two columns without names. -/
def twoByTwo : Series where
  times := [⟨-1⟩, ⟨1⟩]
  data := ⟨2, [[⟨0⟩, ⟨0x3ff0000000000000⟩], [⟨0⟩, ⟨0⟩]], [], by decide, by decide⟩
  length_times := rfl

theorem twoByTwo_storable : twoByTwo.Storable (dtimeCodec onlyUtc) digits 44 where
  cols_ne := List.cons_ne_nil _ _
  rows_pos := Nat.two_pos
  rows := by decide +kernel
  names := by decide
  short := by decide

theorem twoByTwo_digits : ∀ c ∈ twoByTwo.data.cols, ∀ x ∈ c,
    x = ⟨0⟩ ∨ x = ⟨0x3ff0000000000000⟩ := by decide

end Series

end Ztsdb.Csv
