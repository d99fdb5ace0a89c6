import Mathlib
import Ztsdb.Arr.NameMap
import Ztsdb.Csv.TableSpec

/-!
# Writing a table and reading it again

The file holds a field for every name and every element, no matter when the buffer was written
out. The reader goes through them row by row and puts each element behind its column. So a
table comes back when its texts are such that they are read as they stand.
-/

namespace Ztsdb.Csv

open Ztsdb.Lib Ztsdb.Lib.Decimal Ztsdb.Arr Ztsdb.Tz

/-! ## The file -/

namespace Writer

/-- All that has been put. -/
def written (w : Writer) : List UInt8 := w.file ++ w.buf

theorem put_reserve {k : Nat} {text : List UInt8} (last : UInt8) (w : Writer)
    (hlt : text.length < k) (hk : k ≤ BUFSZ) : ∃ w', (w.reserve k).put text last = .ok () w' ∧
      w'.written = w.written ++ (text ++ [last]) := by
  rw [reserve]
  split
  · rw [flush, put, if_pos (by rw [List.length_nil]; omega)]
    exact ⟨_, rfl, rfl⟩
  · rw [put, if_pos (by omega)]
    exact ⟨_, rfl, by rw [written, written, List.append_assoc]⟩

theorem putNames_fields (sep : UInt8) {names : List ZString}
    (hshort : ∀ s ∈ names, s.chars.length < STRING_SIZE) (w : Writer) :
    ∃ w', putNames sep names w = .ok () w' ∧
      w'.written = w.written ++ fileOf (rowFields sep (names.map (·.chars))) := by
  induction names generalizing w with
  | nil => exact ⟨w, rfl, (List.append_nil _).symm⟩
  | cons s names ih =>
      obtain ⟨w₁, hput, hw₁⟩ := put_reserve (ender sep names) w (hshort s (.head _)) (by decide)
      obtain ⟨w₂, hnames, hw₂⟩ := ih (fun s hs => hshort s (.tail _ hs)) w₁
      refine ⟨w₂, by rw [putNames, hput, Outcome.bind_ok, hnames], ?_⟩
      have hender : ender sep (names.map (·.chars)) = ender sep names := by
        rw [ender, ender, List.isEmpty_map]
      rw [hw₂, hw₁, List.map_cons, rowFields, fileOf_cons, hender, List.append_assoc,
        List.append_assoc]
      rfl

variable {T : Type} {codec : Codec T} {sep : UInt8} {k : Nat}

theorem putRow_fields (hmax : codec.CMAX ≤ BUFSZ) {xs : List T} {ts : List (List UInt8)}
    (hrow : StoredRow codec sep k xs ts) (w : Writer) : ∃ w', putRow codec sep xs w = .ok () w' ∧
      w'.written = w.written ++ fileOf (rowFields sep ts) := by
  induction hrow generalizing w with
  | nil => exact ⟨w, rfl, (List.append_nil _).symm⟩
  | @cons x t xs ts hx hrow ih =>
      obtain ⟨w₁, hput, hw₁⟩ := put_reserve (ender sep xs) w hx.lt_max hmax
      obtain ⟨w₂, hxs, hw₂⟩ := ih w₁
      refine ⟨w₂, by simp only [putRow, hx.toChar_eq, hput, Outcome.bind_ok, hxs], ?_⟩
      have hender : ender sep ts = ender sep xs := by
        cases hrow with
        | nil => rfl
        | cons => rfl
      rw [hw₂, hw₁, rowFields, fileOf_cons, hender, List.append_assoc, List.append_assoc]
      rfl

theorem putRows_fields (hmax : codec.CMAX ≤ BUFSZ) {rows : List (List T)}
    {lines : List (List (List UInt8))} (hrows : List.Forall₂ (StoredRow codec sep k) rows lines)
    (w : Writer) : ∃ w', putRows codec sep rows w = .ok () w' ∧
      w'.written = w.written ++ fileOf (lines.flatMap (rowFields sep)) := by
  induction hrows generalizing w with
  | nil => exact ⟨w, rfl, (List.append_nil _).symm⟩
  | cons hrow hrows ih =>
      obtain ⟨w₁, hput, hw₁⟩ := putRow_fields hmax hrow w
      obtain ⟨w₂, hxs, hw₂⟩ := ih w₁
      refine ⟨w₂, by rw [putRows, hput, Outcome.bind_ok, hxs], ?_⟩
      rw [hw₂, hw₁, List.flatMap_cons, fileOf_append, List.append_assoc]

end Writer

section Tables

variable {T : Type} {codec : Codec T} {sep : UInt8} {k : Nat} (a : Matrix T)

/-- The texts of the names, when there are names. -/
def Matrix.header : List (List UInt8) := a.names.map (·.chars)

/-- All fields of a file. -/
def Matrix.fields (sep : UInt8) (lines : List (List (List UInt8))) : List Field :=
  rowFields sep a.header ++ lines.flatMap (rowFields sep)

variable {a}

theorem Matrix.hasNames_iff : a.hasNames = true ↔ a.names ≠ [] := by
  rw [Matrix.hasNames]
  simp

theorem writecsv_array_fields (hmax : codec.CMAX ≤ BUFSZ) {lines : List (List (List UInt8))}
    (hrows : List.Forall₂ (StoredRow codec sep k) a.rows lines)
    (hshort : ∀ s ∈ a.names, s.chars.length < STRING_SIZE) :
    writecsv_array codec a a.hasNames sep = .ok (fileOf (a.fields sep lines)) () := by
  obtain ⟨w₁, hhead, hw₁⟩ : ∃ w₁, (if a.hasNames then
      Writer.putNames sep (if a.names = [] then a.cols.map fun _ => ZString.empty else a.names)
        ⟨[], []⟩ else .ok () ⟨[], []⟩) = .ok () w₁ ∧
      w₁.written = fileOf (rowFields sep a.header) := by
    by_cases hnames : a.names = []
    · rw [if_neg (mt Matrix.hasNames_iff.mp (not_not.mpr hnames)), Matrix.header, hnames]
      exact ⟨_, rfl, rfl⟩
    · rw [if_pos (Matrix.hasNames_iff.mpr hnames), if_neg hnames]
      exact Writer.putNames_fields sep hshort _
  obtain ⟨w₂, hput, hw₂⟩ := Writer.putRows_fields hmax hrows w₁
  simp only [writecsv_array, hhead, Outcome.bind_ok, hput, Writer.flush]
  rw [← Writer.written, hw₂, hw₁, ← fileOf_append, Matrix.fields]

/-! ## The columns -/

theorem pushRow_take {n i : Nat} {cols : List (List T)} (hcols : ∀ c ∈ cols, c.length = n)
    (hi : i < n) : pushRow (cols.map (·.take i)) (cols.filterMap (·[i]?)) =
      cols.map (·.take (i + 1)) := by
  induction cols with
  | nil => rfl
  | cons c cols ih =>
      have hlt : i < c.length := by
        rw [hcols c (.head _)]
        exact hi
      rw [List.filterMap_cons, List.getElem?_eq_getElem hlt, List.map_cons, pushRow,
        ih fun d hd => hcols d (.tail _ hd), List.map_cons, List.take_concat_get' c i hlt]

theorem foldl_pushRow {i k : Nat} (h : i + k = a.nrows) :
    ((List.range' i k).map a.row).foldl pushRow (a.cols.map (·.take i)) = a.cols := by
  induction k generalizing i with
  | zero =>
      rw [List.range'_zero, List.map_nil, List.foldl_nil]
      refine (List.map_congr_left fun c hc => ?_).trans (List.map_id _)
      exact List.take_of_length_le (by rw [a.length_col c hc]; omega)
  | succ k ih =>
      rw [List.range'_succ, List.map_cons, List.foldl_cons, Matrix.row,
        pushRow_take a.length_col (by omega), ih (by omega)]

theorem length_row {i : Nat} (h : i < a.nrows) : (a.row i).length = a.cols.length := by
  have hcols := a.length_col
  rw [Matrix.row]
  generalize a.cols = cols at hcols
  induction cols with
  | nil => rfl
  | cons c cols ih =>
      have hlt : i < c.length := by
        rw [hcols c (.head _)]
        exact h
      rw [List.filterMap_cons, List.getElem?_eq_getElem hlt]
      simp only [List.length_cons, ih fun d hd => hcols d (.tail _ hd)]

theorem resized_cols (init : T) (hne : a.cols ≠ []) (names : List ZString) :
    resized init a.nrows a.cols names = ⟨a.nrows, a.cols, names⟩ := by
  rw [resized, if_neg hne]
  congr 1
  refine (List.map_congr_left fun c hc => ?_).trans (List.map_id _)
  rw [List.take_of_length_le (a.length_col c hc).le, a.length_col c hc, Nat.sub_self,
    List.replicate_zero, List.append_nil]
  rfl

/-- The first row as columns. -/
theorem singletons_row {n : Nat} {cols : List (List T)} (hcols : ∀ c ∈ cols, c.length = n)
    (hn : 0 < n) : (cols.filterMap (·[0]?)).map (fun d => [d]) = cols.map (·.take 1) := by
  induction cols with
  | nil => rfl
  | cons c cols ih =>
      obtain ⟨d, c, rfl⟩ := List.exists_cons_of_length_pos ((hcols c (.head _)).symm ▸ hn)
      have htail := ih fun e he => hcols e (.tail _ he)
      rw [List.filterMap_cons, List.map_cons, ← htail]
      rfl

/-! ## The whole table -/

theorem mem_rowFields {f : Field} {ts : List (List UInt8)} (h : f ∈ rowFields sep ts) :
    f.1 ∈ ts := by
  induction ts with
  | nil => cases h
  | cons t ts ih =>
      cases h with
      | head => exact .head _
      | tail _ h => exact .tail _ (ih h)

theorem exists_of_mem_right {α β : Type} {R : α → β → Prop} {xs : List α} {ys : List β}
    (h : List.Forall₂ R xs ys) {y : β} (hy : y ∈ ys) : ∃ x ∈ xs, R x y := by
  induction h with
  | nil => cases hy
  | cons hxy _ ih =>
      cases hy with
      | head => exact ⟨_, .head _, hxy⟩
      | tail _ hy =>
          obtain ⟨x, hx, hR⟩ := ih hy
          exact ⟨x, .tail _ hx, hR⟩

/-- What it takes to read a table that has the texts `lines`. -/
structure Readable (codec : Codec T) (sep : UInt8) (a : Matrix T)
    (lines : List (List (List UInt8))) : Prop where
  cols_ne : a.cols ≠ []
  rows_pos : 0 < a.nrows
  max_le : codec.CMAX ≤ STRING_SIZE
  stored : List.Forall₂ (StoredRow codec sep a.cols.length) a.rows lines
  line : ∀ ts ∈ lines, Line sep ts
  header : Line sep a.header
  short : ∀ s ∈ a.names, s.chars.length < STRING_SIZE

variable {lines : List (List (List UInt8))}

theorem Readable.plain (h : Readable codec sep a lines) : ∀ f ∈ a.fields sep lines, Plain sep f := by
  intro f hf
  rcases List.mem_append.mp hf with hf | hf
  · exact h.header.plain f hf
  · obtain ⟨ts, hts, hf⟩ := List.mem_flatMap.mp hf
    exact (h.line ts hts).plain f hf

theorem Readable.length_le (h : Readable codec sep a lines) :
    ∀ f ∈ a.fields sep lines, f.1.length ≤ STRING_SIZE := by
  intro f hf
  rcases List.mem_append.mp hf with hf | hf
  · obtain ⟨s, hs, hchars⟩ := List.mem_map.mp (mem_rowFields hf)
    rw [← hchars]
    exact (h.short s hs).le
  · obtain ⟨ts, hts, hf⟩ := List.mem_flatMap.mp hf
    obtain ⟨xs, -, hrow⟩ := exists_of_mem_right h.stored hts
    obtain ⟨x, -, hx⟩ := exists_of_mem_right hrow (mem_rowFields hf)
    exact hx.lt_max.le.trans h.max_le

theorem length_of_mem_rows : ∀ xs ∈ a.rows, xs.length = a.cols.length := by
  intro xs hxs
  obtain ⟨i, hi, rfl⟩ := List.mem_map.mp hxs
  exact length_row (List.mem_range.mp hi)

theorem length_lines {rows : List (List T)} {n : Nat}
    (hrows : List.Forall₂ (StoredRow codec sep k) rows lines) (hlen : ∀ xs ∈ rows, xs.length = n) :
    (lines.flatMap (rowFields sep)).length = rows.length * n := by
  induction hrows with
  | nil => exact (Nat.zero_mul n).symm
  | @cons xs ts rows lines hrow _ ih =>
      rw [List.flatMap_cons, List.length_append, length_rowFields, ← hrow.length_eq,
        hlen xs (.head _), ih fun ys hys => hlen ys (.tail _ hys), List.length_cons,
        Nat.succ_mul, Nat.add_comm]

/-- A file has at least a byte for every element. -/
theorem Readable.le_length (h : Readable codec sep a lines) :
    a.nrows ≤ (fileOf (a.fields sep lines)).length ∧
      a.cols.length ≤ (fileOf (a.fields sep lines)).length := by
  have hlines := length_lines h.stored length_of_mem_rows
  have hfile := length_le_fileOf (a.fields sep lines)
  rw [Matrix.rows, List.length_map, List.length_range] at hlines
  rw [Matrix.fields, List.length_append, hlines] at hfile
  have hrows := Nat.le_mul_of_pos_right a.nrows (List.length_pos_iff.mpr h.cols_ne)
  have hcols := Nat.le_mul_of_pos_left a.cols.length h.rows_pos
  rw [Matrix.fields]
  omega

theorem Readable.front (h : Readable codec sep a lines) {buf : List UInt8}
    (hbuf : buf.length = BUFSZ) {pieces : List (List UInt8)}
    (hread : Reads sep BUFSZ (fileOf (a.fields sep lines)) pieces) :
    InFrontOf sep pieces (start buf pieces)
      (fileOf (rowFields sep a.header) ++ fileOf (lines.flatMap (rowFields sep))) := by
  have hclean : Clean sep buf.length pieces := by
    rw [hbuf]
    exact clean_of_plain h.plain h.length_le (by decide) hread
  have hskip := Reader.skip_start hclean
  rw [hread.file_eq, Matrix.fields, fileOf_append] at hskip
  exact ⟨hskip, hclean⟩

theorem rows_eq : a.rows = (List.range' 0 a.nrows).map a.row := by
  rw [Matrix.rows, List.range_eq_range']

variable {all : List (List UInt8)} {r : Reader} {fuel : Nat}

/-- A table with names: the names, and then all rows behind empty columns. -/
theorem Readable.read_named (h : Readable codec sep a lines) (hnames : a.names ≠ [])
    (hcols : a.cols.length ≤ fuel) (hrows : a.nrows < fuel)
    (hfront : InFrontOf sep all r
      (fileOf (rowFields sep a.header) ++ fileOf (lines.flatMap (rowFields sep)))) :
    ∃ r', readNames sep fuel [] r = .ok (a.names, r') () ∧
      readRows codec sep fuel 1 (a.names.map fun _ => []) r' = .ok (a.cols, 1 + a.nrows) () := by
  have hlen := a.names_or.resolve_left hnames
  have hpos := List.length_pos_iff.mpr h.cols_ne
  have hheader : a.header.length = a.cols.length := by
    rw [Matrix.header, List.length_map, hlen]
  have hchars : a.header.map ZString.ofString = a.names := by
    rw [Matrix.header, List.map_map]
    exact (List.map_congr_left fun s hs => ZString.ofString_chars (h.short s hs)).trans (List.map_id _)
  have hempty : a.names.map (fun _ => ([] : List T)) = a.cols.map (·.take 0) := by
    simp only [List.take_zero, List.map_const', hlen]
  obtain ⟨r', hok, hnext⟩ := @readNames_line sep all r a.header _ fuel [] h.header
    (List.ne_nil_of_length_pos (by omega)) (by omega) hfront
  rw [hchars, List.nil_append] at hok
  refine ⟨r', hok, ?_⟩
  have hlength : a.rows.length = a.nrows := by
    rw [Matrix.rows, List.length_map, List.length_range]
  rw [readRows_lines h.stored length_of_mem_rows (by rw [List.length_map, hlen]) hpos h.line
    (by rw [hlength]; exact hrows) hnext, hempty, hlength, rows_eq, foldl_pushRow (Nat.zero_add _)]

/-- A table without names: the first row as columns, and then the rows behind it. -/
theorem Readable.read_unnamed (h : Readable codec sep a lines)
    (hcols : a.cols.length ≤ fuel) (hrows : a.nrows < fuel)
    (hfront : InFrontOf sep all r (fileOf (lines.flatMap (rowFields sep)))) :
    ∃ r', readFirst codec sep fuel [] r = .ok (a.row 0, r') () ∧
      readRows codec sep fuel 1 ((a.row 0).map fun d => [d]) r' = .ok (a.cols, a.nrows) () := by
  have hpos := List.length_pos_iff.mpr h.cols_ne
  obtain ⟨n, hn⟩ : ∃ n, a.nrows = n + 1 := ⟨a.nrows - 1, by have := h.rows_pos; omega⟩
  have hsplit : a.rows = a.row 0 :: (List.range' 1 n).map a.row := by
    rw [rows_eq, hn, List.range'_succ, List.map_cons]
  have hstored := h.stored
  have hlen := @length_of_mem_rows _ a
  have hline := h.line
  rw [hsplit] at hstored hlen
  cases hstored with
  | @cons _ ts _ lines hrow hstored =>
      rw [List.flatMap_cons, fileOf_append] at hfront
      have hts : ts.length = a.cols.length := by
        rw [← hrow.length_eq, hlen _ (.head _)]
      obtain ⟨r', hok, hnext⟩ := @readFirst_line sep all r T codec _ _ ts _ fuel [] hrow hts.le
        (hline ts (.head _)) (List.ne_nil_of_length_pos (by omega)) (by omega) hfront
      refine ⟨r', hok, ?_⟩
      have hrest : ((List.range' 1 n).map a.row).length = n := by
        rw [List.length_map, List.length_range']
      rw [readRows_lines hstored (fun ys hys => hlen ys (.tail _ hys))
        (by rw [List.length_map, hlen _ (.head _)]) hpos (fun us hus => hline us (.tail _ hus))
        (by rw [hrest]; omega) hnext, Matrix.row, singletons_row a.length_col h.rows_pos, hrest,
        foldl_pushRow (by omega), hn, Nat.add_comm]

/-- A table is read from the file that was written for it. -/
theorem Readable.read_table (h : Readable codec sep a lines) (init : T) {buf : List UInt8}
    (hbuf : buf.length = BUFSZ) {pieces : List (List UInt8)}
    (hread : Reads sep BUFSZ (fileOf (a.fields sep lines)) pieces) :
    readcsv_array codec init a.hasNames sep (start buf pieces) =
      .ok ⟨a.nrows, a.cols, a.names⟩ () := by
  have hfront := h.front hbuf hread
  obtain ⟨hrows, hcols⟩ := h.le_length
  rw [← hread.file_eq] at hrows hcols
  rw [readcsv_array]
  by_cases hnames : a.names = []
  · rw [Matrix.header, hnames] at hfront
    obtain ⟨r', hfirst, hrest⟩ := h.read_unnamed (Nat.le_add_right_of_le hcols)
      (Nat.lt_of_le_of_lt hrows (Nat.lt_add_of_pos_right Nat.two_pos)) hfront
    rw [if_neg (mt Matrix.hasNames_iff.mp (not_not.mpr hnames))]
    simp only [start] at hfirst hrest ⊢
    rw [hfirst]
    simp only [onRow, Outcome.tryCatch_ok, Outcome.bind_ok, hrest]
    rw [resized_cols init h.cols_ne, hnames]
  · obtain ⟨r', hfirst, hrest⟩ := h.read_named hnames (Nat.le_add_right_of_le hcols)
      (Nat.lt_of_le_of_lt hrows (Nat.lt_add_of_pos_right Nat.two_pos)) hfront
    rw [if_pos (Matrix.hasNames_iff.mpr hnames)]
    simp only [start] at hfirst hrest ⊢
    rw [hfirst]
    simp only [onRow, Outcome.tryCatch_ok, Outcome.bind_ok, hrest]
    rw [Nat.add_sub_cancel_left, resized_cols init h.cols_ne]

end Tables

end Ztsdb.Csv
