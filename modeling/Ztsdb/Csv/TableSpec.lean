import Mathlib
import Ztsdb.Csv.ReadTokenSpec
import Ztsdb.Csv.Table
import Ztsdb.Tz.TimeRoundTrip

/-!
# Tables are read as they were written

A file is written as fields, each a text and the byte that ends it. As long as no text has a
separator or a newline in it or looks quoted, the fields are the tokens of the file, no matter
in which pieces it is read, and a row of fields is read as the row of elements it was written
for.
-/

namespace Ztsdb.Csv

open Ztsdb.Lib Ztsdb.Lib.Decimal Ztsdb.Arr Ztsdb.Tz

/-! ## Fields -/

/-- A text and what ends it. -/
abbrev Field : Type := List UInt8 × UInt8

def fileOf (fs : List Field) : List UInt8 := fs.flatMap fun f => f.1 ++ [f.2]

/-- The fields of a row. -/
def rowFields (sep : UInt8) : List (List UInt8) → List Field
  | [] => []
  | t :: ts => (t, Writer.ender sep ts) :: rowFields sep ts

/-- A field that is read as it stands. -/
structure Plain (sep : UInt8) (f : Field) : Prop where
  inside : ∀ c ∈ f.1, ¬(c = sep ∨ c = newline)
  front : (f.1 ++ [f.2]).head? ≠ some quote
  last : f.2 = sep ∨ f.2 = newline
  ascii : 0 ≤ charVal f.2

variable {sep : UInt8}

theorem fileOf_cons (f : Field) (fs : List Field) :
    fileOf (f :: fs) = f.1 ++ f.2 :: fileOf fs := by
  rw [fileOf, List.flatMap_cons, List.append_assoc]
  rfl

theorem fileOf_append (fs gs : List Field) : fileOf (fs ++ gs) = fileOf fs ++ fileOf gs :=
  List.flatMap_append

theorem length_rowFields (ts : List (List UInt8)) : (rowFields sep ts).length = ts.length := by
  induction ts with
  | nil => rfl
  | cons t ts ih => rw [rowFields, List.length_cons, ih, List.length_cons]

theorem length_le_fileOf (fs : List Field) : fs.length ≤ (fileOf fs).length := by
  induction fs with
  | nil => exact le_rfl
  | cons f fs ih =>
      rw [fileOf_cons, List.length_append, List.length_cons, List.length_cons]
      omega

theorem charVal_eq_newline {c : UInt8} (h : charVal c = charVal newline) : c = newline := by
  have h10 : charVal newline = 10 := rfl
  have hlt := c.toNat_lt
  rw [h10, charVal] at h
  apply UInt8.toNat_inj.mp
  show c.toNat = 10
  split at h <;> omega

/-! ## Where a piece can end -/

theorem foldl_plain {t : List UInt8} (h : ∀ c ∈ t, ¬(c = sep ∨ c = newline)) (k : Nat) :
    t.foldl (Mark.step sep) ⟨.plain, k⟩ = ⟨.plain, k + t.length⟩ := by
  induction t generalizing k with
  | nil => rfl
  | cons c t ih =>
      have hc := h c (.head _)
      have hstep : Mark.step sep ⟨.plain, k⟩ c = ⟨.plain, k + 1⟩ := by
        rw [Mark.step]
        simp only [if_neg hc]
      rw [List.foldl_cons, hstep, ih fun d hd => h d (.tail _ hd), List.length_cons]
      congr 1
      omega

/-- Within a text. -/
theorem foldl_inside {m : Mark} {f : Field} {u : List UInt8} (hm : m.place = .front)
    (hf : Plain sep f) (hu : u <+: f.1) (hne : u ≠ []) :
    u.foldl (Mark.step sep) m = ⟨.plain, u.length⟩ := by
  obtain ⟨c, u, rfl⟩ := List.exists_cons_of_ne_nil hne
  obtain ⟨v, hv⟩ := hu
  have hfront := hf.front
  rw [← hv] at hfront
  have hquote : c ≠ quote := fun heq => hfront (by rw [heq]; rfl)
  have hinside : ∀ d ∈ c :: u, ¬(d = sep ∨ d = newline) := fun d hd =>
    hf.inside d (hv ▸ List.mem_append_left _ hd)
  have hstep : m.step sep c = ⟨.plain, 1⟩ := by
    rw [Mark.step, hm]
    simp only [if_neg hquote, if_neg (hinside c (.head _))]
  rw [List.foldl_cons, hstep, foldl_plain fun d hd => hinside d (.tail _ hd), List.length_cons,
    Nat.add_comm]

/-- Behind a field. -/
theorem foldl_field {m : Mark} {f : Field} (hm : m.place = .front) (hf : Plain sep f) :
    (f.1 ++ [f.2]).foldl (Mark.step sep) m = ⟨.front, f.1.length + 1⟩ := by
  obtain ⟨t, e⟩ := f
  have hlast := hf.last
  rw [List.foldl_append, List.foldl_cons, List.foldl_nil]
  by_cases ht : t = []
  · have hfront := hf.front
    simp only [ht, List.nil_append] at hfront
    have hquote : e ≠ quote := fun heq => hfront (by rw [heq]; rfl)
    simp only [ht, List.foldl_nil, Mark.step, hm, if_neg hquote, if_pos hlast, List.length_nil]
  · rw [foldl_inside hm hf (List.prefix_refl _) ht]
    simp only [Mark.step, if_pos hlast]

/-- In a file of plain fields, no more is held than a field with its end, and no closing quote
is passed. -/
theorem foldl_file {fs : List Field} {L : Nat} (hfs : ∀ f ∈ fs, Plain sep f)
    (hL : ∀ f ∈ fs, f.1.length ≤ L) {m : Mark} (hm : m.place = .front) (hheld : m.held ≤ L + 1)
    {pre : List UInt8} (hpre : pre <+: fileOf fs) :
    (pre.foldl (Mark.step sep) m).place ≠ .closed ∧
      (pre.foldl (Mark.step sep) m).held ≤ L + 1 := by
  induction fs generalizing m pre with
  | nil =>
      rw [List.prefix_nil.mp hpre]
      exact ⟨fun h => (by rw [List.foldl_nil, hm] at h; cases h), hheld⟩
  | cons f fs ih =>
      obtain ⟨s, hs⟩ := hpre
      have hf := hfs f (.head _)
      have hlen := hL f (.head _)
      rw [fileOf, List.flatMap_cons] at hs
      rcases List.append_eq_append_iff.mp hs with ⟨a', ha, -⟩ | ⟨pre', rfl, hrest⟩
      · rcases List.prefix_concat_iff.mp ⟨a', ha.symm⟩ with rfl | hin
        · rw [foldl_field hm hf]
          exact ⟨Place.noConfusion, Nat.succ_le_succ hlen⟩
        · by_cases hnil : pre = []
          · rw [hnil]
            exact ⟨fun h => (by rw [List.foldl_nil, hm] at h; cases h), hheld⟩
          · rw [foldl_inside hm hf hin hnil]
            exact ⟨Place.noConfusion, (hin.length_le.trans hlen).trans (Nat.le_succ L)⟩
      · rw [List.foldl_append, foldl_field hm hf]
        exact ih (fun g hg => hfs g (.tail _ hg)) (fun g hg => hL g (.tail _ hg)) rfl
          (Nat.succ_le_succ hlen) ⟨s, hrest.symm⟩

/-- The pieces are a file, each of at least a byte and no more than was asked for. -/
structure Reads (sep : UInt8) (bufsz : Nat) (file : List UInt8) (pieces : List (List UInt8)) :
    Prop where
  file_eq : pieces.flatten = file
  fits : ∀ done p rest, pieces = done ++ p :: rest →
    p ≠ [] ∧ (mark sep done.flatten).held + p.length ≤ bufsz

/-- A file that fits the buffer can come in any pieces. -/
theorem reads_of_short {pieces : List (List UInt8)} {bufsz : Nat} (hne : ∀ p ∈ pieces, p ≠ [])
    (hlen : pieces.flatten.length ≤ bufsz) : Reads sep bufsz pieces.flatten pieces := by
  refine ⟨rfl, ?_⟩
  rintro done p rest rfl
  have hheld := held_mark_le sep done.flatten
  refine ⟨hne p (List.mem_append_right _ (.head _)), ?_⟩
  rw [List.flatten_append, List.length_append, List.flatten_cons, List.length_append] at hlen
  omega

theorem clean_of_plain {fs : List Field} {L bufsz : Nat} (hfs : ∀ f ∈ fs, Plain sep f)
    (hL : ∀ f ∈ fs, f.1.length ≤ L) (hbuf : L + 2 < bufsz) {pieces : List (List UInt8)}
    (hread : Reads sep bufsz (fileOf fs) pieces) : Clean sep bufsz pieces := by
  have hmark : ∀ done rest, pieces = done ++ rest →
      (mark sep done.flatten).place ≠ .closed ∧ (mark sep done.flatten).held ≤ L + 1 := by
    intro done rest heq
    have hpre : done.flatten <+: fileOf fs :=
      ⟨rest.flatten, by rw [← List.flatten_append, ← heq, hread.file_eq]⟩
    exact foldl_file hfs hL rfl (Nat.zero_le _) hpre
  refine ⟨by omega, hread.fits, fun done rest heq _ => (hmark done rest heq).1,
    fun done rest heq _ => ?_⟩
  have hheld := (hmark done rest heq).2
  rw [Mark.need]
  split <;> omega

/-! ## Tokens -/

theorem plainToken_field {t s : List UInt8} {e : UInt8} (tok : List UInt8)
    (ht : ∀ c ∈ t, ¬(c = sep ∨ c = newline)) (he : e = sep ∨ e = newline) :
    plainToken sep tok (t ++ e :: s) = (tok ++ t, charVal e, e :: s) := by
  induction t generalizing tok with
  | nil => rw [List.nil_append, plainToken, if_pos he, List.append_nil]
  | cons c t ih =>
      rw [List.cons_append, plainToken, if_neg (ht c (.head _)),
        ih _ fun d hd => ht d (.tail _ hd), List.append_assoc]
      rfl

theorem nextToken_field {f : Field} (hf : Plain sep f) (s : List UInt8) :
    nextToken sep (f.1 ++ f.2 :: s) = (some (f.1, charVal f.2, f.2 :: s), false) := by
  obtain ⟨c, u, hcu⟩ : ∃ c u, f.1 ++ [f.2] = c :: u :=
    List.exists_cons_of_ne_nil (List.append_ne_nil_of_right_ne_nil _ (List.cons_ne_nil _ _))
  have hfront := hf.front
  have hplain := plainToken_field [] (s := s) hf.inside hf.last
  have hfile : f.1 ++ f.2 :: s = c :: (u ++ s) := by
    rw [← List.cons_append, ← hcu, List.append_assoc]
    rfl
  rw [hcu] at hfront
  have hquote : c ≠ quote := fun heq => hfront (by rw [heq]; rfl)
  rw [hfile] at hplain ⊢
  rw [nextToken, if_neg hquote, hplain, List.nil_append]

variable {all : List (List UInt8)} {r : Reader}

open Reader

/-- The reader is in front of `rest`. -/
structure InFrontOf (sep : UInt8) (all : List (List UInt8)) (r : Reader) (rest : List UInt8) :
    Prop where
  skipped : Skipped sep all r rest r.skip
  clean : Clean sep r.buf.length all

/-- The reader behind a field, before `rest`. -/
structure Got (sep : UInt8) (all : List (List UInt8)) (f : Field) (rest : List UInt8)
    (r : Reader) : Prop where
  token_eq : r.token = f.1
  size_eq : r.te - r.tb = f.1.length
  behind : ∃ more, r.buf.drop r.tb = f.1 ++ f.2 :: more
  next : InFrontOf sep all r rest

/-- Behind a token without quotes its bytes are in the buffer, with those that come next. -/
theorem drop_token {s : List UInt8} {c : UInt8} (h : After sep all r (c :: s))
    (hq : r.quoted = false) :
    r.te - r.tb = r.token.length ∧ ∃ more, r.buf.drop r.tb = r.token ++ c :: more := by
  cases h with
  | quoted hq' => rw [hq] at hq'; cases hq'
  | @plain pre w _ d _ htr hw hs _ =>
      have hb := htr.begin_le
      have hlt := htr.lt_len
      have hle := htr.len_le
      have hlen := length_token hb (by omega)
      have hrest := htr.rest_eq hs
      rw [hw, List.cons_append] at hrest
      obtain ⟨rfl, -⟩ := List.cons.inj hrest
      refine ⟨hlen.symm, (r.buf.drop r.te).tail, ?_⟩
      have hhead : r.buf.drop r.te = c :: (r.buf.drop r.te).tail := by
        rw [window] at hw
        cases hdrop : r.buf.drop r.te with
        | nil => rw [hdrop, List.take_nil] at hw; cases hw
        | cons d tl =>
            obtain ⟨n, hn⟩ : ∃ n, r.len.toNat - r.te = n + 1 := ⟨r.len.toNat - r.te - 1, by omega⟩
            rw [hdrop, hn, List.take_succ_cons] at hw
            rw [(List.cons.inj hw).1, List.tail_cons]
      have hsplit := (List.take_append_drop (r.te - r.tb) (r.buf.drop r.tb)).symm
      rw [List.drop_drop, Nat.add_sub_cancel' hb, hhead] at hsplit
      exact hsplit

theorem readToken_field {f : Field} {rest : List UInt8} (hf : Plain sep f)
    (h : InFrontOf sep all r (f.1 ++ f.2 :: rest)) :
    ∃ r', r.readToken sep = .ok (charVal f.2) r' ∧ Got sep all f rest r' := by
  have hread := readToken_read h.skipped h.clean
  rw [nextToken_field hf] at hread
  obtain ⟨r', hok, hafter⟩ := hread
  obtain ⟨htok, hq, hbuf, hafter⟩ := hafter hf.ascii
  have hclean : Clean sep r'.buf.length all := by
    rw [hbuf]
    exact h.clean
  have hskip := skip_after hafter hclean
  rw [hq] at hskip
  obtain ⟨hsize, hbehind⟩ := drop_token hafter hq
  rw [htok] at hsize hbehind
  exact ⟨r', hok, htok, hsize, hbehind, hskip, hclean⟩

/-- Behind the last field. -/
theorem readToken_end (h : InFrontOf sep all r []) : ∃ r', r.readToken sep = .ok (-1) r' := by
  obtain ⟨r', hok, -⟩ := readToken_read h.skipped h.clean
  exact ⟨r', hok⟩

theorem withToken_field {f : Field} {rest : List UInt8} (hf : Plain sep f)
    (h : InFrontOf sep all r (f.1 ++ f.2 :: rest)) : ∃ r', Got sep all f rest r' ∧
      ∀ {α : Type} (stop : Int → Reader → α) (token : Int → Reader → Outcome Exn Unit α),
        withToken sep r stop token = token (charVal f.2) r' := by
  obtain ⟨r', hok, hgot⟩ := readToken_field hf h
  refine ⟨r', hgot, fun stop token => ?_⟩
  simp only [withToken, hok]
  rw [if_neg (Int.not_lt.mpr hf.ascii)]

/-! ## Rows -/

/-- A row of texts that is read as it stands. -/
structure Line (sep : UInt8) (ts : List (List UInt8)) : Prop where
  plain : ∀ f ∈ rowFields sep ts, Plain sep f
  sep_ne : ts.length ≤ 1 ∨ sep ≠ newline

theorem Line.tail {t : List UInt8} {ts : List (List UInt8)} (h : Line sep (t :: ts)) :
    Line sep ts where
  plain f hf := h.plain f (.tail _ hf)
  sep_ne := h.sep_ne.imp_left fun hle => by
    rw [List.length_cons] at hle
    omega

theorem Line.ender_eq {t : List UInt8} {ts : List (List UInt8)} (h : Line sep (t :: ts)) :
    charVal (Writer.ender sep ts) = charVal newline ↔ ts = [] := by
  cases ts with
  | nil => exact iff_of_true rfl rfl
  | cons u ts =>
      refine iff_of_false (fun heq => ?_) (List.cons_ne_nil _ _)
      rcases h.sep_ne with hle | hne
      · simp at hle
      · exact hne (charVal_eq_newline heq)

theorem readNames_line {ts : List (List UInt8)} {rest : List UInt8} {fuel : Nat}
    {names : List ZString} (hline : Line sep ts) (hne : ts ≠ []) (hfuel : ts.length ≤ fuel)
    (h : InFrontOf sep all r (fileOf (rowFields sep ts) ++ rest)) :
    ∃ r', readNames sep fuel names r = .ok (names ++ ts.map ZString.ofString, r') () ∧
      InFrontOf sep all r' rest := by
  induction ts generalizing fuel names r with
  | nil => cases hne rfl
  | cons t ts ih =>
      obtain ⟨fuel, rfl⟩ : ∃ n, fuel = n + 1 := ⟨fuel - 1, by rw [List.length_cons] at hfuel; omega⟩
      rw [rowFields, fileOf_cons, List.append_assoc, List.cons_append] at h
      obtain ⟨r', hgot, htoken⟩ := withToken_field (hline.plain _ (.head _)) h
      rw [readNames, htoken]
      simp only [hgot.token_eq]
      by_cases hts : ts = []
      · rw [if_pos (hline.ender_eq.mpr hts), hts]
        refine ⟨r', rfl, ?_⟩
        have hnext := hgot.next
        rwa [hts] at hnext
      · rw [if_neg (mt hline.ender_eq.mp hts)]
        obtain ⟨r'', hok, hnext⟩ := ih hline.tail hts (Nat.le_of_succ_le_succ hfuel) hgot.next
        refine ⟨r'', ?_, hnext⟩
        rw [hok, List.append_assoc]
        rfl

section Elements

variable {T : Type} {codec : Codec T} {k : Nat}

/-- An element of a row of `k` is written as a text and read from it, whatever ends the text and
whatever comes behind. -/
structure Stored (codec : Codec T) (sep : UInt8) (k : Nat) (x : T) (text : List UInt8) : Prop where
  toChar_eq : codec.toChar x = .ok text ()
  lt_max : text.length < codec.CMAX
  fromChar_eq : ∀ e more, (e = newline ∨ 1 < k ∧ e = sep) →
    codec.fromChar (text ++ e :: more) text.length = .ok (x, text.length) ()

/-- Every element of a row. -/
abbrev StoredRow (codec : Codec T) (sep : UInt8) (k : Nat) : List T → List (List UInt8) → Prop :=
  List.Forall₂ (Stored codec sep k)

theorem ender_eq_or (ts : List (List UInt8)) (hk : ts.length < k) :
    Writer.ender sep ts = newline ∨ 1 < k ∧ Writer.ender sep ts = sep := by
  cases ts with
  | nil => exact .inl rfl
  | cons t ts =>
      rw [List.length_cons] at hk
      exact .inr ⟨by omega, rfl⟩

theorem parse_got {x : T} {f : Field} {rest : List UInt8} (suffix : String)
    (hx : Stored codec sep k x f.1) (hf : f.2 = newline ∨ 1 < k ∧ f.2 = sep)
    (h : Got sep all f rest r) : parse codec suffix r = .ok x () := by
  obtain ⟨more, hmore⟩ := h.behind
  rw [parse, hmore, h.size_eq, hx.fromChar_eq _ _ hf]
  simp only [Outcome.bind_ok, ne_eq, not_true_eq_false, if_false]

theorem readFirst_line {xs : List T} {ts : List (List UInt8)} {rest : List UInt8} {fuel : Nat}
    {row : List T} (hrow : StoredRow codec sep k xs ts) (hk : ts.length ≤ k)
    (hline : Line sep ts) (hne : ts ≠ []) (hfuel : ts.length ≤ fuel)
    (h : InFrontOf sep all r (fileOf (rowFields sep ts) ++ rest)) :
    ∃ r', readFirst codec sep fuel row r = .ok (row ++ xs, r') () ∧ InFrontOf sep all r' rest := by
  induction hrow generalizing fuel row r with
  | nil => cases hne rfl
  | @cons x t xs ts hx hrow ih =>
      rw [List.length_cons] at hk hfuel
      obtain ⟨fuel, rfl⟩ : ∃ n, fuel = n + 1 := ⟨fuel - 1, by omega⟩
      rw [rowFields, fileOf_cons, List.append_assoc, List.cons_append] at h
      obtain ⟨r', hgot, htoken⟩ := withToken_field (hline.plain _ (.head _)) h
      rw [readFirst, htoken, parse_got "" hx (ender_eq_or ts hk) hgot]
      simp only [Outcome.bind_ok]
      by_cases hts : ts = []
      · have hxs : xs = [] := List.length_eq_zero_iff.mp (by rw [hrow.length_eq, hts]; rfl)
        rw [if_pos (hline.ender_eq.mpr hts), hxs]
        refine ⟨r', rfl, ?_⟩
        have hnext := hgot.next
        rwa [hts] at hnext
      · rw [if_neg (mt hline.ender_eq.mp hts)]
        obtain ⟨r'', hok, hnext⟩ := ih (Nat.le_of_succ_le hk) hline.tail hts
          (Nat.le_of_succ_le_succ hfuel) hgot.next
        refine ⟨r'', ?_, hnext⟩
        rw [hok, List.append_assoc]
        rfl

theorem readRow_line {xs : List T} {ts : List (List UInt8)} {rest : List UInt8} (j : Nat)
    (last : Int) (hrow : StoredRow codec sep k xs ts) (hk : ts.length ≤ k) (hline : Line sep ts)
    (h : InFrontOf sep all r (fileOf (rowFields sep ts) ++ rest)) :
    ∃ r', readRow codec sep xs.length j last r =
        .ok (xs, if ts = [] then last else charVal newline, r') () ∧ InFrontOf sep all r' rest := by
  induction hrow generalizing j last r with
  | nil => exact ⟨r, rfl, h⟩
  | @cons x t xs ts hx hrow ih =>
      rw [List.length_cons] at hk
      rw [rowFields, fileOf_cons, List.append_assoc, List.cons_append] at h
      obtain ⟨r', hgot, htoken⟩ := withToken_field (hline.plain _ (.head _)) h
      obtain ⟨r'', hok, hnext⟩ := ih (j + 1) (charVal (Writer.ender sep ts)) (by omega) hline.tail
        hgot.next
      refine ⟨r'', ?_, hnext⟩
      rw [List.length_cons, readRow, htoken, parse_got _ hx (ender_eq_or ts hk) hgot]
      simp only [Outcome.bind_ok, hok, if_neg (List.cons_ne_nil t ts)]
      by_cases hts : ts = []
      · rw [if_pos hts, hline.ender_eq.mpr hts]
      · rw [if_neg hts]

theorem pushRow_nil (cols : List (List T)) : pushRow cols [] = cols := by
  cases cols with
  | nil => rfl
  | cons c cols => rfl

theorem length_pushRow (cols : List (List T)) (row : List T) :
    (pushRow cols row).length = cols.length := by
  induction cols generalizing row with
  | nil => rfl
  | cons c cols ih =>
      cases row with
      | nil => rfl
      | cons d row => rw [pushRow, List.length_cons, ih, List.length_cons]

/-- All rows up to the end of the file. -/
theorem readRows_lines {rows : List (List T)} {lines : List (List (List UInt8))} {fuel row : Nat}
    {cols : List (List T)} (hrows : List.Forall₂ (StoredRow codec sep k) rows lines)
    (hlen : ∀ xs ∈ rows, xs.length = k) (hcols : cols.length = k) (hk : 0 < k)
    (hlines : ∀ ts ∈ lines, Line sep ts) (hfuel : rows.length < fuel)
    (h : InFrontOf sep all r (fileOf (lines.flatMap (rowFields sep)))) :
    readRows codec sep fuel row cols r = .ok (rows.foldl pushRow cols, row + rows.length) () := by
  induction hrows generalizing fuel row cols r with
  | nil =>
      obtain ⟨fuel, rfl⟩ : ∃ n, fuel = n + 1 := ⟨fuel - 1, by rw [List.length_nil] at hfuel; omega⟩
      obtain ⟨k, rfl⟩ : ∃ n, k = n + 1 := ⟨k - 1, by omega⟩
      obtain ⟨r', hend⟩ := readToken_end h
      simp only [readRows, hcols, readRow, withToken, hend, onRow]
      rw [if_pos (by decide)]
      simp only [Outcome.tryCatch_ok, Outcome.bind_ok, pushRow_nil]
      rw [if_pos (by decide)]
      rfl
  | @cons xs ts rows lines hrow hrows ih =>
      rw [List.length_cons] at hfuel
      obtain ⟨fuel, rfl⟩ : ∃ n, fuel = n + 1 := ⟨fuel - 1, by omega⟩
      rw [List.flatMap_cons, fileOf_append] at h
      have hxs := hlen xs (.head _)
      have hts : ts ≠ [] := by
        intro heq
        have := hrow.length_eq
        rw [heq, List.length_nil] at this
        omega
      obtain ⟨r', hok, hnext⟩ := readRow_line 0 (-1) hrow (by rw [← hrow.length_eq]; omega)
        (hlines ts (.head _)) h
      rw [readRows, hcols, ← hxs, hok, if_neg hts]
      simp only [onRow, Outcome.tryCatch_ok, Outcome.bind_ok]
      rw [if_neg (by decide), if_neg (fun hbad => hbad.2 rfl),
        ih (fun ys hys => hlen ys (.tail _ hys)) ((length_pushRow cols xs).trans hcols)
          (fun us hus => hlines us (.tail _ hus)) (by omega) hnext,
        List.foldl_cons, List.length_cons, Nat.add_right_comm, Nat.add_assoc]

end Elements

end Ztsdb.Csv
