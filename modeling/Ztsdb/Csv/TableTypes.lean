import Mathlib
import Ztsdb.Csv.TableRoundTrip

/-!
# Strings, booleans and times in tables

The elements of each type are read from the texts they are written as, and a table of them
comes back from its file. No text is quoted by the writer, so this is about tables whose texts
can be told apart without quotes.
-/

namespace Ztsdb.Csv

open Ztsdb.Lib Ztsdb.Lib.Decimal Ztsdb.Arr Ztsdb.Tz

/-! ## Texts -/

/-- Texts of a row that can be told apart: none has the separator or a newline in it or begins
with a quote. Several need a separator that is an ASCII character and not the newline, and where
it is a quote they cannot be empty in front of it. -/
def Legible (sep : UInt8) (ts : List (List UInt8)) : Prop :=
  (∀ t ∈ ts, sep ∉ t ∧ newline ∉ t ∧ t.head? ≠ some quote) ∧
    (1 < ts.length →
      sep ≠ newline ∧ sep.toNat < 128 ∧ (sep = quote → ∀ t ∈ ts.dropLast, t ≠ []))

instance (sep : UInt8) (ts : List (List UInt8)) : Decidable (Legible sep ts) :=
  inferInstanceAs (Decidable (_ ∧ _))

variable {sep : UInt8}

theorem Legible.tail {t : List UInt8} {ts : List (List UInt8)} (h : Legible sep (t :: ts)) :
    Legible sep ts := by
  refine ⟨fun u hu => h.1 u (.tail _ hu), fun hlen => ?_⟩
  obtain ⟨hne, hascii, hquote⟩ := h.2 (hlen.trans (Nat.lt_succ_self _))
  refine ⟨hne, hascii, fun heq u hu => hquote heq u ?_⟩
  rw [List.dropLast_cons_of_ne_nil (List.ne_nil_of_length_pos (by omega))]
  exact .tail _ hu

theorem Legible.plain {ts : List (List UInt8)} (h : Legible sep ts) :
    ∀ f ∈ rowFields sep ts, Plain sep f := by
  induction ts with
  | nil => exact fun f hf => nomatch hf
  | cons t ts ih =>
      intro f hf
      cases hf with
      | tail _ hf => exact ih h.tail f hf
      | head =>
          obtain ⟨hsep, hnewline, hfirst⟩ := h.1 t (.head _)
          have hinside : ∀ c ∈ t, ¬(c = sep ∨ c = newline) := by
            rintro c hc (rfl | rfl)
            · exact hsep hc
            · exact hnewline hc
          cases ts with
          | nil =>
              refine ⟨hinside, ?_, .inr rfl, show 0 ≤ charVal newline by decide⟩
              cases t with
              | nil => exact show [newline].head? ≠ some quote by decide
              | cons c t => exact hfirst
          | cons u ts =>
              obtain ⟨-, hascii, hquote⟩ := h.2 (by simp)
              refine ⟨hinside, ?_, .inl rfl, ?_⟩
              · cases t with
                | nil => exact fun heq => hquote (Option.some.inj heq) [] (.head _) rfl
                | cons c t => exact hfirst
              · show 0 ≤ charVal sep
                rw [charVal, if_pos hascii]
                exact Int.natCast_nonneg _

theorem Legible.line {ts : List (List UInt8)} (h : Legible sep ts) : Line sep ts where
  plain := h.plain
  sep_ne := by
    rcases Nat.lt_or_ge 1 ts.length with hlt | hle
    · exact .inr (h.2 hlt).1
    · exact .inl hle

variable {T : Type} {codec : Codec T} {k : Nat}

/-- The text of an element. -/
def Codec.text (codec : Codec T) (x : T) : List UInt8 :=
  match codec.toChar x with
  | .ok text _ => text
  | _ => []

/-- A table that is not empty and has legible texts in its rows. -/
structure Storable (codec : Codec T) (sep : UInt8) (a : Matrix T) : Prop where
  cols_ne : a.cols ≠ []
  rows_pos : 0 < a.nrows
  rows : ∀ row ∈ a.rows, Legible sep (row.map codec.text)
  names : Legible sep a.header
  short : ∀ s ∈ a.names, s.chars.length < STRING_SIZE

/-- The file that is written is read as the table again, in whatever pieces, with a header when
there are names. -/
def RoundTrips (codec : Codec T) (init : T) (sep : UInt8) (a : Matrix T) : Prop :=
  ∃ file, writecsv_array codec a a.hasNames sep = .ok file () ∧
    ∀ buf pieces, buf.length = BUFSZ → Reads sep BUFSZ file pieces →
      readcsv_array codec init a.hasNames sep (start buf pieces) =
        .ok ⟨a.nrows, a.cols, a.names⟩ ()

theorem mem_cols_of_mem_rows {a : Matrix T} {row : List T} (hrow : row ∈ a.rows) {x : T}
    (hx : x ∈ row) : ∃ c ∈ a.cols, x ∈ c := by
  obtain ⟨i, -, rfl⟩ := List.mem_map.mp hrow
  obtain ⟨c, hc, hget⟩ := List.mem_filterMap.mp hx
  exact ⟨c, hc, List.mem_of_getElem? hget⟩

theorem Storable.roundTrips {a : Matrix T} (h : Storable codec sep a)
    (hmax : codec.CMAX ≤ STRING_SIZE)
    (hstored : ∀ c ∈ a.cols, ∀ x ∈ c, Stored codec sep a.cols.length x (codec.text x)) (init : T) :
    RoundTrips codec init sep a := by
  have hread : Readable codec sep a (a.rows.map (·.map codec.text)) := by
    refine ⟨h.cols_ne, h.rows_pos, hmax, ?_, ?_, h.names.line, h.short⟩
    · refine List.forall₂_map_right_iff.mpr (List.forall₂_same.mpr fun row hrow => ?_)
      refine List.forall₂_map_right_iff.mpr (List.forall₂_same.mpr fun x hx => ?_)
      obtain ⟨c, hc, hxc⟩ := mem_cols_of_mem_rows hrow hx
      exact hstored c hc x hxc
    · intro ts hts
      obtain ⟨row, hrow, rfl⟩ := List.mem_map.mp hts
      exact (h.rows row hrow).line
  exact ⟨_, writecsv_array_fields (hmax.trans (by decide)) hread.stored h.short,
    fun buf pieces hbuf hpieces => hread.read_table init hbuf hpieces⟩

/-! ## The types -/

theorem stored_zstring {s : ZString} (h : s.chars.length < STRING_SIZE) :
    Stored zstringCodec sep k s (zstringCodec.text s) := by
  have htext : zstringCodec.text s = s.chars := List.take_of_length_le (Nat.le_sub_one_of_lt h)
  refine ⟨rfl, htext ▸ h, fun e more _ => ?_⟩
  show Outcome.ok (ZString.ofString ((_ ++ e :: more).take _), _) () = _
  rw [List.take_left, htext, ZString.ofString_chars h]

theorem strtol_bool {e : UInt8} (b : Bool) (more : List UInt8) (he : isDigit e = false) :
    strtol (boolCodec.text b ++ e :: more) = some (b, 1) := by
  have htake : (e :: more).takeWhile isDigit = [] := by
    rw [List.takeWhile_cons, he]
    rfl
  cases b with
  | false =>
      show strtol (48 :: e :: more) = _
      have hdigits : (48 :: e :: more).takeWhile isDigit = [48] := by
        rw [List.takeWhile_cons, htake]
        rfl
      simp [strtol, isSpace, hdigits]
  | true =>
      show strtol (49 :: e :: more) = _
      have hdigits : (49 :: e :: more).takeWhile isDigit = [49] := by
        rw [List.takeWhile_cons, htake]
        rfl
      simp [strtol, isSpace, hdigits]

theorem fromChar_bool {buf : List UInt8} {r : Bool × Nat} (n : Nat) (h : strtol buf = some r) :
    boolCodec.fromChar buf n = .ok r () := by
  simp only [boolCodec, h]

theorem stored_bool (h : 1 < k → isDigit sep = false) (b : Bool) :
    Stored boolCodec sep k b (boolCodec.text b) := by
  have hlen : (boolCodec.text b).length = 1 := by
    cases b with
    | false => rfl
    | true => rfl
  refine ⟨rfl, ?_, fun e more he => ?_⟩
  · rw [hlen]
    decide
  · have hdigit : isDigit e = false := by
      rcases he with rfl | ⟨hk, rfl⟩
      · rfl
      · exact h hk
    rw [hlen]
    exact fromChar_bool _ (strtol_bool b more hdigit)

theorem length_textOf (y m d h mn sec nsec : Nat) (zone : List UInt8) :
    (textOf y m d h mn sec nsec zone).length ≤ 30 + zone.length := by
  rw [textOf]
  split
  · simp only [List.length_append, length_fixed, List.length_cons]
    omega
  · simp only [List.length_append, length_fixed, List.length_cons, List.length_nil]
    omega

theorem stored_dtime {tzones : List UInt8 → Except Exn Zone} {z : Zone}
    (hfind : tzones utcName = .ok z) (hlevel : Level z) (dt : dtime) :
    Stored (dtimeCodec tzones) sep k dt ((dtimeCodec tzones).text dt) := by
  have hchars : ∀ c ∈ utcName, isZoneChar c = true := by decide +kernel
  have hname : utcName ≠ [] := List.cons_ne_nil _ _
  obtain ⟨text, htext, hread⟩ := dtime_from_string_to_string hlevel dt hname hchars hfind
  obtain ⟨y, m, d, hr, mn, sec, nsec, htextOf, -⟩ := to_string_level hlevel dt utcName
  have hlen : text.length ≤ 33 := by
    rw [htext] at htextOf
    rw [Option.some.inj htextOf]
    exact length_textOf y m d hr mn sec nsec utcName
  have htoChar : (dtimeCodec tzones).toChar dt = .ok text () := by
    simp only [dtimeCodec, hfind, htext]
    rw [if_neg (by omega)]
  have heq : (dtimeCodec tzones).text dt = text := by
    rw [Codec.text, htoChar]
  rw [heq]
  refine ⟨htoChar, hlen.trans_lt (show 33 < 128 by decide), fun e more _ => ?_⟩
  simp only [dtimeCodec, List.take_left, hread, Outcome.bind_ok]

/-- Every time is read as it was written for `UTC`, with a fraction or without, and so is every
cell of a column of times. -/
theorem dtime_round_trip {tzones : List UInt8 → Except Exn Zone} {z : Zone}
    (hfind : tzones utcName = .ok z) (hlevel : Level z) (dt : dtime) :
    (∀ fractional, ∃ text, to_stringFractional dt z utcName fractional = some text ∧
      dtime_from_string tzones text defaultFormat [] = .ok dt ()) ∧
    ∃ text, (dtimeCodec tzones).toChar dt = .ok text () ∧
      (dtimeCodec tzones).fromChar text text.length = .ok (dt, text.length) () := by
  have hchars : ∀ c ∈ utcName, isZoneChar c = true := by decide +kernel
  have hname : utcName ≠ [] := List.cons_ne_nil _ _
  have hcell : Stored (dtimeCodec tzones) newline 1 dt ((dtimeCodec tzones).text dt) :=
    stored_dtime hfind hlevel dt
  refine ⟨fun fractional => ?_, _, hcell.toChar_eq, ?_⟩
  · exact dtime_from_string_to_stringFractional hlevel dt fractional hname hchars hfind
  · have hread := hcell.fromChar_eq newline [] (Or.inl rfl)
    simp only [dtimeCodec, List.take_left, List.take_length] at hread ⊢
    exact hread

/-- The last nanosecond before 1970. -/
theorem dtime_round_trip_before :
    let tzones name : Except Exn Zone := if name = utcName then .ok ⟨[], [⟨0, 0⟩], 0⟩
      else .error (.rangeError "can't find timezone")
    (∀ fractional, ∃ text, to_stringFractional ⟨-1⟩ ⟨[], [⟨0, 0⟩], 0⟩ utcName fractional =
        some text ∧ dtime_from_string tzones text defaultFormat [] = .ok ⟨-1⟩ ()) ∧
      ∃ text, (dtimeCodec tzones).toChar ⟨-1⟩ = .ok text () ∧
        (dtimeCodec tzones).fromChar text text.length = .ok (⟨-1⟩, text.length) () :=
  dtime_round_trip rfl ⟨rfl, rfl⟩ ⟨-1⟩

/-! ## Round trips -/

end Ztsdb.Csv
