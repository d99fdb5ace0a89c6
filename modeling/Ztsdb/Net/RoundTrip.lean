import Mathlib
import Ztsdb.Net.ReadTerminates

/-!
# Values that are sent and read

`operator<<` of a value writes items, and `readValue` has the value back from their chunks,
wherever these are broken between two items. A `zts` is the exception to the rule that a
value begins with a look at the chunk: its two arrays have only their types before them.
-/

namespace Ztsdb.Net

open Ztsdb.Lib Ztsdb.Arr
open AppendMessage (getAlignedLength getAlignedLength_of_le le_aligned)

/-! ## What is written -/

/-- An array behind a type that is written as it is. -/
def VArray.nestedItems (vt : ValType) (a : VArray) : List (List Token) :=
  [.word 8 vt.number, .word 8 a.size] :: a.metaItems ++ a.eltItems

mutual

/-- `operator<<` of a value. -/
def Val.items : Val → List (List Token)
  | .std_string s => [value .std_string (stringTokens s)]
  | .std_int v => [value .std_int (intsTokens v)]
  | .array a => a.headItems ++ a.eltItems
  | .zts idx a => value .zts [.word 8 2] :: (a.nestedItems .double ++ idx.nestedItems .time)
  | .list l => value .list [.word 8 l.length] :: Val.eltsItems l
  | .null => [value .null [.word 8 0]]
  | .named name v => value .named [.word 8 2] :: (name.items ++ v.items)
  | .error what => [value .error (stringTokens what.chars)]

/-- Each of a list as a named value. -/
def Val.eltsItems : List (List UInt8 × Val) → List (List Token)
  | [] => []
  | x :: l => Val.eltItems x ++ Val.eltsItems l

def Val.eltItems : List UInt8 × Val → List (List Token)
  | (name, v) => namedItems name v.items

end

/-- What a stream can carry: arrays that are `Sound`, texts of errors that end within their
buffers, names that are strings of less than a chunk, and lengths that are in memory. -/
inductive Val.Sound : Val → Prop
  | std_string {s : List UInt8} (hs : s.length < CHUNKSZ) : Sound (.std_string s)
  | std_int {v : List UInt64} (hv : v.length < 2 ^ 64) : Sound (.std_int v)
  | array {a : VArray} (ha : a.Sound) : Sound (.array a)
  | zts {idx a : VArray} (hidx : idx.Sound) (ha : a.Sound) (hi : idx.type = .time)
    (hd : a.type = .double) : Sound (.zts idx a)
  | list {l : List (List UInt8 × Val)} (hl : l.length < 2 ^ 64)
    (hn : ∀ x ∈ l, x.1.length < CHUNKSZ) (hv : ∀ x ∈ l, Sound x.2) : Sound (.list l)
  | null : Sound .null
  | named {name v : Val} (hn : Sound name) (hv : Sound v) : Sound (.named name v)
  | error {what : ZString} (hw : what.chars.length < Arr.STRING_SIZE) : Sound (.error what)

/-- A value that is read, as it is on the stack. -/
def Val.state : Val → ValState
  | .std_string s => ⟨.std_string s, s.length, getAlignedLength s.length, 1⟩
  | .std_int v => ⟨.std_int v, v.length, v.length, 0⟩
  | .array a => ⟨.array a, a.size, a.size, 1⟩
  | .zts idx a => ⟨.zts idx a, 2, 2, 1⟩
  | .list l => ⟨.list l, l.length, l.length, 0⟩
  | .null => ⟨.null, 0, 0, 0⟩
  | .named name v => ⟨.named name v, 2, 2, 0⟩
  | .error what => ⟨.error what, what.chars.length, getAlignedLength what.chars.length, 1⟩

@[simp] theorem Val.state_val (v : Val) : v.state.val = v := by
  cases v <;> rfl

theorem Val.items_list (l : List (List UInt8 × Val)) :
    (Val.list l).items = listItems (l.map fun x => (x.1, x.2.items)) := by
  rw [Val.items, listItems, List.length_map]
  congr 1
  induction l with
  | nil => rfl
  | cons x l ih => rw [Val.eltsItems, ih, List.map_cons, List.flatMap_cons, Val.eltItems]

/-! ## What is read -/

variable {below : List ValState}

/-- The array of a `zts` is there. -/
theorem switch_zts_array {c : List UInt8} {off : Nat} {idx a d : VArray} {g : ValState}
    (hg : g.val = .array d) (hd : d.type = .double) :
    Reader.switch c ⟨.zts idx a, 2, 0, 0⟩
        ⟨off, below ++ [⟨.zts idx a, 2, 0, 0⟩, g], below.length + 1⟩ =
      .again ⟨off, below ++ [⟨.zts (.empty .time [(d.dim[0]?).getD 0]) d, 2, 1, 1⟩],
        below.length + 1⟩ := by
  rw [Reader.switch]
  simp only [Reader.readZts, getElem?_child, hg, hd, if_true, put_above, pop_above]

/-- The index is there too. -/
theorem switch_zts_index {c : List UInt8} {off : Nat} {idx a i : VArray} {g : ValState}
    (hg : g.val = .array i) (hi : i.type = .time) :
    Reader.switch c ⟨.zts idx a, 2, 1, 1⟩
        ⟨off, below ++ [⟨.zts idx a, 2, 1, 1⟩, g], below.length + 1⟩ =
      .again ⟨off, below ++ [⟨.zts i a, 2, 2, 1⟩], below.length⟩ := by
  rw [Reader.switch]
  simp only [Reader.readZts, getElem?_child, hg, hi, if_true, put_above, pop_above, complete_above]

theorem reads_zts {idx a : VArray} (hidx : idx.Sound) (ha : a.Sound) (hi : idx.type = .time)
    (hd : a.type = .double) : Reads (Val.zts idx a).items (Val.zts idx a).state := by
  intro R _ below buf ts more h
  rw [Val.items] at h ⊢
  obtain ⟨hw, h⟩ := eachWhole_cons.mp h
  obtain ⟨hwa, hwi⟩ := eachWhole_append.mp h
  have hra : Reads (a.nestedItems .double) ⟨.array a, a.size, a.size, 1⟩ :=
    ha.reads (by rw [hd]; rfl)
  have hri : Reads (idx.nestedItems .time) ⟨.array idx, idx.size, idx.size, 1⟩ :=
    hidx.reads (by rw [hi]; rfl)
  rw [List.flatten_cons, List.append_assoc, rcv_item hw (length_value_pos _ _ _)
    fun c off hat => turn_container hat (by norm_num) rfl (.inl rfl)]
  rw [List.flatten_append, List.append_assoc, hra.child hwa,
    rcv_above fun c off => switch_zts_array rfl hd, hri.child hwi,
    rcv_above fun c off => switch_zts_index rfl hi, fill, fill_append]
  rfl

theorem reads_null : Reads Val.null.items Val.null.state := by
  refine reads_single (length_value_pos _ _ _) fun below c off hat => ?_
  rw [tokenImage_value, tokenImage_nil, List.append_nil] at hat ⊢
  rw [turn_head hat (Nat.two_pow_pos 64) rfl, List.length_append, length_leBytes, length_leBytes]
  show Reader.body c ⟨off + 16, below ++ [⟨.null, 0, 0, 0⟩], below.length + 1⟩ = _
  rw [body_top (.inr rfl)]
  rfl

theorem reads_error {what : ZString} (hw : what.chars.length < Arr.STRING_SIZE) :
    Reads (Val.error what).items (Val.error what).state := by
  have hs : what.chars.length < CHUNKSZ := by
    simp only [Arr.STRING_SIZE] at hw
    simp only [CHUNKSZ]
    omega
  have h := @reads_chars .error _ (fun t => Val.error (ZString.ofString t)) what.chars rfl rfl rfl
    (fun _ _ => rfl) hs
  rwa [ZString.ofString_chars hw] at h

/-- The items of a value leave it on the stack. -/
theorem Val.Sound.reads {v : Val} (h : v.Sound) : Reads v.items v.state := by
  induction h with
  | std_string hs => exact reads_std_string _ hs
  | std_int hv => exact reads_std_int _ hv
  | array ha => exact ha.reads rfl
  | zts hidx ha hi hd => exact reads_zts hidx ha hi hd
  | @list l hl hn hv ih =>
      have h := @reads_list (l.map fun x => (x.1, x.2.items, x.2.state))
        (by rw [List.length_map]; exact hl) fun x hx => by
          obtain ⟨y, hy, rfl⟩ := List.mem_map.mp hx
          exact ⟨hn y hy, ih y hy⟩
      have hval : ((l.map fun x => (x.1, x.2.items, x.2.state)).map fun x => (x.1, x.2.2.val)) = l := by
        conv_rhs => rw [← List.map_id l]
        rw [List.map_map]
        exact List.map_congr_left fun x _ => congrArg (x.1, ·) x.2.state_val
      rw [hval, List.length_map, List.map_map] at h
      rw [Val.items_list]
      exact h
  | null => exact reads_null
  | named hn hv ihn ihv =>
      have h := reads_pair ihn ihv
      rwa [Val.state_val, Val.state_val] at h
  | error hw => exact reads_error hw

/-! ## The chunks of a value -/

/-- Items that leave something in their chunk. -/
def Filled (us : List (List Token)) : Prop := ∀ u ∈ us, 0 < (tokenImage u).length

theorem Filled.append {us vs : List (List Token)} (hu : Filled us) (hv : Filled vs) :
    Filled (us ++ vs) := List.forall_mem_append.mpr ⟨hu, hv⟩

theorem Filled.value {us : List (List Token)} (vt : ValType) (n : Nat) (rest : List Token)
    (h : Filled us) : Filled (value vt (.word 8 n :: rest) :: us) :=
  List.forall_mem_cons.mpr ⟨length_value_pos vt n rest, h⟩

theorem filled_nil : Filled [] := fun _ hu => absurd hu List.not_mem_nil

theorem filled_list {l : List (List UInt8 × List (List Token))} (h : ∀ x ∈ l, Filled x.2) :
    Filled (listItems l) := by
  refine Filled.value _ _ _ fun u hu => ?_
  obtain ⟨x, hx, hu⟩ := List.mem_flatMap.mp hu
  exact (Filled.value .named 2 [] (Filled.value .std_string _ _ (h x hx))) u hu

theorem VArray.filled_meta (a : VArray) : Filled (a.metaItems ++ a.eltItems) := by
  have hone (vt : ValType) (n : Nat) (rest : List Token) : Filled [Net.value vt (.word 8 n :: rest)] :=
    filled_nil.value vt n rest
  refine Filled.append (filled_list fun x hx => ?_) fun u hu => ?_
  · simp only [List.mem_cons, List.not_mem_nil, or_false] at hx
    rcases hx with rfl | rfl | rfl
    · exact hone _ _ _
    · refine filled_list fun y hy => ?_
      obtain ⟨nm, -, rfl⟩ := List.mem_map.mp hy
      refine filled_list fun z hz => ?_
      obtain ⟨s, -, rfl⟩ := List.mem_map.mp hz
      exact hone _ _ _
    · exact hone _ _ _
  · rw [VArray.eltItems_eq] at hu
    obtain ⟨x, -, rfl⟩ := List.mem_map.mp hu
    exact x.length_pos

theorem VArray.filled_nested (vt : ValType) (a : VArray) : Filled (a.nestedItems vt) := by
  have hhead : 0 < (tokenImage [.word 8 vt.number, .word 8 a.size]).length := by
    rw [tokenImage_cons, List.length_append, Token.image, length_leBytes]
    omega
  exact List.forall_mem_cons.mpr ⟨hhead, a.filled_meta⟩

theorem Val.Sound.filled {v : Val} (h : v.Sound) : Filled v.items := by
  induction h with
  | std_string hs => exact filled_nil.value _ _ _
  | std_int hv => exact filled_nil.value _ _ _
  | array ha => exact (VArray.filled_meta _).value _ _ _
  | zts hidx ha hi hd =>
      exact Filled.value _ _ _ ((VArray.filled_nested _ _).append (VArray.filled_nested _ _))
  | @list l hl hn hv ih =>
      rw [Val.items_list]
      refine filled_list fun x hx => ?_
      obtain ⟨y, hy, rfl⟩ := List.mem_map.mp hx
      exact ih y hy
  | null => exact filled_nil.value _ _ _
  | named hn hv ihn ihv => exact Filled.value _ _ _ (ihn.append ihv)
  | error hw => exact filled_nil.value _ _ _

/-- No chunk of filled items is empty. -/
theorem chunks_ne {buf : List UInt8} {us : List (List Token)} (hu : Filled us)
    (hw : EachWhole (headerSize + buf.length) us) (hne : buf ≠ [] ∨ us ≠ []) :
    ∀ c ∈ chunks buf us.flatten, c ≠ [] := by
  induction us generalizing buf with
  | nil =>
      intro c hc
      cases List.mem_singleton.mp hc
      exact hne.resolve_right fun h => h rfl
  | cons u us ih =>
      obtain ⟨hpos, hus⟩ := List.forall_mem_cons.mp hu
      obtain ⟨hwu, hws⟩ := eachWhole_cons.mp hw
      have hnext (b : List UInt8) : b ++ tokenImage u ≠ [] ∨ us ≠ [] := by
        left
        intro hnil
        rw [(List.append_eq_nil_iff.mp hnil).2] at hpos
        exact Nat.lt_irrefl 0 hpos
      rw [List.flatten_cons]
      rcases chunks_item hwu with hb | ⟨hbuf, hb, hc⟩
      · rw [hb] at hwu hws
        rw [chunks_whole _ hwu]
        exact ih hus hws (hnext buf)
      · rw [hb] at hwu hws
        rw [hc, chunks_whole _ hwu]
        exact List.forall_mem_cons.mpr ⟨hbuf, ih hus hws (hnext [])⟩

/-! ## The first value -/

/-- What a value begins with. -/
theorem Val.items_head (v : Val) : ∃ vt rest us, v.items = value vt (.word 8 v.state.exp :: rest) :: us ∧
    (vt = .zts → v.state.exp = 2) := by
  cases v with
  | std_string s => exact ⟨_, _, _, rfl, fun h => by cases h⟩
  | std_int v => exact ⟨_, _, _, rfl, fun h => by cases h⟩
  | array a =>
      refine ⟨_, _, _, rfl, fun h => ?_⟩
      cases ht : a.type <;> rw [ht] at h <;> cases h
  | zts idx a => exact ⟨_, _, _, rfl, fun _ => rfl⟩
  | list l => exact ⟨_, _, _, rfl, fun h => by cases h⟩
  | null => exact ⟨_, _, _, rfl, fun h => by cases h⟩
  | named name v => exact ⟨_, _, _, rfl, fun h => by cases h⟩
  | error what => exact ⟨_, _, _, rfl, fun h => by cases h⟩

theorem Val.items_ne (v : Val) : v.items ≠ [] := by
  obtain ⟨vt, rest, us, hitems, -⟩ := v.items_head
  rw [hitems]
  exact List.cons_ne_nil _ _

/-- The first chunk begins with the head. -/
theorem Val.at_head {front c : List UInt8} {v : Val} {cs : List (List UInt8)}
    (hw : EachWhole (headerSize + front.length) v.items)
    (hc : chunks front v.items.flatten = c :: cs) (hb : base front (v.items.headD []) = front) :
    ∃ vt : ValType, At c front.length (leBytes 8 vt.number ++ leBytes 8 v.state.exp) ∧
      (vt = .zts → v.state.exp = 2) := by
  obtain ⟨vt, rest, us, hitems, hz⟩ := v.items_head
  rw [hitems] at hw hc hb
  obtain ⟨hu, -⟩ := eachWhole_cons.mp hw
  rw [List.headD_cons] at hb
  rw [hb] at hu
  obtain ⟨tail, ds, hd⟩ := chunks_head
    (front ++ tokenImage (Net.value vt (.word 8 v.state.exp :: rest))) us.flatten
  rw [List.flatten_cons, chunks_whole _ hu, hd] at hc
  obtain ⟨rfl, -⟩ := List.cons.inj hc
  refine ⟨vt, ⟨front, tokenImage rest ++ tail, rfl, ?_⟩, hz⟩
  rw [tokenImage_value]
  simp only [List.append_assoc]

theorem Val.Sound.exp_lt {v : Val} (h : v.Sound) : v.state.exp < 2 ^ 64 := by
  cases h with
  | std_string hs =>
      simp only [CHUNKSZ] at hs
      show List.length _ < _
      omega
  | std_int hv => exact hv
  | array ha =>
      show VArray.size _ < _
      rw [ha.size_eq]
      exact ha.memory
  | zts hidx ha hi hd => exact Nat.lt_trans (by norm_num : (2 : Nat) < 3) (by norm_num)
  | list hl hn hv => exact hl
  | null => exact Nat.two_pow_pos 64
  | named hn hv => exact Nat.lt_trans (by norm_num : (2 : Nat) < 3) (by norm_num)
  | error hw =>
      simp only [Arr.STRING_SIZE] at hw
      show List.length _ < _
      omega

theorem Val.Sound.complete {v : Val} (h : v.Sound) : v.state.exp ≤ v.state.n := by
  have hal {n : Nat} (hn : n < CHUNKSZ) : n ≤ getAlignedLength n := by
    rw [getAlignedLength_of_le (by simp only [CHUNKSZ] at hn; omega)]
    exact le_aligned _
  cases h with
  | std_string hs => exact hal hs
  | @error what hw =>
      have hlt : what.chars.length < CHUNKSZ := by
        simp only [Arr.STRING_SIZE] at hw
        simp only [CHUNKSZ]
        omega
      exact hal hlt
  | _ => exact Nat.le_refl _

/-! ## Chunk by chunk -/

/-- From a chunk on, each call of `readValue` returns, and the last one with a reader of
which `P` holds. -/
def Delivers (P : Reader → Prop) : Reader → List (List UInt8) → Prop
  | r, [] => P r
  | r, c :: cs => ∃ k r', readValue c k r = some (.returns r') ∧ Delivers P { r' with off := 0 } cs

theorem delivers_cons (P : Reader → Prop) (r : Reader) (c : List UInt8) (cs : List (List UInt8)) :
    Delivers P r (c :: cs) ↔ ∃ r', Ends c r (.returns r') ∧ Delivers P { r' with off := 0 } cs := by
  constructor
  · rintro ⟨k, r', h, hr⟩
    exact ⟨r', ⟨k, h⟩, hr⟩
  · rintro ⟨r', ⟨k, h⟩, hr⟩
    exact ⟨k, r', h, hr⟩

instance observesDelivers (P : Reader → Prop) : Observes (Delivers P) where
  stop {c r} hg cs := by
    rw [delivers_cons]
    constructor
    · rintro ⟨r', h, hr⟩
      cases (ends_stop hg _).mp h
      exact hr
    · exact fun h => ⟨r, (ends_stop hg _).mpr rfl, h⟩
  again {c r r'} hg ht cs := by
    rw [delivers_cons, delivers_cons]
    simp only [ends_again hg ht]
  leaves {c r r'} hg ht cs := by
    have he := @ends_turn c r (some (.returns r')) fun k => by rw [readValue, if_pos hg, ht]
    rw [delivers_cons]
    constructor
    · rintro ⟨r₁, h, hr⟩
      cases (he _).mp h
      exact hr
    · exact fun h => ⟨r', (he _).mpr rfl, h⟩

/-- A value behind what is in the chunk arrives. -/
theorem Val.Sound.delivers {front : List UInt8} {v : Val} (h : v.Sound)
    (hw : EachWhole (headerSize + front.length) v.items) :
    ∃ ec, writeTokens v.items.flatten ⟨[], front⟩ = some ec ∧
      ec.sent ++ [ec.buf] = chunks front v.items.flatten ∧
      Delivers (fun r => r = ⟨0, [v.state], 0⟩) ⟨front.length, [], 0⟩ (chunks front v.items.flatten) := by
  have hall := @allFit_items _ _ [] hw trivial
  rw [List.append_nil] at hall
  obtain ⟨ec, hec, hc⟩ := @writeTokens_chunks _ [] front hall
  refine ⟨ec, hec, hc, ?_⟩
  have hr := h.reads (Delivers fun r => r = ⟨0, [v.state], 0⟩) [] front [] [] hw
  rw [Rcv, Rcv, List.append_nil, List.append_nil, chunks, List.append_nil] at hr
  refine hr.mpr ((Observes.stop ?_ []).mpr rfl)
  rintro (hlt | ⟨h0, -⟩)
  · exact Nat.lt_irrefl _ hlt
  · exact Nat.lt_irrefl _ h0

end Ztsdb.Net
