import Mathlib
import Ztsdb.Lib.Portions
import Ztsdb.Net.GcStates
import Ztsdb.Net.ReadPending

/-!
# Responses

A response is one value. `RspState::readData` is called with each chunk of it, and takes it
as complete when the first value of the stack has as much as is expected.
-/

namespace Ztsdb.Net

open Ztsdb.Lib Ztsdb.Arr
open GcStates (IncomingRspState)

/-- `RspState`, as far as it is read into. -/
structure RspState where
  state : IncomingRspState
  valstack : List ValState
  valstack_idx : Nat

namespace RspState

def init : RspState := ⟨.CTX_RSP_IDLE, [], 0⟩

/-- `RspState::readData`, with a bound on the turns of `readValue`. There is no result where
that throws or reads what is not there, or `valstack[0]` is not there. -/
def readData (k : Nat) (buf : List UInt8) (rsp : RspState) : Option RspState :=
  let state := if rsp.state = .CTX_RSP_IDLE then .CTX_RSP else rsp.state
  match readValue buf k ⟨0, rsp.valstack, rsp.valstack_idx⟩ with
  | some (.returns r) =>
    r.ss[0]?.map fun vs =>
      { state := if vs.exp ≤ vs.n then .CTX_RSP_DONE else state
        valstack := r.ss
        valstack_idx := r.idx }
  | _ => none

/-! ## The chunks of a response -/

theorem readValue_succ (c : List UInt8) (k : Nat) (r : Reader) :
    Refines (readValue c k r) (readValue c (k + 1) r) := by
  induction k generalizing r with
  | zero => exact fun e h => by cases h
  | succ k ih =>
      intro e h
      rw [readValue] at h ⊢
      by_cases hg : r.Goes c
      · rw [if_pos hg] at h ⊢
        cases ht : r.turn c with
        | again r' =>
            rw [ht] at h
            exact ih r' e h
        | spins =>
            rw [ht] at h
            cases h
        | _ =>
            rw [ht] at h
            exact h
      · rw [if_neg hg] at h ⊢
        exact h

theorem readValue_deepens (c : List UInt8) : Deepens fun k => readValue c k := readValue_succ c

theorem readData_succ (c : List UInt8) (k : Nat) (rsp : RspState) :
    Refines (rsp.readData k c) (rsp.readData (k + 1) c) := by
  intro rsp' h
  rw [readData] at h ⊢
  cases hr : readValue c k ⟨0, rsp.valstack, rsp.valstack_idx⟩ with
  | none =>
      rw [hr] at h
      cases h
  | some e =>
      rw [hr] at h
      rw [readValue_succ c k _ e hr]
      exact h

theorem readData_deepens (c : List UInt8) : Deepens fun k => readData k c := readData_succ c

/-- The state of a response whose reader is between two chunks. -/
structure Between (e : Nat) (rsp : RspState) (r : Reader) : Prop where
  stack : rsp.valstack = r.ss
  idx : rsp.valstack_idx = r.idx
  off : r.off = 0
  waits : Waits e r
  started : rsp.state ≠ .CTX_RSP_IDLE
  done : rsp.state = .CTX_RSP_DONE ↔ ∃ vs ∈ r.ss[0]?, vs.exp ≤ vs.n

/-- One chunk. -/
theorem readData_between {e : Nat} {c : List UInt8} {rsp : RspState} {r' : Reader}
    (hend : Ends c ⟨0, rsp.valstack, rsp.valstack_idx⟩ (.returns r')) (hw : Waits e r')
    (hkeep : rsp.state = .CTX_RSP_DONE → ∃ vs ∈ r'.ss[0]?, vs.exp ≤ vs.n) :
    ∃ k rsp', rsp.readData k c = some rsp' ∧ Between e rsp' { r' with off := 0 } := by
  obtain ⟨k, hk⟩ := hend
  obtain ⟨vs, above, hss, he, hp⟩ := hw
  have hget : r'.ss[0]? = some vs := by rw [hss]; rfl
  refine ⟨k, _, by rw [readData, hk]; simp only [hget, Option.map_some]; rfl, rfl, rfl, rfl,
    ⟨vs, above, hss, he, hp⟩, ?_, ?_⟩
  · simp only
    split
    · exact fun h => by cases h
    · split
      · exact fun h => by cases h
      · assumption
  · simp only [hget, Option.mem_def, Option.some.injEq, exists_eq_left']
    split
    · next h => exact iff_of_true rfl h
    · next h =>
        refine iff_of_false ?_ h
        split
        · exact fun h => by cases h
        · intro hdone
          obtain ⟨vs', hvs', hle⟩ := hkeep hdone
          rw [hget] at hvs'
          cases hvs'
          exact h hle

theorem takes_between {e : Nat} {P : Reader → Prop} {cs ds : List (List UInt8)} {rsp : RspState}
    {r : Reader} (hb : Between e rsp r) (hd : Delivers P r (cs ++ ds)) (hne : ∀ c ∈ cs, c ≠ []) :
    ∃ k rsp' r', takes (readData k) cs rsp = some rsp' ∧ Between e rsp' r' ∧ Delivers P r' ds := by
  induction cs generalizing rsp r with
  | nil => exact ⟨0, rsp, r, rfl, hb, hd⟩
  | cons c cs ih =>
      obtain ⟨hc, hcs⟩ := List.forall_mem_cons.mp hne
      obtain ⟨r₁, hend, hd⟩ := (delivers_cons P r c (cs ++ ds)).mp hd
      have hr : ⟨0, rsp.valstack, rsp.valstack_idx⟩ = r := by
        rw [hb.stack, hb.idx, ← hb.off]
      have hw := hb.waits.ends hend
      have hkeep : rsp.state = .CTX_RSP_DONE → ∃ vs ∈ r₁.ss[0]?, vs.exp ≤ vs.n := by
        intro hdone
        obtain ⟨vs, hvs, hle⟩ := hb.done.mp hdone
        by_cases h0 : e = 0
        · obtain ⟨vs', above, hss, he, -⟩ := hw
          exact ⟨vs', by rw [hss]; rfl, by omega⟩
        · exact absurd ⟨r₁, hend⟩ (hb.waits.not_ends h0 ⟨vs, hvs, hle⟩ (hb.off ▸ List.length_pos_of_ne_nil hc))
      obtain ⟨k, rsp₁, h₁, hb₁⟩ := readData_between (hr ▸ hend) hw hkeep
      obtain ⟨k', rsp', r', h', hb', hd'⟩ := ih hb₁ hd hcs
      refine ⟨max k k', rsp', r', ?_, hb', hd'⟩
      rw [takes_cons, (readData_deepens c).le (le_max_left k k') rsp rsp₁ h₁, Option.bind_some]
      exact (Deepens.takes readData_deepens cs).le (le_max_right k k') rsp₁ rsp' h'

/-- The first chunk of a value. -/
theorem waits_first {v : Val} {c : List UInt8} {off : Nat} {r' : Reader} (h : v.Sound)
    (hat : ∃ vt : ValType, At c off (leBytes 8 vt.number ++ leBytes 8 v.state.exp) ∧
      (vt = .zts → v.state.exp = 2))
    (hend : Ends c ⟨off, [], 0⟩ (.returns r')) : Waits v.state.exp r' := by
  obtain ⟨vt, hat, hz⟩ := hat
  have hgoes : Reader.Goes c ⟨off, [], 0⟩ := by
    left
    have hle := hat.length_le
    simp only [List.length_append, length_leBytes] at hle
    show off < c.length
    omega
  cases ht : Reader.turn c ⟨off, [], 0⟩ with
  | again r₁ =>
      have hw := waits_head (.inl ht) hat h.exp_lt hz
      exact hw.ends ((ends_again hgoes ht _).mp hend)
  | leaves r₁ =>
      have he := (@ends_turn c _ (some (.returns r₁)) (fun k => by rw [readValue, if_pos hgoes, ht]) _).mp
        hend
      cases he
      exact waits_head (.inr ht) hat h.exp_lt hz
  | throws e =>
      have he := (@ends_turn c _ (some (.throws e)) (fun k => by rw [readValue, if_pos hgoes, ht]) _).mp
        hend
      cases he
  | faults =>
      have he := (@ends_turn c _ (some .faults) (fun k => by rw [readValue, if_pos hgoes, ht]) _).mp hend
      cases he
  | spins =>
      have he := (@ends_turn c _ none (fun k => by rw [readValue, if_pos hgoes, ht]) _).mp hend
      cases he

/-- The first value is complete behind the last chunk, and always if nothing is expected. -/
theorem Between.complete_iff {e : Nat} {P : Reader → Prop} {ds : List (List UInt8)} {rsp : RspState}
    {r : Reader} (hb : Between e rsp r) (hd : Delivers P r ds) (hne : ∀ c ∈ ds, c ≠ [])
    (hP : P r → ∃ vs ∈ r.ss[0]?, vs.exp ≤ vs.n) :
    (∃ vs ∈ r.ss[0]?, vs.exp ≤ vs.n) ↔ ds = [] ∨ e = 0 := by
  constructor
  · intro hdone
    by_cases h0 : e = 0
    · exact .inr h0
    · cases ds with
      | nil => exact .inl rfl
      | cons d ds =>
          obtain ⟨r', hend, -⟩ := (delivers_cons P r d ds).mp hd
          exact absurd ⟨r', hend⟩ (hb.waits.not_ends h0 hdone
            (hb.off ▸ List.length_pos_of_ne_nil (hne d List.mem_cons_self)))
  · rintro (rfl | rfl)
    · exact hP hd
    · obtain ⟨vs, above, hss, he, -⟩ := hb.waits
      exact ⟨vs, by rw [hss]; rfl, by omega⟩

/-- The first chunks of a response. -/
theorem complete_at {v : Val} {ec : Encode} {cs ds : List (List UInt8)} (h : v.Sound)
    (hw : EachWhole headerSize v.items) (hec : writeTokens v.items.flatten Encode.init = some ec)
    (hsplit : ec.sent ++ [ec.buf] = cs ++ ds) (hcs : cs ≠ []) :
    ∃ k rsp, takes (readData k) cs init = some rsp ∧
      (rsp.state = .CTX_RSP_DONE ↔ ds = [] ∨ v.state.exp = 0) ∧
      (ds = [] → rsp.valstack = [v.state] ∧ rsp.valstack_idx = 0) := by
  have hw' : EachWhole (headerSize + ([] : List UInt8).length) v.items := hw
  obtain ⟨ec', hec', hchunks, hd⟩ := h.delivers hw'
  obtain rfl : ec = ec' := Option.some.inj (hec.symm.trans hec')
  rw [hchunks] at hsplit
  have hne := chunks_ne h.filled hw' (.inr v.items_ne)
  rw [hsplit] at hd hne
  obtain ⟨hnecs, hneds⟩ := List.forall_mem_append.mp hne
  cases cs with
  | nil => exact absurd rfl hcs
  | cons c cs =>
      obtain ⟨hc, hnecs⟩ := List.forall_mem_cons.mp hnecs
      obtain ⟨r₁, hend, hd⟩ := (delivers_cons _ _ c (cs ++ ds)).mp hd
      have hwaits := waits_first h (v.at_head hw' hsplit (base_nil _)) hend
      obtain ⟨k, rsp₁, h₁, hb₁⟩ := @readData_between _ c init r₁ hend hwaits fun hinit => by cases hinit
      obtain ⟨k', rsp, r, h', hb, hd⟩ := takes_between hb₁ hd hnecs
      refine ⟨max k k', rsp, ?_, ?_, ?_⟩
      · rw [takes_cons, (readData_deepens c).le (le_max_left k k') init rsp₁ h₁, Option.bind_some]
        exact (Deepens.takes readData_deepens cs).le (le_max_right k k') rsp₁ rsp h'
      · rw [hb.done]
        exact hb.complete_iff hd hneds fun hr => ⟨v.state, by rw [hr]; rfl, h.complete⟩
      · rintro rfl
        cases hd
        exact ⟨hb.stack, hb.idx⟩

end RspState

/-- A vector without names, not known to be ordered. -/
def vector (t : EltType) (xs : List Elt) : VArray where
  type := t
  dim := [UInt64.ofNat xs.length]
  names := [[]]
  v := [⟨false, xs⟩]

theorem vector_sound {t : EltType} {xs : List Elt} (hx : ∀ x ∈ xs, x.HasType t)
    (hs : ∀ s, .string s ∈ xs → s.chars.length < Arr.STRING_SIZE) (hlen : xs.length < 2 ^ 64) :
    (vector t xs).Sound := by
  have hrows : (vector t xs).nrows = xs.length := by
    show (UInt64.ofNat xs.length).toNat = _
    rw [UInt64.toNat_ofNat', Nat.mod_eq_of_lt hlen]
  have hmem {c : Column} (hc : c ∈ (vector t xs).v) : c = ⟨false, xs⟩ := List.mem_singleton.mp hc
  refine { ncols := rfl, nrows := ?_, types := ?_, names := rfl, named := ?_, memory := ?_, columns := ?_,
           dims := ?_, names_end := ?_, strings_end := ?_, ascending := ?_ }
  · intro c hc
    rw [hmem hc, hrows]
  · intro c hc
    rw [hmem hc]
    exact hx
  · intro j hj d hd
    cases j with
    | zero => exact .inl rfl
    | succ j => exact absurd hj (Nat.not_lt.mpr (Nat.le_add_left 1 j))
  · rw [hrows]
    show 1 * xs.length < 2 ^ 64
    omega
  · show 1 < 2 ^ 64
    norm_num
  · show 1 < 2 ^ 64
    norm_num
  · intro nm hnm s hsm
    rw [List.mem_singleton.mp hnm] at hsm
    exact absurd hsm List.not_mem_nil
  · intro s hsm
    refine hs s ?_
    rw [VArray.elts] at hsm
    simpa [vector] using hsm
  · intro _ c hc ho
    rw [hmem hc] at ho
    cases ho

/-- A list with a time series, a string, and an error in it. -/
def sample : Val :=
  .list
    [([97], .zts (vector .time [.word 1, .word 2]) (vector .double [.word 3, .word 4])),
      ([98], .array (vector .string [.string (ZString.ofString [120, 121])])),
      ([], .list [([], .null), ([99], .error (ZString.ofString [101]))])]

theorem sample_sound : sample.Sound := by
  have hname {n : List UInt8} (hn : n.length < 2) : n.length < CHUNKSZ := by
    simp only [CHUNKSZ]
    omega
  refine .list (by decide) ?_ ?_
  · intro x hx
    simp only [List.mem_cons, List.not_mem_nil, or_false] at hx
    rcases hx with rfl | rfl | rfl
    all_goals exact hname (by decide)
  · intro x hx
    simp only [List.mem_cons, List.not_mem_nil, or_false] at hx
    rcases hx with rfl | rfl | rfl
    · refine .zts (vector_sound ?_ ?_ (by decide)) (vector_sound ?_ ?_ (by decide)) rfl rfl
      · simp [Elt.HasType]
      · simp
      · simp [Elt.HasType]
      · simp
    · refine .array (vector_sound ?_ ?_ (by decide))
      · simp [Elt.HasType]
      · intro s hs
        cases List.mem_singleton.mp hs
        decide
    · refine .list (by decide) ?_ ?_
      · intro y hy
        simp only [List.mem_cons, List.not_mem_nil, or_false] at hy
        rcases hy with rfl | rfl
        all_goals exact hname (by decide)
      · intro y hy
        simp only [List.mem_cons, List.not_mem_nil, or_false] at hy
        rcases hy with rfl | rfl
        · exact .null
        · exact .error (by decide)

theorem sample_whole : EachWhole headerSize sample.items := by decide +kernel

end Ztsdb.Net
