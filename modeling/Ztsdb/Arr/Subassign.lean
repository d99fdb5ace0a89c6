import Mathlib
import Ztsdb.Arr.VectorOrder
import Ztsdb.Arr.VectorSet
import Ztsdb.Arr.Index
import Ztsdb.Lib.Writes

/-!
# Assignment to listed positions

`IntIndex_T::subassign` writes the listed positions of a vector in an order of its own, so
that a check against the neighbours of each write can tell whether the vector is still
ordered. The constructor prepares it: `vidx` has the positions in the order of the writes,
`uidx` the places of their replacements. For a list of positions that is not flagged as
ordered it sorts the places by position, and then puts position and place `j` where the
sorted list has its `j`-th entry, which is not in general the order of the positions.

A position paired with a place stays paired with it, so that with distinct positions every
one gets its replacement. Where a position is listed twice, the write with the later turn
stays, which need not be the one listed last.
-/

namespace Ztsdb.Arr

open Ztsdb.Lib

/-- The comparison of places by the positions that are there. -/
def byValue (vi : List Nat) (a b : Nat) : Bool := decide (vi.getD a 0 < vi.getD b 0)

/-- `sort_idx` with base zero. -/
def sort_idx (sort : ∀ vi, StdSort (byValue vi)) (vi : List Nat) : List Nat :=
  (sort vi).run (List.range vi.length)

instance (vi : List Nat) : IsStrictWeakOrder Nat (fun a b => byValue vi a b = true) where
  irrefl a := by simp [byValue]
  trans a b c hab hbc := by
    rw [byValue, decide_eq_true_eq] at hab hbc ⊢
    exact lt_trans hab hbc
  incomp_trans a b c hab hbc := by
    simp only [byValue, decide_eq_true_eq, not_lt] at hab hbc ⊢
    exact ⟨le_trans hbc.1 hab.1, le_trans hab.2 hbc.2⟩

/-- `IntIndex_T`, with the two vectors its constructor fills for the assignments. -/
structure IntIndex_T extends IntIndex where
  vidx : List Nat
  uidx : List Nat

namespace IntIndex_T

/-- The loop of the constructor, from place `j` on. -/
def fill : Nat → List Nat → List Nat → List Nat × List Nat → List Nat × List Nat
  | j, k :: idx, x :: vi, r => fill (j + 1) idx vi (r.1.set k x, r.2.set k j)
  | _, _, _, r => r

/-- The constructor. -/
def make (sort : ∀ vi, StdSort (byValue vi)) (vi : Vector Nat) : IntIndex_T :=
  if vi.ordered then ⟨⟨vi.v⟩, vi.v, List.range vi.size⟩
  else
    let zeros := List.replicate vi.size 0
    let r := fill 0 (sort_idx sort vi.v) vi.v (zeros, zeros)
    ⟨⟨vi.v⟩, r.1, r.2⟩

section Write

variable {T U : Type} (O : T → T → Bool) (convert : U → T)

/-- The loop of `subassign`. The element after a position is not looked at when its write
is the next one. -/
def subassignLoop (u : List U) (vj : Nat) :
    List Nat → List Nat → Vector T → Outcome Exn (Vector T) Unit
  | p :: vidx, q :: uidx, rv =>
    match u[vj + q]? with
    | none => .throw (.outOfRange "subscript out of bounds") rv
    | some x =>
      (if vidx.head? = some (p + 1) then rv.setv_checkbefore O p (convert x)
        else rv.setv O p (convert x)).bind fun _ rv => subassignLoop u vj vidx uidx rv
  | _, _, rv => .ok () rv

/-- `subassign`; the result is where the cursor of the replacement is then. -/
def subassign (idx : IntIndex_T) (u : List U) (vj : Nat) (rv : Vector T) :
    Outcome Exn (Vector T) Nat :=
  (subassignLoop O convert u vj idx.vidx idx.uidx rv).bind fun _ rv =>
    .ok (vj + idx.vi.length) rv

/-! ## The writes -/

/-- The checks that the writes make against what is there at their turns. -/
def fits : List (Nat × T) → List T → Bool
  | [], _ => true
  | (p, x) :: ws, l =>
    (before O l p x && (decide ((ws.map Prod.fst).head? = some (p + 1)) || Lib.after O l p x)) &&
      fits ws (l.set p x)

/-- In range the loop makes its writes, and the flag stays if all of them fit. -/
theorem subassignLoop_eq_ok {u : List U} {vj : Nat} {vidx uidx : List Nat} {ws : List (Nat × T)}
    (hpos : ws.map Prod.fst = vidx)
    (hval : List.Forall₂ (fun q w => (u[vj + q]?).map convert = some w.2) uidx ws)
    (rv : Vector T) (hlt : ∀ p ∈ vidx, p < rv.size) :
    subassignLoop O convert u vj vidx uidx rv =
      .ok () { rv with v := writes ws rv.v, ordered := rv.ordered && fits O ws rv.v } := by
  subst hpos
  induction hval generalizing rv with
  | nil =>
      rw [List.map_nil, subassignLoop, writes, fits, Bool.and_true]
      · rintro _ _ _ _ ⟨⟩
  | @cons q w uidx ws hw _ ih =>
      obtain ⟨p, x⟩ := w
      obtain ⟨y, hy, hx⟩ := Option.map_eq_some_iff.1 hw
      have hp : ¬rv.size ≤ p := not_le.2 (hlt p List.mem_cons_self)
      have hrest (o : Bool) := ih { rv with v := rv.v.set p x, ordered := o } fun p' hp' => by
        show p' < (rv.v.set p x).length
        rw [List.length_set]
        exact hlt p' (List.mem_cons_of_mem _ hp')
      rw [List.map_cons, subassignLoop, hy]
      simp only [hx]
      split
      · next hnext =>
          rw [Vector.setv_checkbefore, if_neg hp, Outcome.bind_ok, hrest]
          simp only [writes, fits, hnext, decide_true, Bool.true_or, Bool.and_true, Bool.and_assoc]
      · next hnext =>
          rw [Vector.setv, if_neg hp, Outcome.bind_ok, hrest]
          simp only [writes, fits, hnext, decide_false, Bool.false_or, Bool.and_assoc]

end Write

/-! ## The order of the writes -/

theorem fill_eq (j : Nat) {idx vi : List Nat} (h : idx.length = vi.length)
    (r : List Nat × List Nat) :
    fill j idx vi r =
      (writes (idx.zip vi) r.1, writes (idx.zip (List.range' j vi.length)) r.2) := by
  induction idx generalizing j vi r with
  | nil =>
      cases vi with
      | nil => rfl
      | cons x vi => cases h
  | cons k idx ih =>
      cases vi with
      | nil => cases h
      | cons x vi =>
          rw [fill, ih (j + 1) (Nat.succ.inj h), List.length_cons, List.range'_succ,
            List.zip_cons_cons, List.zip_cons_cons, writes, writes]

/-- When the position at place `k` of the list is written. -/
def turn (sort : ∀ vi, StdSort (byValue vi)) (vi : Vector Nat) (k : Nat) : Nat :=
  if vi.ordered then k else (sort_idx sort vi.v).getD k 0

variable (sort : ∀ vi, StdSort (byValue vi)) (vi : Vector Nat)

theorem perm_sort_idx (vi : List Nat) : (sort_idx sort vi).Perm (List.range vi.length) :=
  (sort vi).perm _

theorem length_sort_idx (vi : List Nat) : (sort_idx sort vi).length = vi.length := by
  rw [(perm_sort_idx sort vi).length_eq, List.length_range]

theorem turn_eq_getElem {k : Nat} (ho : vi.ordered = false) (hk : k < vi.size) :
    (sort_idx sort vi.v)[k]? = some (turn sort vi k) := by
  have hlt : k < (sort_idx sort vi.v).length := by
    rw [length_sort_idx]
    exact hk
  simp [turn, ho, List.getD_eq_getElem?_getD, List.getElem?_eq_getElem hlt]

theorem turn_lt {k : Nat} (hk : k < vi.size) : turn sort vi k < vi.size := by
  cases ho : vi.ordered with
  | true => simpa [turn, ho] using hk
  | false =>
      have hmem := List.mem_of_getElem? (turn_eq_getElem sort vi ho hk)
      exact List.mem_range.1 ((perm_sort_idx sort vi.v).mem_iff.1 hmem)

/-- Every write is some place's turn. -/
theorem exists_turn {m : Nat} (hm : m < vi.size) : ∃ k, k < vi.size ∧ turn sort vi k = m := by
  cases ho : vi.ordered with
  | true => exact ⟨m, hm, by simp [turn, ho]⟩
  | false =>
      have hmem := (perm_sort_idx sort vi.v).mem_iff.2 (List.mem_range.2 hm)
      obtain ⟨k, hk, heq⟩ := List.mem_iff_getElem.1 hmem
      rw [length_sort_idx] at hk
      refine ⟨k, hk, ?_⟩
      have hturn := turn_eq_getElem sort vi ho hk
      rw [List.getElem?_eq_getElem (by rwa [length_sort_idx]), heq] at hturn
      exact (Option.some.inj hturn).symm

theorem make_of_ordered (ho : vi.ordered = true) :
    make sort vi = ⟨⟨vi.v⟩, vi.v, List.range vi.size⟩ := by
  rw [make, if_pos ho]

theorem make_of_unordered (ho : vi.ordered = false) :
    make sort vi = ⟨⟨vi.v⟩, writes ((sort_idx sort vi.v).zip vi.v) (List.replicate vi.size 0),
      writes ((sort_idx sort vi.v).zip (List.range' 0 vi.size)) (List.replicate vi.size 0)⟩ := by
  rw [make, if_neg (by simp [ho])]
  show IntIndex_T.mk ⟨vi.v⟩ (fill _ _ _ _).1 (fill _ _ _ _).2 = _
  rw [fill_eq 0 (length_sort_idx sort vi.v)]
  rfl

theorem length_make : (make sort vi).vidx.length = vi.size ∧
    (make sort vi).uidx.length = vi.size := by
  cases ho : vi.ordered with
  | true =>
      rw [make_of_ordered sort vi ho]
      exact ⟨rfl, List.length_range⟩
  | false =>
      rw [make_of_unordered sort vi ho]
      simp only [length_writes, List.length_replicate, and_self]

/-- At the turn of place `k` its position is written, with its replacement. -/
theorem make_turn {k : Nat} (hk : k < vi.size) :
    (make sort vi).vidx[turn sort vi k]? = vi.v[k]? ∧
      (make sort vi).uidx[turn sort vi k]? = some k := by
  cases ho : vi.ordered with
  | true =>
      rw [make_of_ordered sort vi ho, turn, if_pos ho]
      exact ⟨rfl, List.getElem?_range hk⟩
  | false =>
      have hlen := length_sort_idx sort vi.v
      have hidx := turn_eq_getElem sort vi ho hk
      have hlt := turn_lt sort vi hk
      have hfst (vs : List Nat) (hvs : vs.length = vi.size) :
          (((sort_idx sort vi.v).zip vs).map Prod.fst).Nodup := by
        rw [List.map_fst_zip (by rw [hlen, hvs]; exact le_refl _)]
        exact (perm_sort_idx sort vi.v).nodup_iff.2 List.nodup_range
      rw [make_of_unordered sort vi ho]
      constructor
      · rw [List.getElem?_eq_getElem hk]
        refine getElem?_writes_nodup (i := k) (hfst _ rfl) ?_ (by simpa using hlt)
        rw [List.getElem?_zip_eq_some]
        exact ⟨hidx, List.getElem?_eq_getElem hk⟩
      · refine getElem?_writes_nodup (i := k) (hfst _ (List.length_range' ..)) ?_ (by simpa using hlt)
        rw [List.getElem?_zip_eq_some]
        refine ⟨hidx, ?_⟩
        rw [List.getElem?_range' hk]
        simp

theorem mem_vidx {p : Nat} (hp : p ∈ (make sort vi).vidx) : p ∈ vi.v := by
  obtain ⟨m, hm⟩ := List.mem_iff_getElem?.1 hp
  have hlt := (List.getElem?_eq_some_iff.1 hm).1
  rw [(length_make sort vi).1] at hlt
  obtain ⟨k, hk, rfl⟩ := exists_turn sort vi hlt
  rw [(make_turn sort vi hk).1] at hm
  exact List.mem_of_getElem? hm

theorem mem_uidx {q : Nat} (hq : q ∈ (make sort vi).uidx) : q < vi.size := by
  obtain ⟨m, hm⟩ := List.mem_iff_getElem?.1 hq
  have hlt := (List.getElem?_eq_some_iff.1 hm).1
  rw [(length_make sort vi).2] at hlt
  obtain ⟨k, hk, rfl⟩ := exists_turn sort vi hlt
  rw [(make_turn sort vi hk).2] at hm
  cases hm
  exact hk

section Write

variable {T U : Type} (O : T → T → Bool) (convert : U → T)

/-- The replacements at the places `uidx`, beside the positions they go to. -/
theorem exists_writes {u : List U} {vj : Nat} {vidx uidx : List Nat}
    (hlen : vidx.length = uidx.length) (hu : ∀ q ∈ uidx, vj + q < u.length) :
    ∃ ws : List (Nat × T), ws.map Prod.fst = vidx ∧
      List.Forall₂ (fun q w => (u[vj + q]?).map convert = some w.2) uidx ws := by
  induction uidx generalizing vidx with
  | nil => exact ⟨[], (List.length_eq_zero_iff.1 hlen).symm, .nil⟩
  | cons q uidx ih =>
      cases vidx with
      | nil => cases hlen
      | cons p vidx =>
          obtain ⟨ws, hfst, hval⟩ :=
            ih (Nat.succ.inj hlen) fun q' hq' => hu q' (List.mem_cons_of_mem q hq')
          have hq := hu q List.mem_cons_self
          refine ⟨(p, convert u[vj + q]) :: ws, by rw [List.map_cons, hfst], .cons ?_ hval⟩
          rw [List.getElem?_eq_getElem hq]
          rfl

/-- The writes of an index in their turns; `us` are the replacements. -/
structure InTurns (us : List T) (ws : List (Nat × T)) : Prop where
  length : ws.length = vi.size
  at_turn : ∀ k < vi.size, ∃ p x, vi.v[k]? = some p ∧ us[k]? = some x ∧
    ws[turn sort vi k]? = some (p, x)

variable {sort vi}

/-- The write of a place of the index. -/
theorem InTurns.write {us : List T} {ws : List (Nat × T)} (h : InTurns sort vi us ws) {k p : Nat}
    (hk : vi.v[k]? = some p) : ∃ x, us[k]? = some x ∧ ws[turn sort vi k]? = some (p, x) := by
  obtain ⟨p', x, hk', hx, hw⟩ := h.at_turn k (List.getElem?_eq_some_iff.1 hk).1
  obtain rfl : p = p' := Option.some.inj (hk.symm.trans hk')
  exact ⟨x, hx, hw⟩

/-- The place of the index that a write is for. -/
theorem InTurns.place {us : List T} {ws : List (Nat × T)} (h : InTurns sort vi us ws)
    {m p : Nat} {x : T} (hm : ws[m]? = some (p, x)) :
    ∃ k, turn sort vi k = m ∧ vi.v[k]? = some p ∧ us[k]? = some x := by
  obtain ⟨k, hk, rfl⟩ := exists_turn sort vi (h.length ▸ (List.getElem?_eq_some_iff.1 hm).1)
  obtain ⟨p', x', hp, hx, hw⟩ := h.at_turn k hk
  rw [hm] at hw
  cases hw
  exact ⟨k, rfl, hp, hx⟩

theorem InTurns.mem {us : List T} {ws : List (Nat × T)} (h : InTurns sort vi us ws)
    {w : Nat × T} (hw : w ∈ ws) : w.1 ∈ vi.v := by
  obtain ⟨m, hm⟩ := List.mem_iff_getElem?.1 hw
  obtain ⟨k, -, hk, -⟩ := h.place hm
  exact List.mem_of_getElem? hk

/-- A position that is not listed. -/
theorem InTurns.getElem?_of_not_mem {us : List T} {ws : List (Nat × T)}
    (h : InTurns sort vi us ws) {l : List T} {p : Nat} (hp : p ∉ vi.v) :
    (writes ws l)[p]? = l[p]? := by
  refine getElem?_writes_of_ne ?_
  rintro w hw rfl
  exact hp (h.mem hw)

/-- The place whose turn is the last one among those that list the position. -/
theorem InTurns.getElem?_winner {us : List T} {ws : List (Nat × T)} (h : InTurns sort vi us ws)
    {l : List T} {j p : Nat} (hj : vi.v[j]? = some p) (hp : p < l.length)
    (hmax : ∀ k, vi.v[k]? = some p → turn sort vi k ≤ turn sort vi j) :
    (writes ws l)[p]? = us[j]? := by
  obtain ⟨x, hx, hw⟩ := h.write hj
  rw [hx]
  refine getElem?_writes_last hw ?_ hp
  rintro m ⟨p', x'⟩ hm hw' rfl
  obtain ⟨k, rfl, hk, -⟩ := h.place hw'
  exact absurd (hmax k hk) (not_le.2 hm)

/-- Distinct positions are written once each. -/
theorem InTurns.nodup {us : List T} {ws : List (Nat × T)} (h : InTurns sort vi us ws)
    (hnd : vi.v.Nodup) : (ws.map Prod.fst).Nodup := by
  rw [List.nodup_iff_getElem?_ne_getElem?]
  intro i j hij hj heq
  rw [List.length_map] at hj
  rw [List.getElem?_map, List.getElem?_map, List.getElem?_eq_getElem hj,
    List.getElem?_eq_getElem (hij.trans hj)] at heq
  obtain ⟨a, ha, hpa, -⟩ := h.place (List.getElem?_eq_getElem (hij.trans hj))
  obtain ⟨b, hb, hpb, -⟩ := h.place (List.getElem?_eq_getElem hj)
  have hlt : a < vi.v.length := (List.getElem?_eq_some_iff.1 hpa).1
  obtain rfl : a = b := (List.getElem?_inj hlt hnd).1 (hpa.trans (heq.trans hpb.symm))
  exact absurd (ha.symm.trans hb) (Nat.ne_of_lt hij)

/-- The vector with each listed position replaced. -/
def replaced (vi : List Nat) (us : List T) (l : List T) : List T := writes (vi.zip us) l

/-- With distinct positions the order of the writes does not matter to the result. -/
theorem InTurns.writes_eq_replaced {us : List T} {ws : List (Nat × T)}
    (h : InTurns sort vi us ws) {l : List T} (hnd : vi.v.Nodup) (hin : ∀ p ∈ vi.v, p < l.length) :
    writes ws l = replaced vi.v us l := by
  have hus : vi.v.length ≤ us.length := by
    by_contra hlt
    obtain ⟨p, x, -, hx, -⟩ := h.at_turn us.length (not_le.1 hlt)
    rw [List.getElem?_eq_none (le_refl _)] at hx
    cases hx
  have hnd' : ((vi.v.zip us).map Prod.fst).Nodup := by
    rw [List.map_fst_zip hus]
    exact hnd
  apply List.ext_getElem?
  intro p
  by_cases hp : p ∈ vi.v
  · obtain ⟨k, hk⟩ := List.mem_iff_getElem?.1 hp
    obtain ⟨x, hx, hw⟩ := h.write hk
    rw [getElem?_writes_nodup (h.nodup hnd) hw (hin p hp), replaced,
      getElem?_writes_nodup hnd' (List.getElem?_zip_eq_some.2 ⟨hk, hx⟩) (hin p hp)]
  · rw [h.getElem?_of_not_mem hp, replaced, getElem?_writes_of_ne]
    rintro ⟨q, x⟩ hw rfl
    exact hp (List.of_mem_zip hw).1

variable (sort vi)

/-- What `subassign` does, as writes: at the turn of each place of the index its position
gets its replacement. -/
theorem subassign_eq_ok {u : List U} {vj : Nat} (rv : Vector T) (hin : ∀ p ∈ vi.v, p < rv.size)
    (hu : vj + vi.size ≤ u.length) :
    ∃ ws : List (Nat × T), InTurns sort vi ((u.drop vj).map convert) ws ∧
      subassign O convert (make sort vi) u vj rv = .ok (vj + vi.size)
        { rv with v := writes ws rv.v, ordered := rv.ordered && fits O ws rv.v } := by
  obtain ⟨hlen1, hlen2⟩ := length_make sort vi
  have hplaces : ∀ q ∈ (make sort vi).uidx, vj + q < u.length := by
    intro q hq
    have hlt := mem_uidx sort vi hq
    omega
  obtain ⟨ws, hfst, hval⟩ := exists_writes convert (hlen1.trans hlen2.symm) hplaces
  have hlen : ws.length = vi.size := by rw [← hval.length_eq, hlen2]
  refine ⟨ws, ⟨hlen, ?_⟩, ?_⟩
  · intro k hk
    obtain ⟨hpos, hplace⟩ := make_turn sort vi hk
    have ht := turn_lt sort vi hk
    have ht1 : turn sort vi k < ws.length := hlen ▸ ht
    have ht2 : turn sort vi k < (make sort vi).uidx.length := hlen2 ▸ ht
    have hw := hval.get ht2 ht1
    simp only [List.get_eq_getElem, (List.getElem?_eq_some_iff.1 hplace).2] at hw
    rw [← hfst, List.getElem?_map, List.getElem?_eq_getElem ht1] at hpos
    refine ⟨_, _, hpos.symm, ?_, List.getElem?_eq_getElem ht1⟩
    rw [List.getElem?_map, List.getElem?_drop]
    exact hw
  · have hmake : (make sort vi).vi = vi.v := by
      rw [make]
      split <;> rfl
    rw [subassign, subassignLoop_eq_ok O convert hfst hval rv fun p hp =>
      hin p (mem_vidx sort vi hp), Outcome.bind_ok, hmake]
    rfl

/-- Some place that lists the position has the last turn. -/
theorem exists_winner {p : Nat} (hp : p ∈ vi.v) :
    ∃ j, vi.v[j]? = some p ∧ ∀ k, vi.v[k]? = some p → turn sort vi k ≤ turn sort vi j := by
  obtain ⟨i, hi⟩ := List.mem_iff_getElem?.1 hp
  have hmem {k : Nat} : k ∈ (Finset.range vi.size).filter (fun k => vi.v[k]? = some p) ↔
      vi.v[k]? = some p := by
    rw [Finset.mem_filter, Finset.mem_range]
    exact and_iff_right_of_imp fun h => (List.getElem?_eq_some_iff.1 h).1
  obtain ⟨j, hj, hmax⟩ := Finset.exists_max_image _ (turn sort vi) ⟨i, hmem.2 hi⟩
  exact ⟨j, hmem.1 hj, fun k hk => hmax k (hmem.2 hk)⟩

/-- `subassign` leaves each listed position with the replacement of its last listing just
when the one that is written last has the same replacement. -/
theorem subassign_iff {u : List U} {vj : Nat} (rv : Vector T) (hin : ∀ p ∈ vi.v, p < rv.size)
    (hu : vj + vi.size ≤ u.length) :
    (∃ rv', subassign O convert (make sort vi) u vj rv = .ok (vj + vi.size) rv' ∧
      (∀ k p, vi.v[k]? = some p → (∀ i, k < i → vi.v[i]? ≠ some p) →
        rv'.v[p]? = (u[vj + k]?).map convert) ∧
      ∀ p, p ∉ vi.v → rv'.v[p]? = rv.v[p]?) ↔
    ∀ j k p, vi.v[j]? = some p → vi.v[k]? = some p → (∀ i, k < i → vi.v[i]? ≠ some p) →
      (∀ i, vi.v[i]? = some p → turn sort vi i ≤ turn sort vi j) →
      (u[vj + j]?).map convert = (u[vj + k]?).map convert := by
  obtain ⟨ws, hws, hok⟩ := subassign_eq_ok sort vi O convert rv hin hu
  have hus (k : Nat) : ((u.drop vj).map convert)[k]? = (u[vj + k]?).map convert := by
    rw [List.getElem?_map, List.getElem?_drop]
  constructor
  · rintro ⟨rv', hok', hlast, -⟩ j k p hj hk hk' hmax
    rw [hok] at hok'
    cases hok'
    have hp : p < rv.v.length := hin p (List.mem_of_getElem? hj)
    rw [← hus j, ← hws.getElem?_winner hj hp hmax]
    exact hlast k p hk hk'
  · intro hsame
    refine ⟨_, hok, ?_, fun p hp => hws.getElem?_of_not_mem hp⟩
    intro k p hk hk'
    have hmem := List.mem_of_getElem? hk
    obtain ⟨j, hj, hmax⟩ := exists_winner sort vi hmem
    rw [← hsame j k p hj hk hk' hmax, ← hus j]
    exact hws.getElem?_winner hj (hin p hmem) hmax

/-- Distinct positions out of order. -/
theorem subassign_iff_distinct :
    ∃ rv' : Vector Nat, subassign Vector.less id (make (fun vi => mergeStdSort (byValue vi))
        ⟨[1, 2, 0], false, 0, 0, none⟩) [7, 8, 9] 0 ⟨[4, 5, 6], true, 0, 0, none⟩ = .ok 3 rv' ∧
      rv'.v[0]? = some 9 := by
  obtain ⟨rv', hok, hlast, -⟩ := (@subassign_iff (fun vi => mergeStdSort (byValue vi))
    ⟨[1, 2, 0], false, 0, 0, none⟩ Nat Nat Vector.less id [7, 8, 9] 0
    ⟨[4, 5, 6], true, 0, 0, none⟩ (by decide) (by decide)).2 (by
      intro j k p hj hk _ _
      have hlt : j < 3 := (List.getElem?_eq_some_iff.1 hj).1
      have heq : j = k := (List.getElem?_inj hlt (by decide)).1 (hj.trans hk.symm)
      rw [heq])
  refine ⟨rv', hok, hlast 2 0 rfl ?_⟩
  intro i hi hin
  have hlt : i < 3 := (List.getElem?_eq_some_iff.1 hin).1
  omega

/-- The second place is listed twice, and the first of the two replacements stays. -/
theorem subassign_repeated :
    ¬∃ rv' : Vector Nat, subassign Vector.less id (make (fun vi => mergeStdSort (byValue vi))
        ⟨[1, 1, 0], false, 0, 0, none⟩) [7, 8, 9] 0 ⟨[4, 5, 6], true, 0, 0, none⟩ = .ok 3 rv' ∧
      rv'.v[1]? = some 8 := by
  have hidx : sort_idx (fun vi => mergeStdSort (byValue vi)) [1, 1, 0] = [2, 0, 1] := by
    simp [sort_idx, mergeStdSort, byValue, List.mergeSort, List.range, List.range.loop]
  have hmake : make (fun vi => mergeStdSort (byValue vi)) ⟨[1, 1, 0], false, 0, 0, none⟩ =
      ⟨⟨[1, 1, 0]⟩, [1, 0, 1], [1, 2, 0]⟩ := by
    rw [make_of_unordered _ _ rfl, hidx]
    rfl
  have hrun : subassign Vector.less id ⟨⟨[1, 1, 0]⟩, [1, 0, 1], [1, 2, 0]⟩ [7, 8, 9] 0
      (⟨[4, 5, 6], true, 0, 0, none⟩ : Vector Nat) = .ok 3 ⟨[9, 7, 6], false, 0, 0, none⟩ := rfl
  rintro ⟨rv', hok, hv⟩
  rw [hmake, hrun] at hok
  cases hok
  cases hv

end Write

end IntIndex_T

end Ztsdb.Arr
