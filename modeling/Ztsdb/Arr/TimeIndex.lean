import Mathlib
import Ztsdb.Arr.Interval
import Ztsdb.Arr.Index

/-!
# Indices of times

A vector of times or of intervals selects positions of an ascending vector of times. The
cursor takes what the index lists one by one, in whatever order, and searches the vector for
it. `trueSize` moves forward over both together, so that it leaves out what lies behind the
place it has come to. The two meet where what is found is in order.

`bsearch`, `lower_bound` and `upper_bound` are what they find in an ascending vector.
-/

namespace Ztsdb.Arr

open interval

variable {T : Type} [LinearOrder T]

def bsearch (key : T) (vd : List T) : Option Nat := vd.findIdx? (· = key)

def lower_bound (vi : List T) (t : T) : Nat := (vi.takeWhile (· < t)).length

def upper_bound (vi : List T) (t : T) : Nat := (vi.takeWhile (· ≤ t)).length

structure DtimeIndex (T : Type) where
  idx : List T
  vd : List T

namespace DtimeIndex

/-- The loop of `getfirst`, over what the index lists from place `i` on. -/
def search (vd : List T) (val : Nat) : Nat → List T → Bool × IdxPos
  | i, [] => (false, ⟨val, i⟩)
  | i, x :: idx =>
    match bsearch x vd with
    | some p => (true, ⟨p, i⟩)
    | none => search vd val (i + 1) idx

def getfirst (d : DtimeIndex T) (c : IdxPos) : Bool × IdxPos :=
  search d.vd c.val c.i (d.idx.drop c.i)

def getnext (d : DtimeIndex T) (c : IdxPos) : Bool × IdxPos := d.getfirst ⟨c.val, c.i + 1⟩

/-- The loop of `trueSize`. -/
def count : List T → List T → Nat
  | [], _ => 0
  | _ :: _, [] => 0
  | v :: vd, x :: idx =>
    if v < x then count vd (x :: idx)
    else if x < v then count (v :: vd) idx
    else count vd idx + 1
  termination_by vd idx => vd.length + idx.length

def trueSize (d : DtimeIndex T) : Nat := count d.vd d.idx

def size (d : DtimeIndex T) : Nat := d.idx.length

end DtimeIndex

structure IntervalIndex (T : Type) [LinearOrder T] where
  idx : List (interval T)
  vi : List T

namespace IntervalIndex

/-- Where the times of an interval start. -/
def bound (vi : List T) (i : interval T) : Nat :=
  if i.sopen then upper_bound vi i.s else lower_bound vi i.s

/-- The loop of `getfirst`, over the intervals from place `i` on. -/
def search (vi : List T) (val : Nat) : Nat → List (interval T) → Bool × IdxPos
  | i, [] => (false, ⟨val, i⟩)
  | i, x :: idx =>
    match vi[bound vi x]? with
    | none => search vi (bound vi x) (i + 1) idx
    | some t =>
      if timeGt t x then search vi (bound vi x) (i + 1) idx else (true, ⟨bound vi x, i⟩)

def getfirst (d : IntervalIndex T) (c : IdxPos) : Bool × IdxPos :=
  search d.vi c.val c.i (d.idx.drop c.i)

/-- The loop of `getnext`, over the times from position `val` on. -/
def next (d : IntervalIndex T) (x : interval T) (i : Nat) : Nat → List T → Bool × IdxPos
  | val, [] => (false, ⟨val, i⟩)
  | val, t :: vi =>
    if timeLt t x then next d x i (val + 1) vi
    else if timeGt t x then d.getfirst ⟨val, i + 1⟩
    else (true, ⟨val, i⟩)

def getnext (d : IntervalIndex T) (c : IdxPos) : Bool × IdxPos :=
  match d.idx[c.i]? with
  | none => (false, ⟨c.val + 1, c.i⟩)
  | some x => d.next x c.i (c.val + 1) (d.vi.drop (c.val + 1))

/-- The loop of `trueSize`. -/
def count : List T → List (interval T) → Nat
  | [], _ => 0
  | _ :: _, [] => 0
  | t :: vi, x :: idx =>
    if timeLt t x then count vi (x :: idx)
    else if timeGt t x then count (t :: vi) idx
    else count vi (x :: idx) + 1
  termination_by vi idx => vi.length + idx.length

def trueSize (d : IntervalIndex T) : Nat := count d.vi d.idx

def size (d : IntervalIndex T) : Nat := d.vi.length

end IntervalIndex

/-- The indices of times. -/
inductive TimeIndex (T : Type) [LinearOrder T] where
  | dtime (d : DtimeIndex T)
  | interval (d : IntervalIndex T)

instance : Indexing (TimeIndex T) where
  getfirst
    | .dtime d => d.getfirst
    | .interval d => d.getfirst
  getnext
    | .dtime d => d.getnext
    | .interval d => d.getnext
  trueSize
    | .dtime d => d.trueSize
    | .interval d => d.trueSize
  size
    | .dtime d => d.size
    | .interval d => d.size

/-- The length that a sub-assignment asks for. -/
def nelts {I : Type} [Indexing I] : List I → Nat
  | [] => 0
  | i :: is => is.foldl (fun n d => wrap (n * Indexing.trueSize d)) (Indexing.trueSize i)

/-- The check of a sub-assignment of `usize` elements. -/
def acceptsLength {I : Type} [Indexing I] (is : List I) (usize : Nat) : Bool :=
  decide (nelts is = usize)

namespace DtimeIndex

theorem search_nil {vd idx : List T} {val i : Nat} (h : idx.filterMap (bsearch · vd) = []) :
    (search vd val i idx).1 = false := by
  induction idx generalizing i with
  | nil => rfl
  | cons x idx ih =>
      rw [List.filterMap_cons] at h
      rw [search]
      cases hp : bsearch x vd with
      | none =>
          rw [hp] at h
          exact ih h
      | some p =>
          rw [hp] at h
          cases h

theorem search_cons {vd idx : List T} {val i p : Nat} {ps : List Nat}
    (h : idx.filterMap (bsearch · vd) = p :: ps) :
    ∃ k, search vd val i idx = (true, ⟨p, i + k⟩) ∧ ps = (idx.drop (k + 1)).filterMap (bsearch · vd) := by
  induction idx generalizing i with
  | nil => cases h
  | cons x idx ih =>
      rw [List.filterMap_cons] at h
      rw [search]
      cases hp : bsearch x vd with
      | none =>
          rw [hp] at h
          obtain ⟨k, hk, hps⟩ := @ih (i + 1) h
          refine ⟨k + 1, ?_, hps⟩
          show search vd val (i + 1) idx = _
          rw [hk, Nat.add_assoc, Nat.add_comm 1 k]
      | some q =>
          rw [hp] at h
          cases h
          exact ⟨0, rfl, rfl⟩

/-- The cursor finds one position for each time that is in the vector. -/
theorem exists_sweep (d : DtimeIndex T) (val : Nat) :
    ∃ fuel e, sweep (TimeIndex.dtime d) fuel ⟨val, 0⟩ = some (d.idx.filterMap (bsearch · d.vd), e) := by
  have hfirst : Indexing.getfirst (TimeIndex.dtime d) ⟨val, 0⟩ = search d.vd val 0 d.idx := rfl
  cases hl : d.idx.filterMap (bsearch · d.vd) with
  | nil =>
      refine ⟨0, (search d.vd val 0 d.idx).2, ?_⟩
      rw [sweep, hfirst, ← Prod.mk.eta (p := search d.vd val 0 d.idx), search_nil hl]
  | cons p ps =>
      obtain ⟨k, hk, hps⟩ := @search_cons _ _ _ _ val 0 _ _ hl
      obtain ⟨e, he⟩ := @exists_sweepFrom _ _ (TimeIndex.dtime d)
        (fun c l => l = (d.idx.drop (c.i + 1)).filterMap (bsearch · d.vd))
        (fun c h => search_nil h.symm)
        (fun c x l h => by
          obtain ⟨m, hm, hl⟩ := @search_cons _ _ _ _ c.val (c.i + 1) _ _ h.symm
          refine ⟨c.i + 1 + m, hm, ?_⟩
          show l = (d.idx.drop (c.i + 1 + m + 1)).filterMap (bsearch · d.vd)
          rw [hl, List.drop_drop]
          rfl)
        ⟨p, 0 + k⟩ ps (by rw [hps, Nat.zero_add])
      exact ⟨ps.length + 1, e, by
        rw [sweep, hfirst, hk]
        simp only [he, Option.map_some]⟩

/-- What is found in the vector lies behind everything listed before. -/
def InOrder (vd idx : List T) : Prop := idx.Pairwise fun x y => y ∈ vd → x < y

/-- Leaving the first time of the vector behind is right when it is not listed later. -/
theorem countP_mem_cons {v : T} {vd idx : List T} (h : v ∉ vd) :
    idx.countP (decide <| · ∈ v :: vd) = idx.countP (decide <| · ∈ vd) + idx.count v := by
  induction idx with
  | nil => rfl
  | cons x idx ih =>
      rw [List.countP_cons, List.countP_cons, List.count_cons, ih]
      by_cases hx : x = v
      · subst hx
        simp [h]
        omega
      · simp [hx]
        omega

theorem inOrder_congr {v : T} {vd idx : List T} (h : v ∉ idx) :
    InOrder (v :: vd) idx ↔ InOrder vd idx := by
  refine List.Pairwise.iff_of_mem fun {x y} _ hy => ?_
  have hne : y ≠ v := fun heq => h (heq ▸ hy)
  simp [hne]

theorem count_spec (vd idx : List T) (h : vd.Pairwise (· < ·)) :
    count vd idx ≤ idx.countP (decide <| · ∈ vd) ∧
      (count vd idx = idx.countP (decide <| · ∈ vd) ↔ InOrder vd idx) := by
  fun_induction count vd idx with
  | case1 idx =>
      refine ⟨Nat.zero_le _, iff_of_true (by simp) ?_⟩
      exact List.pairwise_of_forall fun _ _ h => absurd h List.not_mem_nil
  | case2 v vd => exact ⟨le_rfl, iff_of_true rfl .nil⟩
  | case3 v vd x idx hlt ih =>
      obtain ⟨hle, hiff⟩ := ih h.of_cons
      have hv : v ∉ vd := fun hm => lt_irrefl v ((List.pairwise_cons.1 h).1 v hm)
      rw [countP_mem_cons hv]
      by_cases hc : v ∈ x :: idx
      · -- it is listed later, and missed
        have hpos := List.count_pos_iff.2 hc
        refine ⟨by omega, iff_of_false (by omega) fun hord => ?_⟩
        rcases List.mem_cons.1 hc with heq | hmem
        · exact absurd hlt (heq ▸ lt_irrefl _)
        · exact absurd ((List.pairwise_cons.1 hord).1 v hmem List.mem_cons_self) (not_lt_of_gt hlt)
      · rw [List.count_eq_zero.2 hc, Nat.add_zero, inOrder_congr hc]
        exact ⟨hle, hiff⟩
  | case4 v vd x idx hlt hlt' ih =>
      obtain ⟨hle, hiff⟩ := ih h
      have hbehind : ∀ y ∈ v :: vd, x < y := by
        intro y hy
        rcases List.mem_cons.1 hy with rfl | hy
        · exact hlt'
        · exact hlt'.trans ((List.pairwise_cons.1 h).1 y hy)
      have hx : x ∉ v :: vd := fun hm => lt_irrefl x (hbehind x hm)
      rw [List.countP_cons_of_neg (by simpa using hx), InOrder, List.pairwise_cons]
      exact ⟨hle, hiff.trans (and_iff_right fun y _ hy => hbehind y hy).symm⟩
  | case5 v vd x idx hlt hlt' ih =>
      obtain ⟨hle, hiff⟩ := ih h.of_cons
      have hxv : x = v := le_antisymm (not_lt.1 hlt) (not_lt.1 hlt')
      subst hxv
      have hbehind := (List.pairwise_cons.1 h).1
      have hv : x ∉ vd := fun hm => lt_irrefl x (hbehind x hm)
      rw [countP_mem_cons hv, List.countP_cons_of_neg (by simpa using hv), List.count_cons_self]
      by_cases hc : x ∈ idx
      · have hpos := List.count_pos_iff.2 hc
        refine ⟨by omega, iff_of_false (by omega) fun hord => ?_⟩
        exact lt_irrefl x ((List.pairwise_cons.1 hord).1 x hc List.mem_cons_self)
      · rw [List.count_eq_zero.2 hc, InOrder, List.pairwise_cons]
        refine ⟨by omega, ?_⟩
        have hall : ∀ y ∈ idx, y ∈ x :: vd → x < y := by
          intro y hy hmem
          rcases List.mem_cons.1 hmem with rfl | hmem
          · exact absurd hy hc
          · exact hbehind y hmem
        rw [Nat.zero_add, Nat.add_right_cancel_iff, hiff, and_iff_right hall]
        exact (inOrder_congr hc).symm

theorem length_filterMap (vd idx : List T) :
    (idx.filterMap (bsearch · vd)).length = idx.countP (decide <| · ∈ vd) := by
  induction idx with
  | nil => rfl
  | cons x idx ih =>
      rw [List.filterMap_cons, List.countP_cons, ← ih]
      cases hp : bsearch x vd with
      | none =>
          have hall := List.findIdx?_eq_none_iff.1 hp
          have hx : x ∉ vd := fun hm => by simpa using hall x hm
          simp [hx]
      | some p =>
          have hx : x ∈ vd := by
            obtain ⟨hlt, hx, -⟩ := List.findIdx?_eq_some_iff_getElem.1 hp
            rw [← of_decide_eq_true hx]
            exact List.getElem_mem hlt
          simp [hx]

end DtimeIndex

namespace IntervalIndex

/-- The positions of the times of an interval, from position `k` on. -/
def places (x : interval T) : Nat → List T → List Nat
  | _, [] => []
  | k, t :: vi => if x.Has t then k :: places x (k + 1) vi else places x (k + 1) vi

/-- The interval has the last time of the vector. -/
def LastIn (vi : List T) (x : interval T) : Prop := ∃ t ∈ vi.getLast?, x.Has t

instance (vi : List T) (x : interval T) : Decidable (LastIn vi x) :=
  match h : vi.getLast? with
  | none => isFalse (by simp [LastIn, h])
  | some t => decidable_of_iff (x.Has t) (by simp [LastIn, h])

/-- The intervals that the cursor gets to: it stops at the end of the vector. -/
def reach (vi : List T) : List (interval T) → List (interval T)
  | [] => []
  | x :: idx => if LastIn vi x then [x] else x :: reach vi idx

/-- The positions that the cursor finds. -/
def found (vi : List T) (idx : List (interval T)) : List Nat :=
  (reach vi idx).flatMap fun x => places x 0 vi

theorem found_cons {vi : List T} {x : interval T} {idx : List (interval T)} :
    found vi (x :: idx) = places x 0 vi ++ if LastIn vi x then [] else found vi idx := by
  rw [found, reach]
  split
  · simp
  · rfl

theorem places_eq_nil {x : interval T} {k : Nat} {vi : List T} (h : ∀ t ∈ vi, ¬ x.Has t) :
    places x k vi = [] := by
  induction vi generalizing k with
  | nil => rfl
  | cons t vi ih =>
      rw [places, if_neg (h t List.mem_cons_self)]
      exact ih fun u hu => h u (List.mem_cons_of_mem t hu)

theorem places_append {x : interval T} {k : Nat} {l l' : List T} :
    places x k (l ++ l') = places x k l ++ places x (k + l.length) l' := by
  induction l generalizing k with
  | nil => rfl
  | cons t l ih =>
      rw [List.cons_append, places, places, ih, List.length_cons,
        show k + (l.length + 1) = k + 1 + l.length by omega]
      split <;> rfl

theorem length_places {x : interval T} {k : Nat} {vi : List T} :
    (places x k vi).length = vi.countP (decide <| x.Has ·) := by
  induction vi generalizing k with
  | nil => rfl
  | cons t vi ih =>
      rw [places, List.countP_cons]
      by_cases hx : x.Has t
      · simp [hx, ih]
      · simp [hx, ih]

theorem bound_eq (vi : List T) (x : interval T) :
    bound vi x = (vi.takeWhile fun t => timeLt t x).length := by
  have hle : (fun t => decide (t ≤ x.s)) = fun t => timeLt t { x with sopen := true } := by
    funext t
    grind [timeLt]
  have hlt : (fun t => decide (t < x.s)) = fun t => timeLt t { x with sopen := false } := by
    funext t
    grind [timeLt]
  rw [bound, upper_bound, lower_bound, hle, hlt]
  obtain ⟨s, e, so, eo, h⟩ := x
  cases so <;> rfl

theorem not_has_of_timeLt {x : interval T} {t : T} (h : timeLt t x = true) : ¬ x.Has t := by
  rw [has_iff, h]
  exact fun h => absurd h.1 (by decide)

/-- The search of one interval finds its first time, or nothing when it has none. -/
theorem bound_spec {vi : List T} (h : vi.Pairwise (· < ·)) (x : interval T) :
    (places x 0 vi = [] ∧ ∀ t ∈ vi[bound vi x]?, timeGt t x = true) ∨
      ∃ t, vi[bound vi x]? = some t ∧ timeGt t x = false ∧ x.Has t ∧
        places x 0 vi = bound vi x :: places x (bound vi x + 1) (vi.drop (bound vi x + 1)) := by
  have hb := bound_eq vi x
  have hsplit := List.takeWhile_append_dropWhile (p := fun t => timeLt t x) (l := vi)
  have hdrop : vi.drop (bound vi x) = vi.dropWhile fun t => timeLt t x := by
    have hleft := @List.drop_left _ (vi.takeWhile fun t => timeLt t x)
      (vi.dropWhile fun t => timeLt t x)
    rw [hsplit] at hleft
    rw [hb, hleft]
  have hpre : places x 0 (vi.takeWhile fun t => timeLt t x) = [] := by
    refine places_eq_nil fun t ht => not_has_of_timeLt ?_
    have hlt := List.mem_takeWhile_imp ht
    exact hlt
  have hpl : places x 0 vi = places x (bound vi x) (vi.drop (bound vi x)) := by
    rw [hdrop, hb]
    conv_lhs => rw [← hsplit]
    rw [places_append, hpre, Nat.zero_add]
    rfl
  cases hd : vi.drop (bound vi x) with
  | nil =>
      rw [hpl, hd]
      refine .inl ⟨rfl, fun t ht => ?_⟩
      rw [List.getElem?_eq_none (List.drop_eq_nil_iff.1 hd)] at ht
      cases ht
  | cons t rest =>
      have hget : vi[bound vi x]? = some t := by
        have h0 := congrArg (·[0]?) hd
        simpa using h0
      have hrest : rest = vi.drop (bound vi x + 1) := by
        rw [← List.drop_drop, hd]
        rfl
      have hnlt : timeLt t x = false := by
        have hne : vi.dropWhile (fun t => timeLt t x) ≠ [] := by
          rw [← hdrop, hd]
          exact List.cons_ne_nil _ _
        have hhead := List.head_dropWhile_not (fun t => timeLt t x) hne
        simpa [← hdrop, hd] using hhead
      have hasc : (t :: rest).Pairwise (· < ·) := hd ▸ h.sublist (List.drop_sublist _ _)
      cases hgt : timeGt t x with
      | true =>
          refine .inl ⟨?_, fun u hu => ?_⟩
          · rw [hpl, hd]
            refine places_eq_nil fun u hu => ?_
            rcases List.mem_cons.1 hu with rfl | hu
            · exact not_has_of_gt hgt le_rfl
            · exact not_has_of_gt hgt (le_of_lt ((List.pairwise_cons.1 hasc).1 u hu))
          · rw [hget] at hu
            cases hu
            exact hgt
      | false =>
          have hhas : x.Has t := has_iff.2 ⟨hnlt, hgt⟩
          refine .inr ⟨t, hget, hgt, hhas, ?_⟩
          rw [hpl, hd, places, if_pos hhas, ← hrest]

theorem not_lastIn_of_nil {vi : List T} {x : interval T} (h : places x 0 vi = []) :
    ¬ LastIn vi x := by
  rintro ⟨t, ht, hhas⟩
  have hmem : t ∈ vi := List.mem_of_getLast? ht
  have hcount : vi.countP (decide <| x.Has ·) = 0 := by
    rw [← length_places (k := 0), h]
    rfl
  exact absurd hhas (by simpa using List.countP_eq_zero.1 hcount t hmem)

/-- What `search` and `next` find, when `l` is what there is to find. -/
def Finds (vi : List T) (idx : List (interval T)) (i : Nat) (r : Bool × IdxPos) (l : List Nat) : Prop :=
  match l with
  | [] => r.1 = false
  | p :: ps => ∃ k x t, r = (true, ⟨p, i + k⟩) ∧ idx[k]? = some x ∧ vi[p]? = some t ∧ x.Has t ∧
      ps = places x (p + 1) (vi.drop (p + 1)) ++ if LastIn vi x then [] else found vi (idx.drop (k + 1))

theorem search_finds {vi : List T} (h : vi.Pairwise (· < ·)) (val i : Nat) (idx : List (interval T)) :
    Finds vi idx i (search vi val i idx) (found vi idx) := by
  induction idx generalizing val i with
  | nil => rfl
  | cons x idx ih =>
      rw [found_cons]
      rcases bound_spec h x with ⟨hnil, hgt⟩ | ⟨t, hget, hgt, hhas, hpl⟩
      · have hskip : search vi val i (x :: idx) = search vi (bound vi x) (i + 1) idx := by
          rw [search]
          cases hb : vi[bound vi x]? with
          | none => rfl
          | some t => exact if_pos (hgt t hb)
        rw [hskip, hnil, if_neg (not_lastIn_of_nil hnil), List.nil_append]
        have hrec := ih (bound vi x) (i + 1)
        cases hf : found vi idx with
        | nil =>
            rw [hf] at hrec
            exact hrec
        | cons p ps =>
            rw [hf] at hrec
            obtain ⟨k, y, t, hr, hy, hp, hhas, hps⟩ := hrec
            exact ⟨k + 1, y, t, by rw [hr, Nat.add_assoc, Nat.add_comm 1 k], hy, hp, hhas, hps⟩
      · have hfirst : search vi val i (x :: idx) = (true, ⟨bound vi x, i⟩) := by
          rw [search, hget]
          simp [hgt]
        rw [hfirst, hpl]
        exact ⟨0, x, t, rfl, rfl, hget, hhas, rfl⟩

/-- The positions after the cursor. -/
def Follows (d : IntervalIndex T) (c : IdxPos) (l : List Nat) : Prop :=
  ∃ x t, d.idx[c.i]? = some x ∧ d.vi[c.val]? = some t ∧ x.Has t ∧
    l = places x (c.val + 1) (d.vi.drop (c.val + 1)) ++
      if LastIn d.vi x then [] else found d.vi (d.idx.drop (c.i + 1))

theorem lastIn_iff_drop {vi : List T} {x : interval T} {k : Nat} (h : vi.drop k ≠ []) :
    LastIn vi x ↔ LastIn (vi.drop k) x := by
  rw [LastIn, LastIn, List.getLast?_drop, if_neg]
  exact fun hle => h (List.drop_eq_nil_iff.2 hle)

/-- A step of the cursor goes to the first of the positions that are left. -/
def Moves (d : IntervalIndex T) (r : Bool × IdxPos) : List Nat → Prop
  | [] => r.1 = false
  | p :: ps => ∃ i, r = (true, ⟨p, i⟩) ∧ d.Follows ⟨p, i⟩ ps

theorem moves_of_finds {d : IntervalIndex T} {i : Nat} {r : Bool × IdxPos} {l : List Nat}
    (h : Finds d.vi (d.idx.drop i) i r l) : d.Moves r l := by
  cases l with
  | nil => exact h
  | cons p ps =>
      obtain ⟨k, x, t, hr, hx, ht, hhas, hps⟩ := h
      rw [List.getElem?_drop] at hx
      rw [List.drop_drop] at hps
      exact ⟨i + k, hr, x, t, hx, ht, hhas, hps⟩

theorem getnext_moves {d : IntervalIndex T} (h : d.vi.Pairwise (· < ·)) {c : IdxPos} {l : List Nat}
    (hf : d.Follows c l) : d.Moves (d.getnext c) l := by
  obtain ⟨x, t, hx, ht, hhas, rfl⟩ := hf
  have hnext : d.getnext c = d.next x c.i (c.val + 1) (d.vi.drop (c.val + 1)) := by
    rw [getnext, hx]
  rw [hnext]
  have hdrop : d.vi.drop c.val = t :: d.vi.drop (c.val + 1) := by
    obtain ⟨hlt, rfl⟩ := List.getElem?_eq_some_iff.1 ht
    exact List.drop_eq_getElem_cons hlt
  have hasc : (t :: d.vi.drop (c.val + 1)).Pairwise (· < ·) := hdrop ▸ h.sublist (List.drop_sublist _ _)
  cases hd : d.vi.drop (c.val + 1) with
  | nil =>
      -- the end of the vector ends the sweep
      have hlast : LastIn d.vi x := by
        rw [@lastIn_iff_drop _ _ _ _ c.val (by rw [hdrop]; exact List.cons_ne_nil _ _), hdrop, hd]
        exact ⟨t, rfl, hhas⟩
      rw [if_pos hlast]
      exact rfl
  | cons u rest =>
      rw [hd] at hasc
      have htu : t < u := (List.pairwise_cons.1 hasc).1 u List.mem_cons_self
      have hulast : ∀ w ∈ u :: rest, u ≤ w := by
        intro w hw
        rcases List.mem_cons.1 hw with rfl | hw
        · exact le_rfl
        · exact le_of_lt ((List.pairwise_cons.1 hasc.of_cons).1 w hw)
      have hult : timeLt u x = false := by
        have h1 := (has_iff.1 hhas).1
        grind [timeLt]
      have hget : d.vi[c.val + 1]? = some u := by
        have h0 := congrArg (·[0]?) hd
        simpa using h0
      rw [next, hult]
      cases hgt : timeGt u x with
      | true =>
          have hnone : ∀ w ∈ u :: rest, ¬ x.Has w := fun w hw => not_has_of_gt hgt (hulast w hw)
          have hlast : ¬ LastIn d.vi x := by
            rw [@lastIn_iff_drop _ _ _ _ (c.val + 1) (by rw [hd]; exact List.cons_ne_nil _ _), hd]
            rintro ⟨w, hw, hhas'⟩
            exact hnone w (List.mem_of_getLast? hw) hhas'
          rw [places_eq_nil hnone, if_neg hlast]
          exact moves_of_finds (search_finds h _ _ _)
      | false =>
          have hu : x.Has u := has_iff.2 ⟨hult, hgt⟩
          have hrest : rest = d.vi.drop (c.val + 1 + 1) := by
            rw [← List.drop_drop, hd]
            rfl
          rw [places, if_pos hu, hrest]
          exact ⟨c.i, rfl, x, u, hx, hget, hu, rfl⟩

/-- The cursor finds the times of each interval it gets to. -/
theorem exists_sweep (d : IntervalIndex T) (h : d.vi.Pairwise (· < ·)) (val : Nat) :
    ∃ fuel e, sweep (TimeIndex.interval d) fuel ⟨val, 0⟩ = some (found d.vi d.idx, e) := by
  have hfirst : Indexing.getfirst (TimeIndex.interval d) ⟨val, 0⟩ = search d.vi val 0 d.idx := rfl
  have hmove : d.Moves (search d.vi val 0 d.idx) (found d.vi d.idx) :=
    moves_of_finds (search_finds h val 0 (d.idx.drop 0))
  cases hl : found d.vi d.idx with
  | nil =>
      rw [hl] at hmove
      refine ⟨0, (search d.vi val 0 d.idx).2, ?_⟩
      rw [sweep, hfirst, ← Prod.mk.eta (p := search d.vi val 0 d.idx), hmove]
  | cons p ps =>
      rw [hl] at hmove
      obtain ⟨i, hr, hf⟩ := hmove
      obtain ⟨e, he⟩ := @exists_sweepFrom _ _ (TimeIndex.interval d) d.Follows
        (fun c hc => getnext_moves h hc) (fun c x l hc => getnext_moves h hc) _ _ hf
      exact ⟨ps.length + 1, e, by
        rw [sweep, hfirst, hr]
        simp only [he, Option.map_some]⟩

/-- The times of an interval are behind all intervals before it. -/
def Clear (vi : List T) (idx : List (interval T)) : Prop :=
  idx.Pairwise fun x y => ∀ t ∈ vi, y.Has t → timeLt t x = false ∧ timeGt t x = true

/-- What the cursor gets to lies in order. -/
def InOrder (vi : List T) (idx : List (interval T)) : Prop := Clear vi (reach vi idx)

/-- How many of the times are in the intervals, counted for each. -/
def total (vi : List T) (idx : List (interval T)) : Nat :=
  (idx.map fun x => vi.countP (decide <| x.Has ·)).sum

theorem length_found (vi : List T) (idx : List (interval T)) :
    (found vi idx).length = total vi (reach vi idx) := by
  rw [found, List.length_flatMap, total]
  congr 1
  exact List.map_congr_left fun x _ => length_places

theorem total_cons_time (t : T) (vi : List T) (idx : List (interval T)) :
    total (t :: vi) idx = total vi idx + idx.countP (decide <| ·.Has t) := by
  induction idx with
  | nil => rfl
  | cons x idx ih =>
      simp only [total, List.map_cons, List.sum_cons, List.countP_cons] at ih ⊢
      omega

theorem reach_cons_time {t u : T} {vi : List T} (idx : List (interval T)) :
    reach (t :: u :: vi) idx = reach (u :: vi) idx := by
  induction idx with
  | nil => rfl
  | cons x idx ih =>
      have hlast : LastIn (t :: u :: vi) x ↔ LastIn (u :: vi) x := by
        rw [LastIn, LastIn, List.getLast?_cons_cons]
      simp only [reach, hlast, ih]

theorem reach_head (vi : List T) (x : interval T) (idx : List (interval T)) :
    ∃ R, reach vi (x :: idx) = x :: R := by
  rw [reach]
  split
  · exact ⟨[], rfl⟩
  · exact ⟨_, rfl⟩

theorem clear_cons_time {t : T} {vi : List T} {x : interval T} {R : List (interval T)}
    (h : ∀ y ∈ R, ¬ y.Has t) : Clear (t :: vi) (x :: R) ↔ Clear vi (x :: R) := by
  rw [Clear, Clear, List.pairwise_cons, List.pairwise_cons]
  refine and_congr (forall₂_congr fun y hy => ?_) (List.Pairwise.iff_of_mem fun {a y} _ hy => ?_)
  · simp [h y hy]
  · simp [h y hy]

/-- The merge has come past the first time: it misses the time in all intervals but the
first one. -/
theorem clear_step {n m : Nat} {t : T} {vi : List T} {x : interval T} {R : List (interval T)}
    (h : n ≤ total vi (x :: R) ∧ (n = total vi (x :: R) ↔ Clear vi (x :: R)))
    (hm : m = if x.Has t then 1 else 0) (hx : timeLt t x = true ∨ timeGt t x = false) :
    n + m ≤ total (t :: vi) (x :: R) ∧ (n + m = total (t :: vi) (x :: R) ↔ Clear (t :: vi) (x :: R)) := by
  obtain ⟨hle, hiff⟩ := h
  have hcount : (x :: R).countP (decide <| ·.Has t) = R.countP (decide <| ·.Has t) + m := by
    rw [List.countP_cons, hm]
    by_cases hhas : x.Has t <;> simp [hhas]
  rw [total_cons_time, hcount]
  by_cases hnone : ∀ y ∈ R, ¬ y.Has t
  · have hzero : R.countP (decide <| ·.Has t) = 0 :=
      List.countP_eq_zero.2 fun y hy => by simpa using hnone y hy
    rw [hzero, Nat.zero_add, clear_cons_time hnone, ← hiff]
    omega
  · simp only [not_forall, not_not, exists_prop] at hnone
    obtain ⟨y, hy, hhas⟩ := hnone
    have hpos : 0 < R.countP (decide <| ·.Has t) :=
      List.countP_pos_iff.2 ⟨y, hy, by simpa using hhas⟩
    refine ⟨by omega, iff_of_false (by omega) fun hclear => ?_⟩
    obtain ⟨h1, h2⟩ := (List.pairwise_cons.1 hclear).1 y hy t List.mem_cons_self hhas
    rcases hx with hx | hx
    · exact absurd (h1.symm.trans hx) (by decide)
    · exact absurd (h2.symm.trans hx) (by decide)

/-- What is known of the later times, whether there are any or not. -/
theorem count_later {t : T} {vi : List T} {x : interval T} {idx : List (interval T)}
    (h : count vi (x :: idx) ≤ total vi (reach vi (x :: idx)) ∧
      (count vi (x :: idx) = total vi (reach vi (x :: idx)) ↔ InOrder vi (x :: idx))) :
    count vi (x :: idx) ≤ total vi (reach (t :: vi) (x :: idx)) ∧
      (count vi (x :: idx) = total vi (reach (t :: vi) (x :: idx)) ↔
        Clear vi (reach (t :: vi) (x :: idx))) := by
  cases vi with
  | nil =>
      have hzero (l : List (interval T)) : total [] l = 0 := by
        simp [total]
      rw [hzero, count]
      exact ⟨le_rfl, iff_of_true rfl (List.pairwise_of_forall fun _ _ => nofun)⟩
  | cons u vi =>
      rw [reach_cons_time]
      exact h

theorem count_spec (vi : List T) (idx : List (interval T)) (h : vi.Pairwise (· < ·)) :
    count vi idx ≤ total vi (reach vi idx) ∧
      (count vi idx = total vi (reach vi idx) ↔ InOrder vi idx) := by
  fun_induction count vi idx with
  | case1 idx =>
      have hzero : total ([] : List T) (reach [] idx) = 0 := by
        simp [total]
      rw [hzero]
      exact ⟨le_rfl, iff_of_true rfl (List.pairwise_of_forall fun _ _ => nofun)⟩
  | case2 t vi => exact ⟨le_rfl, iff_of_true rfl .nil⟩
  | case3 t vi x idx hlt ih =>
      have hlater := @count_later _ _ t _ _ _ (ih h.of_cons)
      obtain ⟨R, hR⟩ := reach_head (t :: vi) x idx
      rw [hR] at hlater
      rw [InOrder, hR]
      exact clear_step hlater (by rw [if_neg (not_has_of_timeLt hlt)]) (.inl hlt)
  | case4 t vi x idx hlt hgt ih =>
      obtain ⟨hle, hiff⟩ := ih h
      have hge : ∀ w ∈ t :: vi, t ≤ w := by
        intro w hw
        rcases List.mem_cons.1 hw with rfl | hw
        · exact le_rfl
        · exact le_of_lt ((List.pairwise_cons.1 h).1 w hw)
      have hnone : ∀ w ∈ t :: vi, ¬ x.Has w := fun w hw => not_has_of_gt hgt (hge w hw)
      have hlast : ¬ LastIn (t :: vi) x := fun ⟨w, hw, hhas⟩ =>
        hnone w (List.mem_of_getLast? hw) hhas
      have hzero : (t :: vi).countP (decide <| x.Has ·) = 0 :=
        List.countP_eq_zero.2 fun w hw => by simpa using hnone w hw
      have htotal : total (t :: vi) (x :: reach (t :: vi) idx) =
          total (t :: vi) (reach (t :: vi) idx) := by
        rw [total, List.map_cons, List.sum_cons, hzero, Nat.zero_add]
        rfl
      rw [InOrder, reach, if_neg hlast, htotal, Clear, List.pairwise_cons]
      refine ⟨hle, hiff.trans (and_iff_right fun y _ w hw _ => ?_).symm⟩
      have hw' := hge w hw
      exact ⟨by grind [timeLt], by grind [timeGt]⟩
  | case5 t vi x idx hlt hgt ih =>
      rw [Bool.not_eq_true] at hlt hgt
      have hlater := @count_later _ _ t _ _ _ (ih h.of_cons)
      obtain ⟨R, hR⟩ := reach_head (t :: vi) x idx
      rw [hR] at hlater
      rw [InOrder, hR]
      exact clear_step hlater (by rw [if_pos (has_iff.2 ⟨hlt, hgt⟩)]) (.inr hgt)

end IntervalIndex

/-- The vector that the index selects from. -/
def TimeIndex.times : TimeIndex T → List T
  | .dtime d => d.vd
  | .interval d => d.vi

/-- What the index lists is in order, as far as the cursor gets to it. -/
def TimeIndex.InOrder : TimeIndex T → Prop
  | .dtime d => DtimeIndex.InOrder d.vd d.idx
  | .interval d => IntervalIndex.InOrder d.vi d.idx

/-- `trueSize` is the number of positions that the cursor finds exactly when what it gets to
is in order. -/
theorem TimeIndex.trueSize_iff (d : TimeIndex T) (h : d.times.Pairwise (· < ·)) (val : Nat) :
    (∃ fuel l e, sweep d fuel ⟨val, 0⟩ = some (l, e) ∧ Indexing.trueSize d = l.length ∧
      ∀ n, acceptsLength [d] n = true ↔ n = l.length) ↔ d.InOrder := by
  have hspec : ∃ fuel l e, sweep d fuel ⟨val, 0⟩ = some (l, e) ∧
      (Indexing.trueSize d = l.length ↔ d.InOrder) := by
    cases d with
    | dtime d =>
        obtain ⟨fuel, e, hrun⟩ := d.exists_sweep val
        refine ⟨fuel, _, e, hrun, ?_⟩
        rw [DtimeIndex.length_filterMap]
        exact (DtimeIndex.count_spec d.vd d.idx h).2
    | interval d =>
        obtain ⟨fuel, e, hrun⟩ := d.exists_sweep h val
        refine ⟨fuel, _, e, hrun, ?_⟩
        rw [IntervalIndex.length_found]
        exact (IntervalIndex.count_spec d.vi d.idx h).2
  obtain ⟨fuel, l, e, hrun, hiff⟩ := hspec
  constructor
  · rintro ⟨fuel', l', e', hrun', hsize, -⟩
    cases sweep_unique hrun hrun'
    exact hiff.1 hsize
  · intro hord
    have hsize := hiff.2 hord
    refine ⟨fuel, l, e, hrun, hsize, fun n => ?_⟩
    rw [acceptsLength, nelts, List.foldl_nil, hsize, decide_eq_true_eq]
    exact eq_comm

/-- Times in order. -/
theorem TimeIndex.trueSize_iff_two :
    ∃ fuel l e, sweep (TimeIndex.dtime ⟨[2, 5], [1, 2, 5]⟩ : TimeIndex Nat) fuel ⟨0, 0⟩ = some (l, e) ∧
      Indexing.trueSize (TimeIndex.dtime ⟨[2, 5], [1, 2, 5]⟩ : TimeIndex Nat) = l.length ∧
      ∀ n, acceptsLength [(TimeIndex.dtime ⟨[2, 5], [1, 2, 5]⟩ : TimeIndex Nat)] n = true ↔
        n = l.length :=
  (TimeIndex.trueSize_iff (.dtime ⟨[2, 5], [1, 2, 5]⟩ : TimeIndex Nat) (by decide) 0).2 (by
    show List.Pairwise _ _
    decide)

/-- The time 5 listed before the time 2: both are found, and one is counted. -/
theorem TimeIndex.not_trueSize : ¬ ∃ fuel l e,
    sweep (TimeIndex.dtime ⟨[5, 2], [1, 2, 5]⟩ : TimeIndex Nat) fuel ⟨0, 0⟩ = some (l, e) ∧
      Indexing.trueSize (TimeIndex.dtime ⟨[5, 2], [1, 2, 5]⟩ : TimeIndex Nat) = l.length ∧
      ∀ n, acceptsLength [(TimeIndex.dtime ⟨[5, 2], [1, 2, 5]⟩ : TimeIndex Nat)] n = true ↔
        n = l.length := by
  rintro ⟨fuel, l, e, hrun, hsize, -⟩
  obtain ⟨fuel', e', hrun'⟩ := DtimeIndex.exists_sweep (⟨[5, 2], [1, 2, 5]⟩ : DtimeIndex Nat) 0
  cases sweep_unique hrun hrun'
  rw [DtimeIndex.length_filterMap] at hsize
  simp [Indexing.trueSize, DtimeIndex.trueSize, DtimeIndex.count] at hsize

end Ztsdb.Arr
