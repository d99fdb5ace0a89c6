import Mathlib
import Ztsdb.Tz.Zone

/-!
# The two lookups of an offset

The plain lookup and the one that remembers a position both find the offset of the last
transition at or before a time, except where they take a boundary for the other side: the
plain one compares the truncated seconds, which before 1970 are ahead of the time, and
leaves out the first transition's own second; the other one compares strictly and stays in
front of a transition at its very instant.
-/

namespace Ztsdb.Tz

namespace Zone

variable {z : Zone} {dt pos dir : Int}

/-! ## The last transition -/

/-- The transition at `i` has passed at a time and the later ones have not. -/
structure IsLast (z : Zone) (dt : Int) (i : Nat) : Prop where
  lt : i < z.timecnt
  passed : z.ats i * den ≤ dt
  later : ∀ j, i < j → j < z.timecnt → dt < z.ats j * den

theorem IsLast.lastAt {i : Nat} (h : z.IsLast dt i) : z.lastAt dt = some i := by
  obtain ⟨rest, hcnt⟩ := Nat.exists_eq_add_of_lt h.lt
  have hrange : List.range z.timecnt = List.range i ++ i :: List.range' (i + 1) rest := by
    have happ := @List.range'_append_1 0 i (rest + 1)
    rw [Nat.zero_add, List.range'_succ, ← List.range_eq_range'] at happ
    rw [happ, ← List.range_eq_range', hcnt, Nat.add_assoc]
  have hrest : (List.range' (i + 1) rest).filter
      (fun j => decide (z.ats j * den ≤ dt)) = [] := by
    rw [List.filter_eq_nil_iff]
    intro j hj
    rw [List.mem_range'_1] at hj
    have := h.later j (by omega) (by omega)
    simpa using this
  rw [Zone.lastAt, hrange, List.filter_append, List.filter_cons_of_pos (by simpa using h.passed),
    hrest, List.getLast?_append, List.getLast?_singleton]
  rfl

theorem lastAt_eq_none (h : ∀ i < z.timecnt, dt < z.ats i * den) : z.lastAt dt = none := by
  rw [lastAt, List.getLast?_eq_none_iff, List.filter_eq_nil_iff]
  intro i hi
  have := h i (List.mem_range.mp hi)
  simpa using this

/-- The seconds of a time, truncated: at most a second ahead, and never behind by one. -/
theorem tdiv_bounds (dt : Int) : (dt.tdiv den - 1) * den < dt ∧ dt < (dt.tdiv den + 1) * den := by
  have hmod := Int.tmod_add_mul_tdiv dt den
  have hlt := Int.tmod_lt_of_pos dt (b := den) (by decide)
  have hgt := Int.lt_tmod_of_pos dt (b := den) (by decide)
  rw [den] at *
  constructor <;> omega

/-- The truncated seconds of a time are not those of a transition on its other side; the
first transition counts as passed from the next second on. -/
def Truncates (z : Zone) (dt : Int) : Prop :=
  ∀ i < z.timecnt, z.ats i = dt.tdiv den →
    if i = 0 then dt < z.ats i * den else z.ats i * den ≤ dt

instance : Decidable (z.Truncates dt) := inferInstanceAs (Decidable (∀ i < z.timecnt, _))

/-- What the plain lookup finds, as a position. -/
theorem getoffsetPos_eq (h : z.Ascending) (ht : z.Truncates dt) :
    (∃ m, z.getoffsetPos dt = some (z.gmtoff (z.types m), (m : Int)) ∧ z.IsLast dt m) ∨
    z.getoffsetPos dt = some (z.gmtoff z.defaulttype, -1) ∧ z.lastAt dt = none := by
  obtain ⟨hlo, hhi⟩ := tdiv_bounds dt
  rw [getoffsetPos]
  rw [den] at *
  split
  · next hbranch =>
      obtain ⟨m, hbs, hm, hle, hlater⟩ := bs_eq h hbranch.1 hbranch.2
      left
      refine ⟨m, by rw [hbs]; rfl, hm, ?_, ?_⟩
      · rw [den]
        rcases Int.lt_or_eq_of_le hle with hlt | heq
        · omega
        · have hside := ht m hm heq
          rw [den] at hside
          split at hside
          · next hzero =>
              rw [hzero] at heq
              omega
          · exact hside
      · intro j hj hn
        have := hlater j hj hn
        rw [den]
        omega
  · next hbranch =>
      right
      refine ⟨rfl, lastAt_eq_none fun i hi => ?_⟩
      have hfirst : dt.tdiv 1000000000 ≤ z.ats 0 := by
        by_contra hlt
        exact hbranch ⟨by omega, by omega⟩
      have h0i := ats_le h (Nat.zero_le i) hi
      rw [den]
      rcases Int.lt_or_eq_of_le hfirst with hlt | heq
      · omega
      · have hside := ht 0 (by omega) (by rw [den]; exact heq.symm)
        rw [if_pos rfl, den] at hside
        omega

/-- The two forms of the plain lookup find the same offset. -/
theorem getoffset_eq (dt : Int) :
    (z.getoffset dt).map Prod.fst = (z.getoffsetPos dt).map Prod.fst := by
  rw [getoffset, getoffsetPos]
  split
  · rw [Option.map_map, Option.map_map]
    rfl
  · rfl

/-! ## Walking -/

theorem advance_spec (pos : Nat) (hpos : pos < z.timecnt) :
    pos ≤ z.advance dt pos ∧ z.advance dt pos < z.timecnt ∧
      (pos < z.advance dt pos → nsOf (z.ats (z.advance dt pos)) < dt) ∧
      (z.advance dt pos + 1 < z.timecnt → dt ≤ nsOf (z.ats (z.advance dt pos + 1))) := by
  fun_induction advance z dt pos with
  | case1 pos hgo ih =>
      obtain ⟨hle, hlt, hin, hnext⟩ := ih hgo.1
      refine ⟨by omega, hlt, fun _ => ?_, hnext⟩
      rcases Nat.lt_or_eq_of_le hle with hmore | heq
      · exact hin hmore
      · rw [← heq]
        exact hgo.2
  | case2 pos hstop =>
      refine ⟨le_rfl, hpos, fun h => absurd h (Nat.lt_irrefl _), fun hnext => ?_⟩
      by_contra hlt
      exact hstop ⟨hnext, by omega⟩

theorem retreat_spec (pos : Nat) :
    z.retreat dt pos ≤ pos ∧
      (z.retreat dt pos ≠ 0 → nsOf (z.ats (z.retreat dt pos)) ≤ dt) ∧
      (z.retreat dt pos < pos → dt < nsOf (z.ats (z.retreat dt pos + 1))) := by
  induction pos with
  | zero => exact ⟨le_rfl, fun h => absurd rfl h, fun h => absurd h (Nat.lt_irrefl _)⟩
  | succ pos ih =>
      rw [retreat]
      split
      · next hback =>
          obtain ⟨hle, hat, hnext⟩ := ih
          refine ⟨by omega, hat, fun _ => ?_⟩
          rcases Nat.lt_or_eq_of_le hle with hlt | heq
          · exact hnext hlt
          · rw [heq]
            exact hback
      · next hstop =>
          exact ⟨le_rfl, fun _ => by omega, fun h => absurd h (Nat.lt_irrefl _)⟩

/-! ## Walks -/

/-- The order in which a direction visits two times. -/
def Towards (dir t t' : Int) : Prop := if 0 ≤ dir then t ≤ t' else t' ≤ t

instance (dir t t' : Int) : Decidable (Towards dir t t') := by
  unfold Towards
  infer_instance

/-- The last time visited and the position after it, of visits in one direction that each
meet a condition on the time and the position before. -/
inductive Walk (z : Zone) (dir : Int) (C : Int → Int → Prop) : Option Int → Int → Prop
  | start : Walk z dir C none (-1)
  | visit {last : Option Int} {dt pos pos' off : Int} : Walk z dir C last pos →
      (∀ t ∈ last, Towards dir t dt) → C dt pos →
      z.getoffsetDir dt pos dir = some (off, pos') → Walk z dir C (some dt) pos'

/-- Both lookups find the offset of the last transition at or before the time. -/
def Agrees (z : Zone) (dt pos dir : Int) : Prop :=
  (z.getoffsetDir dt pos dir).map Prod.fst = some (z.gmtoff (z.typeAt (z.lastAt dt))) ∧
    (z.getoffset dt).map Prod.fst = some (z.gmtoff (z.typeAt (z.lastAt dt)))

instance : Decidable (z.Agrees dt pos dir) := inferInstanceAs (Decidable (_ ∧ _))

/-- The time's seconds are on its side of every transition, and from a position remembered
the time is not the very instant of a transition, unless the walk goes forwards and is there
already; the transitions can be counted in nanoseconds. -/
def Clear (z : Zone) (dir dt pos : Int) : Prop :=
  z.Truncates dt ∧ (0 ≤ pos → (∀ i < z.timecnt, nsOf (z.ats i) = z.ats i * den) ∧
    ∀ i < z.timecnt, z.ats i * den = dt → 0 ≤ dir ∧ i ≤ pos.toNat)

instance : Decidable (z.Clear dir dt pos) := inferInstanceAs (Decidable (_ ∧ (_ → _ ∧ _)))

/-- What is known of the position remembered: forwards its transition has passed, backwards
the later ones have not. -/
def Placed (z : Zone) (dir : Int) (last : Option Int) (pos : Int) : Prop :=
  pos = -1 ∨ ∃ i t, pos = Int.ofNat i ∧ i < z.timecnt ∧ last = some t ∧
    if 0 ≤ dir then z.ats i * den ≤ t
    else ∀ j, i < j → j < z.timecnt → t < z.ats j * den

/-- A visit finds the offset of the last transition, and leaves a position as it should be. -/
theorem getoffsetDir_eq (h : z.Ascending) {last : Option Int} (hplaced : Placed z dir last pos)
    (hdir : ∀ t ∈ last, Towards dir t dt) (hclear : z.Clear dir dt pos) :
    ∃ pos', z.getoffsetDir dt pos dir = some (z.gmtoff (z.typeAt (z.lastAt dt)), pos') ∧
      Placed z dir (some dt) pos' := by
  obtain ⟨htrunc, hinstant⟩ := hclear
  rcases hplaced with rfl | ⟨i, t, rfl, hi, rfl, hside⟩
  · rcases getoffsetPos_eq h htrunc with ⟨m, hget, hlast⟩ | ⟨hget, hlast⟩
    · refine ⟨m, by rw [hlast.lastAt]; exact hget, Or.inr ⟨m, dt, rfl, hlast.lt, rfl, ?_⟩⟩
      split
      · exact hlast.passed
      · exact hlast.later
    · exact ⟨-1, by rw [hlast]; exact hget, Or.inl rfl⟩
  · obtain ⟨hns, hexact⟩ := hinstant (Int.natCast_nonneg i)
    have htowards := hdir t rfl
    rw [Towards] at htowards
    rw [getoffsetDir]
    by_cases hforth : 0 ≤ dir
    · rw [if_pos hforth] at hside htowards ⊢
      obtain ⟨hle, hlt, hin, hnext⟩ := @advance_spec z dt i hi
      generalize z.advance dt i = m at hle hlt hin hnext ⊢
      have hlast : z.IsLast dt m := by
        refine ⟨hlt, ?_, fun j hj hn => ?_⟩
        · rcases Nat.lt_or_eq_of_le hle with hmore | heq
          · rw [← hns m hlt]
            exact (hin hmore).le
          · rw [← heq]
            omega
        · have hstop := hnext (by omega)
          rw [hns _ (by omega)] at hstop
          -- not at the instant of the next one, which is not remembered yet
          have hne : z.ats (m + 1) * den ≠ dt := fun heq => by
            have := (hexact (m + 1) (by omega) heq).2
            rw [Int.ofNat_eq_natCast, Int.toNat_natCast] at this
            omega
          have hmono := ats_le h (show m + 1 ≤ j by omega) hn
          rw [den] at *
          omega
      refine ⟨m, by rw [hlast.lastAt]; rfl, Or.inr ⟨m, dt, rfl, hlt, rfl, ?_⟩⟩
      rw [if_pos hforth]
      exact hlast.passed
    · rw [if_neg hforth] at hside htowards ⊢
      obtain ⟨hle, hat, hnext⟩ := @retreat_spec z dt i
      generalize z.retreat dt i = m at hle hat hnext ⊢
      have hm : m < z.timecnt := by omega
      have hlater : ∀ j, m < j → j < z.timecnt → dt < z.ats j * den := by
        intro j hj hn
        rcases Nat.lt_or_eq_of_le hle with hmore | heq
        · have hback := hnext hmore
          rw [hns _ (by omega)] at hback
          have hmono := ats_le h (show m + 1 ≤ j by omega) hn
          rw [den] at *
          omega
        · have := hside j (by omega) hn
          omega
      have hne : z.ats m * den ≠ dt := fun heq => hforth (hexact m hm heq).1
      refine ⟨m, ?_, Or.inr ⟨m, dt, rfl, hm, rfl, by rw [if_neg hforth]; exact hlater⟩⟩
      simp only
      rw [hns m hm] at hat ⊢
      split
      · next hpast => rw [IsLast.lastAt ⟨hm, hpast.le, hlater⟩]; rfl
      · next hbefore =>
          have hzero : m = 0 := by
            by_contra hpos
            have := hat hpos
            omega
          have hnone : ∀ j < z.timecnt, dt < z.ats j * den := by
            intro j hj
            rcases Nat.eq_zero_or_pos j with rfl | hpos
            · rw [← hzero]
              omega
            · exact hlater j (by omega) hj
          rw [lastAt_eq_none hnone]
          rfl

/-- Before every visit of a walk the position is placed. -/
theorem walk_placed (h : z.Ascending) {last : Option Int} (hw : Walk z dir (z.Clear dir) last pos) :
    Placed z dir last pos := by
  induction hw with
  | start => exact Or.inl rfl
  | visit _ hdir hclear hget ih =>
      obtain ⟨pos', hget', hplaced⟩ := getoffsetDir_eq h ih hdir hclear
      obtain rfl := (Prod.mk.inj (Option.some.inj (hget.symm.trans hget'))).2
      exact hplaced

/-- The lookup that remembers, the plain one and the last transition agree at every visit, in
every walk whose visits are clear of the transitions. -/
theorem walk_agrees (h : z.Ascending) {last : Option Int} (hw : Walk z dir (z.Clear dir) last pos)
    (hdir : ∀ t ∈ last, Towards dir t dt) (hclear : z.Clear dir dt pos) : z.Agrees dt pos dir := by
  obtain ⟨pos', hget, -⟩ := getoffsetDir_eq h (walk_placed h hw) hdir hclear
  refine ⟨by rw [hget]; rfl, ?_⟩
  rw [getoffset_eq]
  rcases getoffsetPos_eq h hclear.1 with ⟨m, hpos, hlast⟩ | ⟨hpos, hlast⟩
  · rw [hpos, hlast.lastAt]
    rfl
  · rw [hpos, hlast]
    rfl

/-- Two transitions passed on the way, seconds before 1970 and after. -/
theorem walk_agrees_two :
    let z : Zone := ⟨[(-50, 1), (100, 0)], [⟨0, 0⟩, ⟨3600, 4⟩], 0⟩
    ∃ pos, z.Agrees (200 * den) pos 1 := by
  intro z
  have hasc : z.Ascending := by decide
  have hw := @Walk.visit z 1 (z.Clear 1) none (-60 * den - 1) (-1) _ _ .start
    (fun _ ht => by cases ht) (by decide) rfl
  exact ⟨_, walk_agrees hasc hw (fun _ ht => by cases ht; decide) (by decide)⟩

/-- At the first transition both lookups find the offset before it. -/
theorem not_walk_agrees :
    let z : Zone := ⟨[(100, 1)], [⟨0, 0⟩, ⟨3600, 4⟩], 0⟩
    ¬∀ last pos dt, Walk z 1 (fun _ _ => True) last pos → (∀ t ∈ last, Towards 1 t dt) →
      z.Agrees dt pos 1 := by
  intro z h
  have := h none (-1) (100 * den) .start (fun _ ht => by cases ht)
  exact absurd this (by decide)

end Zone

end Ztsdb.Tz
