import Mathlib
import Ztsdb.Tz.ReverseOffset
import Ztsdb.Tz.ZoneOffset

/-!
# Lookups in any table

Whatever the order of the transitions, the binary search of a lookup ends at one of them, and a
lookup that remembers a position stays inside of the table: there is always an offset, and it is
one of those of the zone.
-/

namespace Ztsdb.Tz

namespace Zone

variable {z : Zone}

/-- In any table the search stays inside and ends. -/
theorem bsLoop_total {t : Int} {first last : Nat} (hlast : last < z.timecnt)
    (hfirst : first ≤ last + 1) (h0 : z.ats 0 < t) :
    ∃ m < z.timecnt, z.bsLoop t first last = some m := by
  fun_induction bsLoop z t first last with
  | case1 first last hle middle hout => omega
  | case2 first last hle middle hin hlt ih => exact ih hlast (by omega)
  | case3 first last hle middle hin hlt heq => exact ⟨middle, by omega, rfl⟩
  | case4 first last hle middle hin hlt hne hzero =>
      rw [hzero] at hlt
      exact absurd h0 hlt
  | case5 first last hle middle hin hlt hne hpos ih => exact ih (by omega) (by omega)
  | case6 first last hgt => exact ⟨_, by omega, rfl⟩

/-- A position is inside of the table, or nothing has been looked up yet. -/
def Held (z : Zone) (pos : Int) : Prop := pos < z.timecnt

theorem types_mem_used {i : Nat} (hi : i < z.timecnt) : z.types i ∈ z.used := by
  rw [used, types, List.getD_eq_getElem _ _ hi]
  exact List.mem_cons_of_mem _ (List.mem_map_of_mem (List.getElem_mem hi))

/-- A lookup in any table finds the offset of one of its types. -/
theorem getoffsetDir_total {pos : Int} (dt dir : Int) (h : z.Held pos) :
    ∃ type ∈ z.used, ∃ pos', z.getoffsetDir dt pos dir = some (z.gmtoff type, pos') ∧ z.Held pos' := by
  have hdefault : z.defaulttype ∈ z.used := List.mem_cons_self
  cases pos with
  | ofNat pos =>
      have hpos : pos < z.timecnt := Int.ofNat_lt.mp h
      rw [getoffsetDir]
      obtain ⟨-, hforth, -⟩ := @advance_spec z dt pos hpos
      obtain ⟨hback, -⟩ := @retreat_spec z dt pos
      simp only
      split
      · exact ⟨_, types_mem_used hforth, _, rfl, by rw [Held]; omega⟩
      · split
        · exact ⟨_, types_mem_used (by omega), _, rfl, by rw [Held]; omega⟩
        · exact ⟨_, hdefault, _, rfl, by rw [Held]; omega⟩
  | negSucc pos =>
      rw [getoffsetDir, getoffsetPos]
      split
      · next hseen =>
          obtain ⟨m, hm, hbs⟩ :=
            @bsLoop_total z (dt.tdiv den) 0 (z.timecnt - 1) (by omega) (Nat.zero_le _) hseen.2
          rw [bs, hbs]
          exact ⟨_, types_mem_used hm, _, rfl, by rw [Held]; omega⟩
      · exact ⟨_, hdefault, _, rfl, by rw [Held]; omega⟩

end Zone

end Ztsdb.Tz
