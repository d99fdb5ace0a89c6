import Mathlib
import Ztsdb.Tz.ReverseOffset
import Ztsdb.Tz.ZoneOffset

/-!
# When the reverse lookup is the inverse

Both lookups are compared with the type that a time has when some of the transitions have
passed. The map is right for the lookup that counts a transition from its instant on: one
induction over the transitions, in which a local time is before, between or behind the two
entries of the first one. The plain lookup gives the same offset for it as long as no
transition in or out of that offset is passed for the one and not for the other.
-/

namespace Ztsdb.Tz

open Ztsdb.Lib Ztsdb.Arr

namespace Zone

variable {z : Zone}

/-- The type after the transitions that have passed. -/
def typeBy (passed : Int → Bool) (prev : Nat) : List (Int × Nat) → Nat
  | [] => prev
  | tr :: trs => if passed tr.1 then typeBy passed tr.2 trs else prev

theorem typeBy_first {passed : Int → Bool} {prev : Nat} {trs : List (Int × Nat)}
    (h : ∀ tr ∈ trs, passed tr.1 = false) : typeBy passed prev trs = prev := by
  cases trs with
  | nil => rfl
  | cons tr trs => rw [typeBy, h tr (.head _), if_neg (by simp)]

theorem typeBy_getElem {passed : Int → Bool} {prev m : Nat} {trs : List (Int × Nat)}
    (hm : m < trs.length) (hin : ∀ i (hi : i < trs.length), i ≤ m → passed trs[i].1 = true)
    (hout : ∀ i (hi : i < trs.length), m < i → passed trs[i].1 = false) :
    typeBy passed prev trs = trs[m].2 := by
  induction trs generalizing prev m with
  | nil => exact absurd hm (Nat.not_lt_zero _)
  | cons tr trs ih =>
      have h0 : passed tr.1 = true := hin 0 (by simp) (Nat.zero_le _)
      rw [typeBy, if_pos h0]
      cases m with
      | zero =>
          refine typeBy_first fun tr' htr' => ?_
          obtain ⟨i, hi, rfl⟩ := List.getElem_of_mem htr'
          exact hout (i + 1) (by simpa using hi) (Nat.succ_pos _)
      | succ m =>
          refine ih (by simpa using hm) (fun i hi hle => ?_) fun i hi hlt => ?_
          · exact hin (i + 1) (by simpa using hi) (by omega)
          · exact hout (i + 1) (by simpa using hi) (by omega)

/-- A type is one of those of the transitions or the one before them. -/
theorem typeBy_mem (passed : Int → Bool) (prev : Nat) (trs : List (Int × Nat)) :
    typeBy passed prev trs = prev ∨
      ∃ tr ∈ trs, passed tr.1 = true ∧ typeBy passed prev trs = tr.2 := by
  induction trs generalizing prev with
  | nil => exact Or.inl rfl
  | cons tr trs ih =>
      rw [typeBy]
      split
      · next hp =>
          refine Or.inr ?_
          rcases ih tr.2 with heq | ⟨tr', htr', hp', heq⟩
          · exact ⟨tr, .head _, hp, heq⟩
          · exact ⟨tr', .tail _ htr', hp', heq⟩
      · exact Or.inl rfl

/-! ## The map -/

/-- What all the transitions enter in the map. -/
def allEntries (z : Zone) (prev : Nat) : List (Int × Nat) → List (Int × Finset Nat)
  | [] => []
  | tr :: trs => z.entries prev tr ++ allEntries z tr.2 trs

theorem buildLoop_eq (prev : Nat) (trs : List (Int × Nat)) (rl : List (Int × Finset Nat)) :
    z.buildLoop prev trs rl =
      (z.allEntries prev trs).foldl (fun rl e => OrdMap.assign e.1 e.2 rl) rl := by
  induction trs generalizing prev rl with
  | nil => rfl
  | cons tr trs ih => rw [buildLoop, allEntries, List.foldl_append, ih]

/-- The offsets of the types in `ts` are less apart than the transitions. -/
def Apart (z : Zone) (ts : List Nat) (trs : List (Int × Nat)) : Prop :=
  trs.Pairwise fun a b => a.1 < b.1 ∧ ∀ t ∈ ts, ∀ t' ∈ ts, z.gm t - z.gm t' < b.1 - a.1

/-- The keys of a transition's entries are the transition shown with its two offsets. -/
theorem mem_entries {prev : Nat} {tr : Int × Nat} {e : Int × Finset Nat}
    (h : e ∈ z.entries prev tr) : e.1 = tr.1 + z.gm prev ∨ e.1 = tr.1 + z.gm tr.2 := by
  rw [entries] at h
  split at h
  · simp only [List.mem_cons, List.not_mem_nil, or_false] at h
    rcases h with rfl | rfl <;> simp
  · split at h
    · simp only [List.mem_cons, List.not_mem_nil, or_false] at h
      rcases h with rfl | rfl <;> simp
    · simp only [List.mem_cons, List.not_mem_nil, or_false] at h
      rw [h]
      exact Or.inr rfl

theorem mem_allEntries {prev : Nat} {trs : List (Int × Nat)} {e : Int × Finset Nat}
    (h : e ∈ z.allEntries prev trs) :
    ∃ tr ∈ trs, ∃ t ∈ prev :: trs.map Prod.snd, e.1 = tr.1 + z.gm t := by
  induction trs generalizing prev with
  | nil => cases h
  | cons tr trs ih =>
      rcases List.mem_append.mp h with h | h
      · rcases mem_entries h with heq | heq
        · exact ⟨tr, .head _, prev, .head _, heq⟩
        · exact ⟨tr, .head _, tr.2, by simp, heq⟩
      · obtain ⟨tr', htr', t, ht, heq⟩ := ih h
        exact ⟨tr', .tail _ htr', t, .tail _ ht, heq⟩

theorem sorted_allEntries {ts : List Nat} {prev : Nat} {trs : List (Int × Nat)}
    (hapart : z.Apart ts trs) (hprev : prev ∈ ts) (hts : ∀ tr ∈ trs, tr.2 ∈ ts) :
    OrdMap.Sorted (z.allEntries prev trs) := by
  induction trs generalizing prev with
  | nil => exact .nil
  | cons tr trs ih =>
      have hcons := List.pairwise_cons.mp hapart
      have htr := hts tr (.head _)
      refine List.pairwise_append.mpr ⟨?_, ih hcons.2 htr fun tr' h => hts tr' (.tail _ h), ?_⟩
      · rw [entries]
        split
        · simp only [List.pairwise_cons, List.mem_singleton, forall_eq, List.not_mem_nil,
            false_implies, implies_true, List.Pairwise.nil, and_true]
          omega
        · split
          · simp only [List.pairwise_cons, List.mem_singleton, forall_eq, List.not_mem_nil,
              false_implies, implies_true, List.Pairwise.nil, and_true]
            omega
          · exact List.pairwise_singleton _ _
      · intro e he e' he'
        obtain ⟨tr', htr', t', ht', heq'⟩ := mem_allEntries he'
        have ht'' : t' ∈ ts := by
          rcases List.mem_cons.mp ht' with rfl | hmem
          · exact htr
          · obtain ⟨tr'', htr'', rfl⟩ := List.mem_map.mp hmem
            exact hts tr'' (.tail _ htr'')
        have hfar := (hcons.1 tr' htr').2
        rcases mem_entries he with heq | heq
        · have := hfar prev hprev t' ht''
          omega
        · have := hfar tr.2 htr t' ht''
          omega

/-- What is in the map of a local time from the transitions on is right for every offset. -/
theorem overlaid_inverse {ts : List Nat} {l : Int} (o : Int) {prev : Nat}
    {trs : List (Int × Nat)} (hapart : z.Apart ts trs) (hprev : prev ∈ ts)
    (hts : ∀ tr ∈ trs, tr.2 ∈ ts) :
    ∃ S, OrdMap.overlaid l (z.allEntries prev trs) (some {prev}) = some S ∧ S.card ≤ 2 ∧
      ((∃ t ∈ S, z.gm t = o) ↔ z.gm (typeBy (fun a => a + o ≤ l) prev trs) = o) := by
  induction trs generalizing prev with
  | nil => exact ⟨{prev}, rfl, by simp, by simp [typeBy]⟩
  | cons tr trs ih =>
      have hcons := List.pairwise_cons.mp hapart
      have hcur := hts tr (.head _)
      have hts' : ∀ tr' ∈ trs, tr'.2 ∈ ts := fun tr' h => hts tr' (.tail _ h)
      -- unless the local time is behind the transition, no later one has passed
      have hnear : ∀ t ∈ ts, l < tr.1 + z.gm t →
          (z.gm (if decide (tr.1 + o ≤ l) = true then typeBy (fun a => a + o ≤ l) tr.2 trs
            else prev) = o ↔ if tr.1 + o ≤ l then z.gm tr.2 = o else z.gm prev = o) := by
        intro t ht hlt
        by_cases ho : tr.1 + o ≤ l
        · rw [if_pos (by simpa using ho), if_pos ho]
          have hout : ∀ tr' ∈ trs, z.gm tr'.2 = o ∨ z.gm tr.2 = o → ¬tr'.1 + o ≤ l := by
            intro tr' htr' heq
            have h1 := (hcons.1 tr' htr').2 t ht tr'.2 (hts' tr' htr')
            have h2 := (hcons.1 tr' htr').2 t ht tr.2 hcur
            omega
          constructor
          · intro hval
            rcases typeBy_mem (fun a => a + o ≤ l) tr.2 trs with heq | ⟨tr', htr', hp, heq⟩
            · rwa [heq] at hval
            · rw [heq] at hval
              exact absurd (by simpa using hp) (hout tr' htr' (Or.inl hval))
          · intro hval
            rwa [typeBy_first fun tr' htr' => decide_eq_false (hout tr' htr' (Or.inr hval))]
        · rw [if_neg (by simpa using ho), if_neg ho]
      have hlater : ∀ e ∈ z.allEntries tr.2 trs,
          tr.1 + z.gm prev < e.1 ∧ tr.1 + z.gm tr.2 < e.1 := by
        intro e he
        obtain ⟨tr', htr', t, ht, heq⟩ := mem_allEntries he
        have ht' : t ∈ ts := by
          rcases List.mem_cons.mp ht with rfl | hmem
          · exact hcur
          · obtain ⟨tr'', htr'', rfl⟩ := List.mem_map.mp hmem
            exact hts' tr'' htr''
        have h1 := (hcons.1 tr' htr').2 prev hprev t ht'
        have h2 := (hcons.1 tr' htr').2 tr.2 hcur t ht'
        omega
      rw [allEntries, OrdMap.overlaid_append, typeBy]
      by_cases hp : tr.1 + z.gm prev ≤ l
      · by_cases hc : tr.1 + z.gm tr.2 ≤ l
        · -- behind the transition
          have hentries : OrdMap.overlaid l (z.entries prev tr) (some {prev}) = some {tr.2} := by
            rw [entries]
            split
            · simp only [OrdMap.overlaid, if_pos hp, if_pos hc]
            · split
              · simp only [OrdMap.overlaid, if_pos hp]
              · simp only [OrdMap.overlaid, if_pos hc]
          rw [hentries]
          obtain ⟨S, hS, hcard, hiff⟩ := ih hcons.2 hcur hts'
          refine ⟨S, hS, hcard, hiff.trans ?_⟩
          by_cases ho : tr.1 + o ≤ l
          · rw [if_pos (by simpa using ho)]
          · have hfirst : typeBy (fun a => decide (a + o ≤ l)) tr.2 trs = tr.2 := by
              refine typeBy_first fun tr' htr' => ?_
              have := (hcons.1 tr' htr').1
              simp only [decide_eq_false_iff_not]
              omega
            rw [if_neg (by simpa using ho), hfirst]
            constructor <;> intro heq <;> omega
        · -- in the gap
          have hentries : OrdMap.overlaid l (z.entries prev tr) (some {prev}) = some ∅ := by
            rw [entries, if_pos (by omega)]
            simp only [OrdMap.overlaid, if_pos hp, if_neg hc]
          rw [hentries, OrdMap.overlaid_of_lt fun e he => by have := hlater e he; omega,
            hnear tr.2 hcur (by omega)]
          refine ⟨∅, rfl, by simp, ?_⟩
          simp only [Finset.notMem_empty, false_and, exists_false, false_iff]
          split <;> omega
      · rw [hnear prev hprev (by omega)]
        by_cases hc : tr.1 + z.gm tr.2 ≤ l
        · -- in the overlap
          have hentries : OrdMap.overlaid l (z.entries prev tr) (some {prev}) =
              some {prev, tr.2} := by
            rw [entries, if_neg (by omega), if_pos (by omega)]
            simp only [OrdMap.overlaid, if_pos hc, if_neg hp]
          rw [hentries, OrdMap.overlaid_of_lt fun e he => by have := hlater e he; omega]
          refine ⟨{prev, tr.2}, rfl, Finset.card_le_two, ?_⟩
          simp only [Finset.mem_insert, Finset.mem_singleton, exists_eq_or_imp, exists_eq_left]
          split <;> omega
        · -- before the transition
          have hentries : OrdMap.overlaid l (z.entries prev tr) (some {prev}) = some {prev} := by
            refine OrdMap.overlaid_of_lt fun e he => ?_
            rcases mem_entries he with heq | heq <;> omega
          rw [hentries, OrdMap.overlaid_of_lt fun e he => by have := hlater e he; omega]
          refine ⟨{prev}, rfl, by simp, ?_⟩
          simp only [Finset.mem_singleton, exists_eq_left]
          split <;> omega

/-- The map looked up at a local time. -/
theorem floor?_buildRl (h : z.Regular) {l : Int} (hl : timeMin ≤ l) (o : Int) :
    ∃ S, OrdMap.floor? z.buildRl l = some S ∧ S.card ≤ 2 ∧ ((∃ t ∈ S, z.gm t = o) ↔
      z.gm (typeBy (fun a => a + o ≤ l) z.defaulttype z.transitions) = o) := by
  rw [buildRl]
  split
  · next hcnt =>
      have hnil : z.transitions = [] := List.length_eq_zero_iff.mp hcnt
      refine ⟨{z.defaulttype}, ?_, by simp, by simp [hnil, typeBy]⟩
      have hmax : timeMin < timeMax := by decide
      simp only [OrdMap.assign, if_neg (not_lt.mpr hmax.le), if_neg hmax.ne', OrdMap.floor?,
        if_pos hl]
      split <;> rfl
  · have hdef : z.defaulttype ∈ z.used := .head _
    have hts : ∀ tr ∈ z.transitions, tr.2 ∈ z.used := fun tr htr =>
      .tail _ (List.mem_map_of_mem htr)
    have hbase : OrdMap.floor? (OrdMap.assign timeMin {z.defaulttype} []) l =
        some ({z.defaulttype} : Finset Nat) := by
      rw [OrdMap.assign, OrdMap.floor?, if_pos hl]
      rfl
    rw [buildLoop_eq, OrdMap.floor?_foldl (OrdMap.sorted_assign .nil)
      (sorted_allEntries h.apart hdef hts) ?_, hbase]
    · exact overlaid_inverse o h.apart hdef hts
    · intro e he e' he'
      obtain ⟨tr, htr, t, ht, heq⟩ := mem_allEntries he'
      rw [List.mem_singleton.mp he, heq]
      exact (h.fits tr htr t ht).1

/-! ## The plain lookup -/

theorem Regular.ascending (h : z.Regular) : z.Ascending := h.apart.imp fun h => h.1

theorem getoffset_typeBy (h : z.Ascending) (dt : Int) :
    (z.getoffset dt).map Prod.fst = some (z.gmtoff (typeBy
      (fun a => decide (z.Passed (dt.tdiv den) a)) z.defaulttype z.transitions)) := by
  have hats : ∀ i (hi : i < z.timecnt), z.transitions[i].1 = z.ats i := fun i hi => by
    rw [ats, List.getD_eq_getElem _ _ hi]
  rw [getoffset]
  split
  · next hbranch =>
      obtain ⟨m, hbs, hm, hle, hlater⟩ := bs_eq h hbranch.1 hbranch.2
      have htypes : z.types m = z.transitions[m].2 := by rw [types, List.getD_eq_getElem _ _ hm]
      rw [hbs, typeBy_getElem hm, ← htypes]
      · rfl
      · intro i hi him
        rw [hats i hi, decide_eq_true_eq, Passed]
        have := ats_le h him hm
        split <;> omega
      · intro i hi hmi
        rw [hats i hi, decide_eq_false_iff_not, Passed]
        have := hlater i hmi hi
        split <;> omega
  · next hbranch =>
      rw [typeBy_first]
      · rfl
      · intro tr htr
        obtain ⟨i, hi, rfl⟩ := List.getElem_of_mem htr
        have h0 : ¬z.ats 0 < dt.tdiv den := fun hlt =>
          hbranch ⟨Nat.ne_of_gt (Nat.zero_lt_of_lt hi), hlt⟩
        have := ats_le h (Nat.zero_le i) hi
        rw [hats i hi, decide_eq_false_iff_not, Passed]
        split <;> omega

/-! ## Where the two differ -/

/-- What has passed at one transition has passed at the ones before. -/
def Down (passed : Int → Bool) : Prop := ∀ a b, a < b → passed b = true → passed a = true

theorem mem_steps {prev : Nat} {trs : List (Int × Nat)} {s : Nat × Int × Nat}
    (h : s ∈ steps prev trs) : s.2 ∈ trs := by
  induction trs generalizing prev with
  | nil => cases h
  | cons tr trs ih =>
      rcases List.mem_cons.mp h with rfl | h
      · exact .head _
      · exact .tail _ (ih h)

theorem mem_steps_prev {prev : Nat} {trs : List (Int × Nat)} {s : Nat × Int × Nat}
    (h : s ∈ steps prev trs) : s.1 ∈ prev :: trs.map Prod.snd := by
  induction trs generalizing prev with
  | nil => cases h
  | cons tr trs ih =>
      rcases List.mem_cons.mp h with rfl | h
      · exact .head _
      · exact .tail _ (ih h)

/-- An offset is found for both or for neither when the transitions in and out of it have
passed for both or for neither. -/
theorem typeBy_agree {p q : Int → Bool} (hp : Down p) (hq : Down q) {o : Int} {prev : Nat}
    {trs : List (Int × Nat)} (hasc : trs.Pairwise fun a b => a.1 < b.1)
    (h : ∀ s ∈ steps prev trs, z.gm s.1 ≠ z.gm s.2.2 → (z.gm s.1 = o ∨ z.gm s.2.2 = o) →
      p s.2.1 = q s.2.1) :
    z.gm (typeBy p prev trs) = o ↔ z.gm (typeBy q prev trs) = o := by
  induction trs generalizing prev with
  | nil => rfl
  | cons tr trs ih =>
      have hcons := List.pairwise_cons.mp hasc
      have hrest := ih hcons.2 fun s hs => h s (.tail _ hs)
      have hhead := h (prev, tr) (.head _)
      simp only at hhead
      have hstay : ∀ r : Int → Bool, Down r → r tr.1 = false → typeBy r tr.2 trs = tr.2 :=
        fun r hr hno => typeBy_first fun tr' htr' => by
          by_contra hyes
          rw [Bool.not_eq_false] at hyes
          rw [hr tr.1 tr'.1 (hcons.1 tr' htr') hyes] at hno
          cases hno
      rw [typeBy, typeBy]
      cases hpt : p tr.1 with
      | true =>
          cases hqt : q tr.1 with
          | true => simpa using hrest
          | false =>
              rw [hstay q hq hqt] at hrest
              rw [hpt, hqt] at hhead
              simp only [if_true, Bool.false_eq_true, if_false]
              rw [hrest]
              by_contra hdiff
              exact absurd (hhead (fun heq => hdiff (by rw [heq])) (by tauto)) (by simp)
      | false =>
          cases hqt : q tr.1 with
          | true =>
              rw [hstay p hp hpt] at hrest
              rw [hpt, hqt] at hhead
              simp only [if_true, Bool.false_eq_true, if_false]
              rw [← hrest]
              by_contra hdiff
              exact absurd (hhead (fun heq => hdiff (by rw [heq])) (by tauto)) (by simp)
          | false => simp

/-- Where a transition has passed for one and not for the other, one has the type after it
and the other the type before it, if the transitions are two seconds apart and the lookups
at most one. -/
theorem typeBy_differ {p q : Int → Bool} (hp : Down p) (hq : Down q)
    (hnear : ∀ a b, a + 2 ≤ b → (q b = true → p a = true) ∧ (p b = true → q a = true))
    {prev : Nat} {trs : List (Int × Nat)} (hgap : trs.Pairwise fun a b => a.1 + 2 ≤ b.1)
    {s : Nat × Int × Nat} (hs : s ∈ steps prev trs) (hne : p s.2.1 ≠ q s.2.1) :
    typeBy p prev trs = s.2.2 ∧ typeBy q prev trs = s.1 ∨
      typeBy p prev trs = s.1 ∧ typeBy q prev trs = s.2.2 := by
  induction trs generalizing prev with
  | nil => cases hs
  | cons tr trs ih =>
      have hcons := List.pairwise_cons.mp hgap
      rw [typeBy, typeBy]
      rcases List.mem_cons.mp hs with rfl | hs
      · simp only at hne ⊢
        cases hpt : p tr.1 with
        | true =>
            have hqt : q tr.1 = false := by
              rw [hpt] at hne
              exact Bool.eq_false_iff.mpr (Ne.symm hne)
            have hstay : typeBy p tr.2 trs = tr.2 := typeBy_first fun tr' htr' => by
              by_contra hyes
              rw [Bool.not_eq_false] at hyes
              rw [(hnear _ _ (hcons.1 tr' htr')).2 hyes] at hqt
              cases hqt
            left
            simp [hqt, hstay]
        | false =>
            have hqt : q tr.1 = true := by
              rw [hpt] at hne
              exact Bool.eq_true_of_not_eq_false (Ne.symm hne)
            have hstay : typeBy q tr.2 trs = tr.2 := typeBy_first fun tr' htr' => by
              by_contra hyes
              rw [Bool.not_eq_false] at hyes
              rw [(hnear _ _ (hcons.1 tr' htr')).1 hyes] at hpt
              cases hpt
            right
            simp [hqt, hstay]
      · have hfar := hcons.1 s.2 (mem_steps hs)
        have hboth : p tr.1 = true ∧ q tr.1 = true := by
          cases hps : p s.2.1 with
          | true => exact ⟨hp _ _ (by omega) hps, (hnear _ _ hfar).2 hps⟩
          | false =>
              have hqs : q s.2.1 = true := by
                rw [hps] at hne
                exact Bool.eq_true_of_not_eq_false (Ne.symm hne)
              exact ⟨(hnear _ _ hfar).1 hqs, hq _ _ (by omega) hqs⟩
        rw [hboth.1, hboth.2]
        exact ih hcons.2 hs

/-! ## The inverse -/

/-- The seconds of a local time and of the time with an offset taken off are truncated at
most one apart. -/
theorem tdiv_sub_bounds (L o : Int) :
    (L - o * den).tdiv den ≤ L.tdiv den - o + 1 ∧ L.tdiv den - o - 1 ≤ (L - o * den).tdiv den := by
  obtain ⟨h1, h2⟩ := tdiv_bounds L
  obtain ⟨h3, h4⟩ := tdiv_bounds (L - o * den)
  rw [den] at *
  constructor <;> omega

theorem down_le (o l : Int) : Down fun a => decide (a + o ≤ l) := by
  intro a b hab hb
  simp only [decide_eq_true_eq] at hb ⊢
  omega

theorem Passed.le {d a : Int} (h : z.Passed d a) : a ≤ d := by
  rw [Passed] at h
  split at h <;> omega

theorem passed_of_lt {d a : Int} (h : a < d) : z.Passed d a := by
  rw [Passed]
  split <;> omega

theorem down_passed (d : Int) : Down fun a => decide (z.Passed d a) := by
  intro a b hab hb
  rw [decide_eq_true_eq] at hb ⊢
  exact passed_of_lt (by have := hb.le; omega)

/-- The two lookups find the same offsets in a local time exactly when its sides agree. -/
theorem sides_iff (h : z.Regular) (dt : dtime) :
    z.Sides dt ↔ ∀ o,
      (z.gm (typeBy (fun a => a + o ≤ dt.ns.toInt.tdiv den) z.defaulttype z.transitions) = o ↔
        z.gm (typeBy (fun a => z.Passed ((dt.ns.toInt - o * den).tdiv den) a) z.defaulttype
          z.transitions) = o) := by
  constructor
  · intro hsides o
    refine typeBy_agree (down_le _ _) (down_passed _) h.ascending fun s hs hchange ho => ?_
    have hside : ∀ t ∈ [s.1, s.2.2], z.gm t = o → (s.2.1 + o ≤ dt.ns.toInt.tdiv den ↔
        z.Passed ((dt.ns.toInt - o * den).tdiv den) s.2.1) := by
      intro t ht heq
      have := hsides s hs hchange t ht
      rwa [gmtoff, show (z.tti t).tt_gmtoff = o from heq, heq] at this
    rw [decide_eq_decide]
    rcases ho with heq | heq
    · exact hside s.1 (by simp) heq
    · exact hside s.2.2 (by simp) heq
  · intro hsame s hs hchange t ht
    by_contra hdiff
    have hprev : s.1 ∈ z.used := mem_steps_prev hs
    have hcur : s.2.2 ∈ z.used := .tail _ (List.mem_map_of_mem (mem_steps hs))
    -- the offsets differ by a second at least, so the transitions are two seconds apart
    have hgap : z.transitions.Pairwise fun a b => a.1 + 2 ≤ b.1 := by
      refine h.apart.imp fun hab => ?_
      have h1 := hab.2 s.1 hprev s.2.2 hcur
      have h2 := hab.2 s.2.2 hcur s.1 hprev
      omega
    obtain ⟨hb1, hb2⟩ := tdiv_sub_bounds dt.ns.toInt (z.gm t)
    have hnear : ∀ a b : Int, a + 2 ≤ b →
        (decide (z.Passed ((dt.ns.toInt - z.gm t * den).tdiv den) b) = true →
          decide (a + z.gm t ≤ dt.ns.toInt.tdiv den) = true) ∧
        (decide (b + z.gm t ≤ dt.ns.toInt.tdiv den) = true →
          decide (z.Passed ((dt.ns.toInt - z.gm t * den).tdiv den) a) = true) := by
      intro a b hab
      rw [decide_eq_true_eq, decide_eq_true_eq, decide_eq_true_eq, decide_eq_true_eq]
      constructor
      · intro hb
        have := hb.le
        omega
      · exact fun hb => passed_of_lt (by omega)
    have hdiffer := typeBy_differ (down_le (z.gm t) _) (down_passed _) hnear hgap hs
      (by rw [ne_eq, decide_eq_decide]; exact hdiff)
    have hval := hsame (z.gm t)
    simp only [List.mem_cons, List.not_mem_nil, or_false] at ht
    rcases hdiffer with ⟨h1, h2⟩ | ⟨h1, h2⟩ <;> rw [h1, h2] at hval <;>
      rcases ht with rfl | rfl <;> tauto

/-- The offsets of the reverse lookup, at most two. -/
theorem getReverseOffset_eq (h : z.Regular) (dt : dtime) :
    ∃ R, z.getReverseOffset dt = some R ∧ R.card ≤ 2 ∧ ∀ o, o ∈ R ↔ ∃ g, o = g * den ∧
      z.gm (typeBy (fun a => a + g ≤ dt.ns.toInt.tdiv den) z.defaulttype z.transitions) = g := by
  have hl : timeMin ≤ dt.ns.toInt.tdiv den := by
    obtain ⟨h1, h2⟩ := tdiv_bounds dt.ns.toInt
    have hmin := dt.ns.le_toInt
    rw [timeMin]
    rw [den] at *
    omega
  obtain ⟨S, hS, hcard, -⟩ := floor?_buildRl h hl 0
  refine ⟨S.image z.gmtoff, by rw [getReverseOffset, hS]; rfl,
    Finset.card_image_le.trans hcard, fun o => ?_⟩
  rw [Finset.mem_image]
  constructor
  · rintro ⟨t, ht, rfl⟩
    obtain ⟨S', hS', -, hiff⟩ := floor?_buildRl h hl (z.gm t)
    obtain rfl : S' = S := Option.some.inj (hS'.symm.trans hS)
    exact ⟨z.gm t, rfl, hiff.mp ⟨t, ht, rfl⟩⟩
  · rintro ⟨g, rfl, hg⟩
    obtain ⟨S', hS', -, hiff⟩ := floor?_buildRl h hl g
    obtain rfl : S' = S := Option.some.inj (hS'.symm.trans hS)
    obtain ⟨t, ht, heq⟩ := hiff.mpr hg
    exact ⟨t, ht, by rw [gmtoff, ← heq]; rfl⟩

/-- The offsets that the plain lookup confirms. -/
theorem getoffset_confirms (h : z.Regular) (L o : Int) :
    (z.getoffset (L - o)).map Prod.fst = some o ↔ ∃ g, o = g * den ∧
      z.gm (typeBy (fun a => z.Passed ((L - g * den).tdiv den) a) z.defaulttype
        z.transitions) = g := by
  rw [getoffset_typeBy h.ascending, Option.some.injEq]
  constructor
  · intro heq
    refine ⟨_, heq.symm, ?_⟩
    rw [show (z.tti (typeBy (fun a => decide (z.Passed ((L - o).tdiv den) a)) z.defaulttype
      z.transitions)).tt_gmtoff * den = o from heq]
    rfl
  · rintro ⟨g, rfl, hg⟩
    rw [gmtoff]
    exact congrArg (· * den) hg

/-- Numbers are taken when they are checked and their local time has one offset. -/
theorem dtime_from_numbers_eq_ok {y t : Int} {m d h mn sec nsec : Nat} {R : Finset Int}
    (hR : z.getReverseOffset (localTime y m d h mn sec nsec) = some R) (hcard : R.card ≤ 2) :
    z.dtime_from_numbers y m d h mn sec nsec = .ok t () ↔ Checked m d h mn sec nsec ∧
      ∃ o, R = {o} ∧ t = (localTime y m d h mn sec nsec).ns.toInt - o := by
  by_cases hcheck : Checked m d h mn sec nsec
  · obtain ⟨hm, hm', hd, hd', hh, hmn, hsec, hnsec⟩ := id hcheck
    rw [dtime_from_numbers, if_neg (by omega), if_neg (by omega), if_neg (by omega),
      if_neg (by omega), if_neg (by omega), if_neg (by omega)]
    simp only [hR, hcheck, true_and]
    have hlen : (R.sort (· ≤ ·)).length ≤ 2 := by rwa [Finset.length_sort]
    have hset : (R.sort (· ≤ ·)).toFinset = R := Finset.sort_toFinset _ _
    have hnodup : (R.sort (· ≤ ·)).Nodup := Finset.sort_nodup _ _
    generalize R.sort (· ≤ ·) = os at hlen hset hnodup
    rw [← hset]
    match os, hlen with
    | [], _ => simp [eq_comm]
    | [o], _ =>
        simp only [Outcome.ok.injEq, and_true, List.toFinset_cons, List.toFinset_nil,
          insert_empty_eq, Finset.singleton_inj]
        constructor
        · exact fun heq => ⟨o, rfl, heq.symm⟩
        · rintro ⟨o', rfl, heq⟩
          exact heq.symm
    | [o₁, o₂], _ =>
        simp only [reduceCtorEq, false_iff, not_exists, not_and]
        intro o heq
        have hone : ([o₁, o₂] : List Int).toFinset.card = 1 := by rw [heq, Finset.card_singleton]
        rw [List.toFinset_card_of_nodup hnodup] at hone
        cases hone
  · simp only [hcheck, false_and, iff_false]
    intro hok
    apply hcheck
    rw [dtime_from_numbers] at hok
    repeat' split at hok
    all_goals first
      | cases hok
      | exact ⟨by omega, by omega, by omega, by omega, by omega, by omega, by omega, by omega⟩

end Zone

end Ztsdb.Tz
