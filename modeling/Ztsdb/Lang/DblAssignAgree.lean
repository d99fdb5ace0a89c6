import Mathlib
import Ztsdb.Lang.DblAssignEffect

/-!
# When an assignment through a path does what it should

The assignment has its effect exactly when looking all names up in the outermost list makes no
difference, no null value is given for an element of an inner list, and no value for a position
of a vector that is not the value as a whole afterwards.
-/

namespace Ztsdb.Lang.DblAssign

open Ztsdb.Lib Ztsdb.Lib.Outcome Value

variable {K : Type} {El : K → Type} (convert : (k k' : K) → El k' → Option (El k))

/-! ## Where the paths lead to -/

/-- A target in `x`, at the end of a path of `m + 1` steps. -/
def Leads (x : Value K El) (m : Nat) : Target → Prop
  | .element q => ∃ p n w ns, q = p ++ [n] ∧ p.length = m ∧ x.get? p = some (list w ns) ∧
    n < w.length
  | .position q _ => q.length = m ∧ ∃ leaf, x.get? q = some leaf ∧ leaf.isList = false
  | .fresh q _ => q.length = m ∧ ∃ w ns, x.get? q = some (list w ns)
  | _ => True

theorem Leads.under {v : List (Value K El)} {names : List String} {y : Value K El} {n m : Nat}
    {t : Target} (hn : v[n]? = some y) (h : Leads y m t) :
    Leads (list v names) (m + 1) (t.under n) := by
  have hget : ∀ q, (list v names).get? (n :: q) = y.get? q := fun q => by
    rw [get?, hn, Option.bind_some]
  cases t with
  | element q =>
      obtain ⟨p, n', w, ns, rfl, hlen, hp, hlt⟩ := h
      exact ⟨n :: p, n', w, ns, rfl, congrArg Nat.succ hlen, (hget p).trans hp, hlt⟩
  | position q p => exact ⟨congrArg Nat.succ h.1, h.2.imp fun _ h => ⟨(hget q).trans h.1, h.2⟩⟩
  | fresh q s => exact ⟨congrArg Nat.succ h.1, h.2.imp fun _ h => h.imp fun _ h => (hget q).trans h⟩
  | nowhere => trivial
  | outside => trivial

theorem leads_element {v : List (Value K El)} {names : List String} {n : Nat} {y : Value K El}
    (hn : v[n]? = some y) : Leads (list v names) 0 (Target.under n (.element [])) :=
  ⟨[], n, v, names, rfl, rfl, rfl, (List.getElem?_eq_some_iff.mp hn).1⟩

theorem leads_leaf {x : Value K El} {p m : Nat} {ks : List Key} (h : x.isList = false)
    (hm : ks.length = m) : Leads x m (if ks = [] then .position [] p else .nowhere) := by
  subst hm
  by_cases hks : ks = []
  · subst hks
    exact ⟨rfl, x, rfl, h⟩
  · rw [if_neg hks]
    trivial

theorem own_leads (x : Value K El) (k : Key) (ks : List Key) :
    Leads x ks.length (own x (k :: ks)) := by
  rcases own_cons x k ks with h | ⟨v, names, s, rfl, rfl, rfl, h⟩ | ⟨p, hx, rfl, rfl, h⟩ |
    ⟨v, names, n, y, rfl, -, hn, h⟩
  · rw [h]
    trivial
  · rw [h]
    exact ⟨rfl, v, names, rfl⟩
  · rw [h]
    exact ⟨rfl, x, rfl, hx⟩
  · rw [h]
    cases ks with
    | nil => exact leads_element hn
    | cons k' ks => exact (own_leads y k' ks).under hn

theorem lastName_leads {i : Index} {iv : Nat} {x : Value K El} : Leads x 0 (lastName i iv x) := by
  cases i with
  | int vi => trivial
  | names vs =>
      simp only [lastName]
      cases vs[iv]? with
      | none => trivial
      | some s =>
          cases x with
          | list w ns => exact ⟨rfl, w, ns, rfl⟩
          | null => trivial
          | atom k w => trivial

theorem byTop_leads {names : List String} {i : Index} {x : Value K El} {iv : Nat} {k : Key}
    {ks : List Key} : Leads x ks.length (byTop names i x iv (k :: ks)) := by
  induction ks generalizing x iv k with
  | nil =>
      cases hk : k.place names with
      | none =>
          rw [byTop, hk]
          exact lastName_leads
      | some n =>
          cases x with
          | null => rw [byTop_leaf rfl hk]; exact leads_leaf rfl rfl
          | atom k' w => rw [byTop_leaf rfl hk]; exact leads_leaf rfl rfl
          | list v ns =>
              simp only [byTop, hk, if_true]
              split
              · trivial
              cases hn : v[n]? with
              | none => exact lastName_leads
              | some y => exact leads_element hn
  | cons k' ks ih =>
      cases hk : k.place names with
      | none =>
          rw [byTop, hk]
          trivial
      | some n =>
          cases x with
          | null => rw [byTop_leaf rfl hk]; exact leads_leaf rfl rfl
          | atom k' w => rw [byTop_leaf rfl hk]; exact leads_leaf rfl rfl
          | list v ns =>
              rw [byTop, hk]
              simp only [List.cons_ne_nil, if_false]
              split
              · trivial
              cases hn : v[n]? with
              | none => trivial
              | some y => exact ih.under hn

/-! ## When the assignment is as it should be -/

theorem fitted_isList {leaf b y : Value K El} {p : Nat} (h : fitted convert leaf b p = some y) :
    b.isNull = false ∧ b.width = 0 := by
  cases b with
  | null => cases leaf <;> cases h
  | atom k w => exact ⟨rfl, rfl⟩
  | list w names => cases leaf <;> cases h

theorem ne_ok_of_ends {c : Prop} [Decidable c] {x y : Value K El}
    {o : Outcome Exn (Value K El) Unit} (h : if c then o = .fault else ∃ e, o = .throw e x) :
    o ≠ .ok () y := by
  rintro rfl
  split at h
  · cases h
  · obtain ⟨e, he⟩ := h
    cases he

/-- Where a non-null value is assigned to an element. -/
theorem element_put_iff {v : List (Value K El)} {names : List String} {i : Index}
    {b : Value K El} {q : List Nat} {m : Nat} {t : Target} {o : Outcome Exn (Value K El) Unit}
    (hb : b.isNull = false) (hq : Leads (list v names) m (.element q))
    (ht : Leads (list v names) m t) (ho : Ends convert v names i b [] o t) :
    o = .ok () ((list v names).put q b) ↔ Agree convert (list v names) b i (.element q) t := by
  obtain ⟨p, n, w, ns, rfl, rfl, hp, hn⟩ := hq
  have hget : (list v names).get? (p ++ [n]) = some w[n] := by
    rw [get?_concat hp, List.getElem?_eq_getElem hn]
  have hset : (list (w.set n b) ns).width ≤ (list w ns).width := Nat.le_of_eq List.length_set
  cases t with
  | element q' =>
      obtain ⟨p', n', w', ns', rfl, hlen, hp', hn'⟩ := ht
      have hget' : (list v names).get? (p' ++ [n']) = some w'[n'] := by
        rw [get?_concat hp', List.getElem?_eq_getElem hn']
      have hlen' : (p ++ [n]).length = (p' ++ [n']).length := by
        rw [List.length_append, List.length_append, hlen]
        rfl
      simp only [Ends, hb, List.nil_append, Bool.false_eq_true, if_false] at ho
      simp only [Agree, hb, Bool.false_eq_true, if_false, ho, Outcome.ok.injEq, true_and]
      constructor
      · intro h
        cases put_eq_put hlen' hget hget' h.symm with
        | inl hsame => exact .inl hsame.1
        | inr hself => exact .inr ⟨by rw [hget, hself.1], by rw [hget', hself.2]⟩
      · intro h
        cases h with
        | inl hsame => rw [hsame]
        | inr hself => rw [put_self hself.1, put_self hself.2]
  | position q' r =>
      obtain ⟨hlen, leaf, hleaf, hlist⟩ := ht
      obtain ⟨leaf', hleaf', _, hend⟩ := ho
      rw [List.nil_append] at hleaf' hend
      obtain rfl : leaf = leaf' := Option.some.inj (hleaf.symm.trans hleaf')
      cases hsub : subassignHelper convert leaf b r with
      | error e =>
          rw [hsub] at hend
          refine iff_of_false (fun h => ?_) fun h => ?_
          · exact ne_ok_of_ends hend h
          · obtain rfl : leaf = b := Option.some.inj (hleaf.symm.trans h.2.1)
            have hfit := h.2.2
            rw [subassignHelper_eq, hsub] at hfit
            cases hfit
      | ok y =>
          rw [hsub] at hend
          simp only at hend
          rw [hend, Outcome.ok.injEq, put_concat hp]
          constructor
          · intro h
            cases put_eq_put hlen hleaf hp h.2 with
            | inl hsame =>
                obtain rfl : leaf = list w ns :=
                  Option.some.inj (hleaf.symm.trans (by rw [hsame.1, hp]))
                cases hlist
            | inr hself =>
                obtain rfl : b = leaf := hself.1
                have hset := (list.inj hself.2).1
                have hwn : w[n]? = some b := by
                  rw [← List.getElem?_set_self hn (a := b), hset]
                exact ⟨by rw [get?_concat hp, hwn], hleaf, by rw [subassignHelper_eq, hsub]; rfl⟩
          · intro h
            rw [← put_concat hp, put_self h.1, put_self h.2.1]
            exact ⟨rfl, rfl⟩
  | fresh q' s =>
      obtain ⟨hlen, w', ns', hw'⟩ := ht
      obtain ⟨w'', ns'', hw'', ho⟩ := ho
      rw [List.nil_append] at hw'' ho
      refine iff_of_false (fun h => ?_) id
      rw [ho, put_concat hp] at h
      exact put_ne_append hlen.symm hp hw'' hset (Outcome.ok.inj h).2.symm
  | nowhere =>
      obtain ⟨e, he⟩ := ho
      exact iff_of_false (fun h => by cases he.symm.trans h) id
  | outside => exact iff_of_false (fun h => by cases Eq.trans (Eq.symm ho) h) id

theorem fitted_null {leaf : Value K El} {p : Nat} : fitted convert leaf .null p = none := by
  cases leaf <;> rfl

theorem width_remove {v : List (Value K El)} {names : List String} {n : Nat} (h : 0 < v.length) :
    (remove n v names).width < v.length :=
  Nat.lt_of_le_of_lt (List.length_take_le _ _) (Nat.sub_lt h Nat.one_pos)

theorem Leads.width_pos {v : List (Value K El)} {names : List String} {q : List Nat} {m : Nat}
    (h : Leads (list v names) m (.element q)) : 0 < v.length := by
  obtain ⟨p, n, w, ns, rfl, -, hp, hn⟩ := h
  cases p with
  | nil =>
      obtain ⟨rfl, rfl⟩ := list.inj (Option.some.inj hp)
      omega
  | cons n' p =>
      obtain ⟨y, hy, _⟩ := Option.bind_eq_some_iff.mp hp
      have := (List.getElem?_eq_some_iff.mp hy).1
      omega

/-- Where a null value is assigned to an element. -/
theorem element_null_iff {v : List (Value K El)} {names : List String} {i : Index}
    {q : List Nat} {m : Nat} {t : Target} {o : Outcome Exn (Value K El) Unit}
    (hnames : names = [] ∨ names.length = v.length)
    (hq : Leads (list v names) m (.element q)) (ht : Leads (list v names) m t)
    (hone : m = 0 → t = .element q) (ho : Ends convert v names i .null [] o t) :
    o = .ok () ((list v names).erase q) ↔
      Agree convert (list v names) .null i (.element q) t := by
  have hpos := hq.width_pos
  obtain ⟨p, n, w, ns, rfl, rfl, hp, hn⟩ := hq
  have herase : (list v names).erase (p ++ [n]) =
      (list v names).put p (list (w.eraseIdx n) (someNames (ns.eraseIdx n))) := by
    rw [Value.erase, List.dropLast_concat, List.getLast?_concat, hp]
  have hwidth : (list (w.eraseIdx n) (someNames (ns.eraseIdx n))).width ≤ (list w ns).width :=
    List.length_eraseIdx_le w n
  rw [herase]
  cases t with
  | element q' =>
      have ho : o = .ok () (remove (q'.getLast?.getD 0) v names) := ho
      rw [ho, Outcome.ok.injEq, Agree, isNull, if_pos rfl]
      cases p with
      | nil =>
          obtain rfl : q' = [n] := Target.element.inj (hone rfl)
          obtain ⟨rfl, rfl⟩ := list.inj (Option.some.inj hp)
          exact iff_of_true ⟨rfl, remove_eq hn hnames⟩ rfl
      | cons n' p =>
          refine iff_of_false (fun h => ?_) fun h => ?_
          · have hlt : (remove (q'.getLast?.getD 0) v names).width < v.length := width_remove hpos
            rw [h.2, width_put_cons] at hlt
            exact Nat.lt_irrefl _ hlt
          · rw [List.length_append] at h
            exact absurd h (by simp)
  | position q' r =>
      obtain ⟨leaf, _, _, hend⟩ := ho
      refine iff_of_false (fun h => ?_) fun h => ?_
      · have hfit := subassignHelper_eq convert leaf .null r
        rw [fitted_null] at hfit
        cases hsub : subassignHelper convert leaf .null r with
        | error e =>
            rw [hsub] at hend
            exact ne_ok_of_ends hend h
        | ok y =>
            rw [hsub] at hfit
            cases hfit
      · have hfit := h.2.2
        rw [fitted_null] at hfit
        cases hfit
  | fresh q' s =>
      obtain ⟨hlen, w', ns', hw'⟩ := ht
      obtain ⟨w'', ns'', hw'', ho⟩ := ho
      rw [List.nil_append] at hw'' ho
      refine iff_of_false (fun h => ?_) id
      rw [ho] at h
      exact put_ne_append hlen.symm hp hw'' hwidth (Outcome.ok.inj h).2.symm
  | nowhere =>
      obtain ⟨e, he⟩ := ho
      exact iff_of_false (fun h => nomatch he.symm.trans h) id
  | outside => exact iff_of_false (fun h => nomatch Eq.trans (Eq.symm ho) h) id

/-- Where the last name is missing. -/
theorem fresh_iff {v : List (Value K El)} {names : List String} {i : Index} {b : Value K El}
    {q : List Nat} {s : String} {m : Nat} {t : Target} {o : Outcome Exn (Value K El) Unit}
    {w : List (Value K El)} {ns : List String} (hlen : q.length = m)
    (hw : (list v names).get? q = some (list w ns))
    (ht : Leads (list v names) m t) (ho : Ends convert v names i b [] o t) :
    o = .ok () ((list v names).put q (list (w ++ [b]) (addName w.length s ns))) ↔
      Agree convert (list v names) b i (.fresh q s) t := by
  subst hlen
  cases t with
  | element q' =>
      refine iff_of_false (fun h => ?_) id
      have hpos := ht.width_pos
      obtain ⟨p, n, w', ns', rfl, hlen, hp, hn⟩ := ht
      cases hb : b.isNull with
      | true =>
          simp only [Ends, hb, if_true] at ho
          rw [ho] at h
          have hlt : (remove (([] ++ (p ++ [n])).getLast?.getD 0) v names).width < v.length :=
            width_remove hpos
          rw [(Outcome.ok.inj h).2] at hlt
          cases q with
          | nil =>
              obtain ⟨rfl, rfl⟩ := list.inj (Option.some.inj hw)
              rw [put, width, List.length_append] at hlt
              omega
          | cons n' q =>
              rw [width_put_cons] at hlt
              exact Nat.lt_irrefl _ hlt
      | false =>
          simp only [Ends, hb, List.nil_append, Bool.false_eq_true, if_false] at ho
          rw [ho, put_concat hp] at h
          have hset : (list (w'.set n b) ns').width ≤ (list w' ns').width :=
            Nat.le_of_eq List.length_set
          exact put_ne_append hlen hp hw hset (Outcome.ok.inj h).2
  | position q' r =>
      refine iff_of_false (fun h => ?_) id
      obtain ⟨hlen, _⟩ := ht
      obtain ⟨leaf, hleaf, _, hend⟩ := ho
      rw [List.nil_append] at hleaf hend
      cases hsub : subassignHelper convert leaf b r with
      | error e =>
          rw [hsub] at hend
          exact ne_ok_of_ends hend h
      | ok y =>
          rw [hsub] at hend
          simp only at hend
          have hfit : fitted convert leaf b r = some y := by rw [subassignHelper_eq, hsub]; rfl
          rw [hend] at h
          refine put_ne_append hlen hleaf hw ?_ (Outcome.ok.inj h).2
          rw [(fitted_isList convert hfit).2]
          exact Nat.zero_le _
  | fresh q' s' =>
      obtain ⟨hlen, _⟩ := ht
      obtain ⟨w', ns', hw', ho⟩ := ho
      rw [List.nil_append] at hw' ho
      rw [ho, Outcome.ok.injEq]
      constructor
      · intro h
        cases put_eq_put hlen hw' hw h.2 with
        | inl hsame =>
            obtain ⟨rfl, heq⟩ := hsame
            obtain ⟨rfl, rfl⟩ := list.inj (Option.some.inj (hw.symm.trans hw'))
            exact ⟨rfl, (addName_inj (list.inj heq).2).symm⟩
        | inr hself =>
            have := congrArg List.length (list.inj hself.2).1
            rw [List.length_append] at this
            exact absurd this (by simp)
      · rintro ⟨rfl, rfl⟩
        obtain ⟨rfl, rfl⟩ := list.inj (Option.some.inj (hw.symm.trans hw'))
        exact ⟨rfl, rfl⟩
  | nowhere =>
      obtain ⟨e, he⟩ := ho
      exact iff_of_false (fun h => by cases he.symm.trans h) id
  | outside => exact iff_of_false (fun h => by cases Eq.trans (Eq.symm ho) h) id

/-- Where the path leads nowhere. -/
theorem nowhere_iff {v : List (Value K El)} {names : List String} {i : Index} {b : Value K El}
    {t : Target} {o : Outcome Exn (Value K El) Unit} (ho : Ends convert v names i b [] o t) :
    (∃ e, o = .throw e (list v names)) ↔ Agree convert (list v names) b i .nowhere t := by
  cases t with
  | element q =>
      refine iff_of_false (fun h => ?_) id
      obtain ⟨e, he⟩ := h
      exact nomatch he.symm.trans ho
  | position q p =>
      obtain ⟨leaf, hleaf, _, hend⟩ := ho
      rw [List.nil_append] at hleaf hend
      have hfit := subassignHelper_eq convert leaf b p
      cases hsub : subassignHelper convert leaf b p with
      | error e =>
          rw [hsub] at hend hfit
          by_cases hout : lastName i p leaf = .outside
          · refine iff_of_false (fun h => ?_) fun h => (h leaf hleaf).2 hout
            obtain ⟨e, he⟩ := h
            exact nomatch he.symm.trans ((if_pos hout).mp hend)
          · refine iff_of_true ((if_neg hout).mp hend) fun leaf' hleaf' => ?_
            obtain rfl : leaf = leaf' := Option.some.inj (hleaf.symm.trans hleaf')
            exact ⟨hfit, hout⟩
      | ok y =>
          rw [hsub] at hend hfit
          refine iff_of_false (fun h => ?_) fun h => ?_
          · obtain ⟨e, he⟩ := h
            exact nomatch he.symm.trans hend
          · exact nomatch hfit.symm.trans (h leaf hleaf).1
  | fresh q s =>
      refine iff_of_false (fun h => ?_) id
      obtain ⟨e, he⟩ := h
      obtain ⟨w, ns, _, ho⟩ := ho
      exact nomatch he.symm.trans ho
  | nowhere => exact iff_of_true ho trivial
  | outside =>
      refine iff_of_false (fun h => ?_) id
      obtain ⟨e, he⟩ := h
      exact nomatch he.symm.trans ho

/-- What a vector becomes is the value itself only when both have one element. -/
theorem fitted_self {leaf b : Value K El} {p : Nat} (h : fitted convert leaf b p = some b) :
    ∃ k y z, leaf = atom k [y] ∧ b = atom k [z] := by
  cases leaf with
  | null => cases h
  | list v names => cases h
  | atom k v =>
      match b, h with
      | atom k' [z], h =>
          rw [fitted] at h
          split at h
          · obtain ⟨z', -, heq⟩ := Option.map_eq_some_iff.mp h
            rw [atom.injEq] at heq
            obtain ⟨rfl, heq⟩ := heq
            have hlen := congrArg List.length (eq_of_heq heq)
            rw [List.length_set] at hlen
            obtain ⟨y, rfl⟩ := List.length_eq_one_iff.mp hlen
            exact ⟨k, y, z, rfl, rfl⟩
          · cases h

theorem fitted_single (hconvert : ∀ k y, convert k k y = some y) {k : K} {y z : El k} {p : Nat}
    {x : Value K El} (h : fitted convert (atom k [y]) (atom k [z]) p = some x) :
    x = atom k [z] := by
  rw [fitted, hconvert] at h
  split at h
  · obtain rfl : p = 0 := Nat.lt_one_iff.mp ‹_›
    exact (Option.some.inj h).symm
  · cases h

/-- Where the path leads to a position of a vector. -/
theorem position_iff (hconvert : ∀ k y, convert k k y = some y) {v : List (Value K El)}
    {names : List String} {vi : List Nat} {b : Value K El} {q : List Nat} {p : Nat} {t : Target}
    {o : Outcome Exn (Value K El) Unit}
    (ho : Ends convert v names (.int vi) b [] o (.position q p)) :
    Meets (list v names) o (effect convert (list v names) b (.position q p)) ↔
      Agree convert (list v names) b (.int vi) (.position q p) t := by
  obtain ⟨leaf, hleaf, hlist, hend⟩ := ho
  rw [List.nil_append] at hleaf hend
  have hagree : Agree convert (list v names) b (.int vi) (.position q p) t ↔
      ((fitted convert leaf b p).isSome → ∃ k y z, leaf = atom k [y] ∧ b = atom k [z]) := by
    refine ⟨fun h => h leaf hleaf, fun h leaf' hleaf' => ?_⟩
    obtain rfl : leaf = leaf' := Option.some.inj (hleaf.symm.trans hleaf')
    exact h
  rw [hagree, effect, hleaf, Option.bind_some]
  have hfit := subassignHelper_eq convert leaf b p
  cases hsub : subassignHelper convert leaf b p with
  | error e =>
      rw [hsub] at hend hfit
      rw [hfit]
      exact iff_of_true ((if_neg (fun h => by cases h)).mp hend) fun h => by cases h
  | ok y =>
      rw [hsub] at hend hfit
      have hfit : fitted convert leaf b p = some y := hfit
      rw [hfit, Option.map_some, Meets, hend, Outcome.ok.injEq]
      constructor
      · rintro ⟨-, hput⟩ -
        have hby : b = y := by
          have hget := get?_put (y := b) hleaf
          rw [hput, get?_put hleaf] at hget
          exact (Option.some.inj hget).symm
        exact fitted_self convert (hfit.trans (congrArg some hby.symm))
      · intro h
        obtain ⟨k, z, z', rfl, rfl⟩ := h rfl
        rw [fitted_single convert hconvert hfit]
        exact ⟨rfl, rfl⟩

theorem under_eq_outside {n : Nat} {t : Target} (h : t.under n = .outside) : t = .outside := by
  cases t <;> first | rfl | cases h

theorem under_eq_position {n p : Nat} {t : Target} {q : List Nat}
    (h : t.under n = .position q p) : ∃ q', t = .position q' p := by
  cases t <;> first | exact ⟨_, congrArg _ (Target.position.inj h).2⟩ | cases h

theorem under_ne_nowhere {n : Nat} {t : Target} (h : t.under n ≠ .nowhere) : t ≠ .nowhere := by
  rintro rfl
  exact h rfl

theorem own_ne_outside (x : Value K El) (ks : List Key) : own x ks ≠ .outside := by
  induction ks generalizing x with
  | nil => nofun
  | cons k ks ih =>
      rcases own_cons x k ks with h | ⟨_, _, _, _, _, _, h⟩ | ⟨_, _, _, _, h⟩ |
        ⟨_, _, n, y, _, _, _, h⟩
      · rw [h]; nofun
      · rw [h]; nofun
      · rw [h]; nofun
      · rw [h]
        intro hout
        have hout := under_eq_outside hout
        split at hout
        · cases hout
        · exact ih y hout

theorem own_names_ne {x : Value K El} {ss : List String} {q : List Nat} {p : Nat} :
    own x (ss.map .name) ≠ .position q p := by
  induction ss generalizing x q with
  | nil => nofun
  | cons s ss ih =>
      rw [List.map_cons]
      rcases own_cons x (.name s) (ss.map .name) with h | ⟨_, _, _, _, _, _, h⟩ |
        ⟨_, _, hk, _⟩ | ⟨_, _, n, y, _, _, _, h⟩
      · rw [h]; nofun
      · rw [h]; nofun
      · cases hk
      · rw [h]
        intro hpos
        obtain ⟨q', hq'⟩ := under_eq_position hpos
        split at hq'
        · cases hq'
        · exact ih hq'

/-- For positions there is only one way to go down. -/
theorem byTop_int {names : List String} {vi ns : List Nat} {x : Value K El} {iv : Nat}
    {t : Target} (h : own x (ns.map .pos) = t) (ht : t ≠ .nowhere) :
    byTop names (.int vi) x iv (ns.map .pos) = t := by
  induction ns generalizing x iv t with
  | nil => exact h
  | cons n ns ih =>
      rw [List.map_cons] at h ⊢
      have hk : ∀ names, (Key.pos n).place names = some n := fun _ => rfl
      subst h
      cases x with
      | null => cases ns <;> rfl
      | atom k w => cases ns <;> rfl
      | list v names' =>
          rw [own_some (hk _)] at ht ⊢
          cases hn : v[n]? with
          | none =>
              rw [hn] at ht
              exact absurd rfl ht
          | some y =>
              rw [hn, Option.map_some, Option.getD_some] at ht
              have hlen := (List.getElem?_eq_some_iff.mp hn).1
              rw [byTop, hk, Option.map_some, Option.getD_some]
              simp only [hn]
              rw [if_neg (by omega)]
              split
              · rfl
              · next hns =>
                  rw [if_neg hns] at ht
                  rw [ih rfl (under_ne_nowhere ht)]

/-- The first step is one in the outermost list. -/
theorem byTop_single {v : List (Value K El)} {names : List String} {i : Index} {iv : Nat} {k : Key}
    {q : List Nat} (h : own (list v names) [k] = .element q) :
    byTop names i (list v names) iv [k] = .element q := by
  rcases own_cons (list v names) k [] with h' | ⟨_, _, _, _, _, _, h'⟩ | ⟨_, _, _, _, h'⟩ |
    ⟨_, _, n, y, heq, hk, hn, h'⟩
  · cases h'.symm.trans h
  · cases h'.symm.trans h
  · cases h'.symm.trans h
  · obtain ⟨rfl, rfl⟩ := list.inj heq
    have hlen := (List.getElem?_eq_some_iff.mp hn).1
    rw [← h, h', byTop, hk]
    simp only [hn]
    rw [if_neg (by omega)]
    rfl

/-- A vector of one number. -/
def num (n : Nat) : Value Unit fun _ => Nat := atom () [n]

end Ztsdb.Lang.DblAssign
