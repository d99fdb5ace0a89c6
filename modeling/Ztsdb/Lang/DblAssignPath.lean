import Mathlib
import Ztsdb.Lang.DblAssign

/-!
# Where a path leads

The walk through a path ends where the path leads when every name is looked up in the outermost
list. There, an element is overwritten, or a missing last name is added; a value without content
removes an element of the outermost list. Reading through the same path finds what was written.
-/

namespace Ztsdb.Lang.DblAssign

open Ztsdb.Lib Ztsdb.Lib.Outcome Value

variable {K : Type} {El : K → Type} (convert : (k k' : K) → El k' → Option (El k))

/-! ## Where a path leads -/

inductive Key where
  | pos (n : Nat)
  | name (s : String)

def Key.place (names : List String) : Key → Option Nat
  | pos n => some n
  | name s => DblAssign.place names s

def Index.keys : Index → List Key
  | int vi => vi.map .pos
  | names vs => vs.map .name

/-- An element of a list, a position of what is no list, a name that a list does not have. -/
inductive Target where
  | element (q : List Nat)
  | position (q : List Nat) (p : Nat)
  | fresh (q : List Nat) (s : String)
  | nowhere
  | outside
deriving DecidableEq

def Target.under (n : Nat) : Target → Target
  | element q => element (n :: q)
  | position q p => position (n :: q) p
  | fresh q s => fresh (n :: q) s
  | t => t

/-- Where a path leads when each name is looked up in its own list. -/
def own : Value K El → List Key → Target
  | _, [] => .nowhere
  | x, k :: ks =>
    match x with
    | list v names =>
      match k.place names with
      | some n =>
        match v[n]? with
        | some y => (if ks = [] then .element [] else own y ks).under n
        | none => .nowhere
      | none =>
        match k, ks with
        | .name s, [] => .fresh [] s
        | _, _ => .nowhere
    | _ =>
      match k, ks with
      | .pos p, [] => .position [] p
      | _, _ => .nowhere

/-- What the handler makes of the last name, in `x`. -/
def lastName (i : Index) (iv : Nat) (x : Value K El) : Target :=
  match i with
  | .int _ => .nowhere
  | .names vs =>
    match vs[iv]?, x with
    | none, _ => .outside
    | some s, list _ _ => .fresh [] s
    | some _, _ => .nowhere

/-- Where a path leads when the names are looked up in `names`, from `x` on; `iv` is the place
that was found last. -/
def byTop (names : List String) (i : Index) : Value K El → Nat → List Key → Target
  | _, _, [] => .nowhere
  | x, iv, k :: ks =>
    match k.place names with
    | none => if ks = [] then lastName i iv x else .nowhere
    | some n =>
      match x with
      | list v _ =>
        if v.length = 0 then .outside
        else
          match v[n]? with
          | some y => (if ks = [] then .element [] else byTop names i y n ks).under n
          | none => if ks = [] then lastName i n x else .nowhere
      | _ => if ks = [] then .position [] n else .nowhere

theorem own_some {v : List (Value K El)} {names : List String} {k : Key} {ks : List Key} {n : Nat}
    (hk : k.place names = some n) :
    own (list v names) (k :: ks) =
      ((v[n]?).map fun y => (if ks = [] then .element [] else own y ks).under n).getD .nowhere := by
  rw [own.eq_def]
  simp only [hk]
  cases v[n]? <;> rfl

/-- What the first key of a path can lead to. -/
theorem own_cons (x : Value K El) (k : Key) (ks : List Key) :
    own x (k :: ks) = .nowhere ∨
      (∃ v names s, x = list v names ∧ k = .name s ∧ ks = [] ∧
        own x (k :: ks) = .fresh [] s) ∨
      (∃ p, x.isList = false ∧ k = .pos p ∧ ks = [] ∧ own x (k :: ks) = .position [] p) ∨
      ∃ v names n y, x = list v names ∧ k.place names = some n ∧ v[n]? = some y ∧
        own x (k :: ks) = (if ks = [] then .element [] else own y ks).under n := by
  cases hx : x.isList with
  | false =>
      cases k with
      | name s => exact .inl (by cases x <;> first | rfl | cases hx)
      | pos p =>
          cases ks with
          | nil =>
              refine .inr (.inr (.inl ⟨p, rfl, rfl, rfl, ?_⟩))
              cases x <;> first | rfl | cases hx
          | cons k' ks => exact .inl (by cases x <;> first | rfl | cases hx)
  | true =>
      cases x with
      | null => cases hx
      | atom k' v => cases hx
      | list v names =>
          cases hk : k.place names with
          | none =>
              rw [own.eq_def]
              simp only [hk]
              cases k with
              | pos n => cases hk
              | name s =>
                  cases ks with
                  | nil => exact .inr (.inl ⟨v, names, s, rfl, rfl, rfl, rfl⟩)
                  | cons k' ks => exact .inl rfl
          | some n =>
              rw [own_some hk]
              cases hn : v[n]? with
              | none => exact .inl rfl
              | some y => exact .inr (.inr (.inr ⟨v, names, n, y, rfl, hk, hn, rfl⟩))

theorem byTop_leaf {names : List String} {i : Index} {y : Value K El} {iv n : Nat} {k : Key}
    {ks : List Key} (h : y.isList = false) (hk : k.place names = some n) :
    byTop names i y iv (k :: ks) = if ks = [] then .position [] n else .nowhere := by
  rw [byTop, hk]
  cases y with
  | null => rfl
  | atom k w => rfl
  | list w ns => cases h

/-! ## Pointers -/

namespace Value

theorem get?_append {x : Value K El} {a q : List Nat} :
    x.get? (a ++ q) = (x.get? a).bind fun y => y.get? q := by
  induction a generalizing x with
  | nil => rw [List.nil_append, get?, Option.bind_some]
  | cons n a ih =>
      cases x with
      | list v names =>
          rw [List.cons_append, get?, get?]
          cases v[n]? with
          | none => rfl
          | some y => exact ih
      | null => rfl
      | atom k v => rfl

theorem put_put {x y z : Value K El} {a : List Nat} : (x.put a y).put a z = x.put a z := by
  induction a generalizing x with
  | nil => rfl
  | cons n a ih =>
      cases x with
      | list v names =>
          rw [put]
          cases hn : v[n]? with
          | none => simp only [put, hn]
          | some w =>
              simp only
              rw [put, List.getElem?_set_self (List.getElem?_eq_some_iff.mp hn).1]
              simp only
              rw [put, hn]
              simp only
              rw [List.set_set, ih]
      | null => rfl
      | atom k v => rfl

theorem get?_put {x y z : Value K El} {a : List Nat} (h : x.get? a = some z) :
    (x.put a y).get? a = some y := by
  induction a generalizing x with
  | nil => rfl
  | cons n a ih =>
      cases x with
      | list v names =>
          rw [get?] at h
          obtain ⟨w, hw, hz⟩ := Option.bind_eq_some_iff.mp h
          rw [put, hw]
          simp only
          rw [get?, List.getElem?_set_self (List.getElem?_eq_some_iff.mp hw).1]
          exact ih hz
      | null => cases h
      | atom k v => cases h

end Value

/-! ## The run -/

/-- How a run ends that has gone to `a` and leads to a target from there. -/
def Ends (v : List (Value K El)) (names : List String) (i : Index) (b : Value K El)
    (a : List Nat) (o : Outcome Exn (Value K El) Unit) : Target → Prop
  | .element q =>
    o = .ok () (if b.isNull then remove ((a ++ q).getLast?.getD 0) v names
      else (list v names).put (a ++ q) b)
  | .position q p => ∃ leaf, (list v names).get? (a ++ q) = some leaf ∧ leaf.isList = false ∧
    match subassignHelper convert leaf b p with
    | .ok _ => o = .ok () ((list v names).put (a ++ q) b)
    | .error _ => if lastName i p leaf = .outside then o = .fault
        else ∃ e, o = .throw e (list v names)
  | .fresh q s => ∃ w ns, (list v names).get? (a ++ q) = some (list w ns) ∧
    o = .ok () ((list v names).put (a ++ q) (list (w ++ [b]) (addName w.length s ns)))
  | .nowhere => ∃ e, o = .throw e (list v names)
  | .outside => o = .fault

theorem Ends.under {v : List (Value K El)} {names : List String} {i : Index} {b : Value K El}
    {a : List Nat} {n : Nat} {o : Outcome Exn (Value K El) Unit} {t : Target}
    (h : Ends convert v names i b (a ++ [n]) o t) :
    Ends convert v names i b a o (t.under n) := by
  cases t <;> simpa only [Ends, Target.under, List.append_assoc, List.cons_append,
    List.nil_append] using h

/-- The rest of the run, with the handler. -/
def finish (names : List String) (i : Index) (b : Value K El) (k : Nat) (s : St K El) :
    Outcome Exn (Value K El) Unit :=
  (((descend convert names i b k s).bind fun _ s => write b s).tryCatch fun _ s =>
    extend i b s).mapState St.val

theorem next_eq (names : List String) {i : Index} {u : Nat} {k : Key} {ks : List Key}
    (h : i.keys.drop u = k :: ks) :
    (∀ n, k.place names = some n → i.next names u = .ok (some n)) ∧
      (k.place names = none → ∃ e, i.next names u = .error e) := by
  have hget : i.keys[u]? = some k := by
    have := congrArg (fun l => l[0]?) h
    simpa using this
  cases i with
  | int vi =>
      rw [Index.keys, List.getElem?_map] at hget
      obtain ⟨n, hn, rfl⟩ := Option.map_eq_some_iff.mp hget
      refine ⟨fun m hm => ?_, nofun⟩
      rw [Index.next, hn]
      exact congrArg Except.ok hm
  | names vs =>
      rw [Index.keys, List.getElem?_map] at hget
      obtain ⟨s, hs, rfl⟩ := Option.map_eq_some_iff.mp hget
      refine ⟨fun m hm => ?_, fun hm => ?_⟩
      · rw [Index.next, hs]
        simp only
        rw [show place names s = some m from hm]
      · rw [Index.next, hs]
        simp only
        rw [show place names s = none from hm]
        exact ⟨_, rfl⟩

theorem length_keys (i : Index) : i.keys.length = i.size := by
  cases i <;> rw [Index.keys, List.length_map, Index.size]

/-- The last key of a path is the one the handler asks about. -/
theorem size_eq_iff {i : Index} {u : Nat} {k : Key} {ks : List Key} (h : i.keys.drop u = k :: ks) :
    u + 1 = i.size ↔ ks = [] := by
  have hlen := congrArg List.length h
  rw [List.length_drop, length_keys, List.length_cons] at hlen
  rw [← List.length_eq_zero_iff]
  omega

/-- The handler, where the run stopped. -/
theorem extend_spec {v : List (Value K El)} {y : Value K El} {names : List String} {i : Index}
    {b : Value K El} {s : St K El} {k : Key} {ks : List Key} (hx : s.val = list v names)
    (hy : (list v names).get? s.a = some y) (hks : i.keys.drop s.u = k :: ks) :
    Ends convert v names i b s.a ((extend i b s).mapState St.val)
      (if ks = [] then lastName i s.iv y else .nowhere) := by
  have hlast := size_eq_iff hks
  cases i with
  | int vi =>
      have hnowhere : (if ks = [] then lastName (.int vi) s.iv y else Target.nowhere) =
          .nowhere := by split <;> rfl
      rw [hnowhere, extend]
      exact ⟨_, congrArg (Outcome.throw _) hx⟩
  | names vs =>
      have hlast : s.u + 1 = vs.length ↔ ks = [] := hlast
      rw [extend]
      by_cases h : ks = []
      · rw [if_pos h, if_pos (hlast.mpr h), hx, hy]
        simp only [lastName]
        cases vs[s.iv]? with
        | none => exact rfl
        | some name =>
            cases y with
            | list w ns => exact ⟨w, ns, by rw [List.append_nil]; exact hy, by
                rw [List.append_nil]; rfl⟩
            | null => exact ⟨_, congrArg (Outcome.throw _) hx⟩
            | atom k w => exact ⟨_, congrArg (Outcome.throw _) hx⟩
      · rw [if_neg h, if_neg fun h' => h (hlast.mp h')]
        exact ⟨_, congrArg (Outcome.throw _) hx⟩

theorem lastName_leaf {i : Index} {p : Nat} {y : Value K El} (h : y.isList = false) :
    lastName i p y = .outside ∨ lastName i p y = .nowhere := by
  cases i with
  | int vi => exact .inr rfl
  | names vs =>
      simp only [lastName]
      cases vs[p]? with
      | none => exact .inl rfl
      | some s =>
          cases y with
          | list w ns => cases h
          | null => exact .inr rfl
          | atom k w => exact .inr rfl

/-- The round at the last step, on a value that is no list. -/
theorem round_throws {y : Value K El} {i : Index} {b : Value K El} {s : St K El} {n : Nat}
    {e : Exn} (hy : s.val.get? s.a = some y) (hleaf : y.isList = false)
    (hlast : s.u = i.size - 1) (h : subassignHelper convert y b n = .error e) :
    round convert i b n s = .throw e { s with iv := n } := by
  rw [round, hy]
  cases y with
  | list w ns => cases hleaf
  | null => simp only [if_pos hlast, h]
  | atom k w => simp only [if_pos hlast, h]

theorem round_writes {y z : Value K El} {i : Index} {b : Value K El} {s : St K El} {n : Nat}
    (hy : s.val.get? s.a = some y) (hleaf : y.isList = false) (hlast : s.u = i.size - 1)
    (h : subassignHelper convert y b n = .ok z) :
    round convert i b n s = .ok () { s with val := s.val.put s.a z, iv := n } := by
  rw [round, hy]
  cases y with
  | list w ns => cases hleaf
  | null => simp only [if_pos hlast, h]
  | atom k w => simp only [if_pos hlast, h]

/-- A leaf is assigned, and then overwritten. -/
theorem leaf_spec {v : List (Value K El)} {y : Value K El} {names : List String} {i : Index}
    {b : Value K El} {s : St K El} {k : Key} {n : Nat} (hx : s.val = list v names)
    (hy : (list v names).get? s.a = some y) (hleaf : y.isList = false)
    (hks : i.keys.drop s.u = [k]) :
    Ends convert v names i b s.a
      (((((round convert i b n s).bind fun _ s => .ok () { s with u := s.u + 1 }).bind
        fun _ s => write b s).tryCatch fun _ s => extend i b s).mapState St.val)
      (.position [] n) := by
  have hlast : s.u = i.size - 1 := by
    have := (size_eq_iff hks).mpr rfl
    omega
  refine ⟨y, by rw [List.append_nil]; exact hy, hleaf, ?_⟩
  rw [List.append_nil]
  rw [← hx] at hy
  cases hsub : subassignHelper convert y b n with
  | error e =>
      have hget := hy
      rw [hx] at hget
      have h := extend_spec convert (b := b) (s := { s with iv := n }) hx hget hks
      rw [if_pos rfl] at h
      simp only [round_throws convert hy hleaf hlast hsub, bind_throw, tryCatch_throw]
      cases lastName_leaf (i := i) (p := n) hleaf with
      | inl hout =>
          rw [hout] at h
          exact (if_pos hout).mpr h
      | inr hno =>
          rw [hno] at h
          exact (if_neg (by rw [hno]; exact fun h => by cases h)).mpr h
  | ok leaf =>
      have hb : b.isNull = false := by
        cases b with
        | null => cases y <;> cases hsub
        | atom k w => rfl
        | list w ns => rfl
      simp only [round_writes convert hy hleaf hlast hsub, bind_ok, write, hb, hx, put_put]
      rfl

/-- The rest of a path that has led to `y`. -/
theorem descend_spec {v : List (Value K El)} {names : List String} {i : Index} {b : Value K El}
    {ks : List Key} : ∀ {s : St K El} {y : Value K El}, s.val = list v names →
    (list v names).get? s.a = some y → i.keys.drop s.u = ks →
    (ks = [] → s.a.getLast? = some s.iv) →
    Ends convert v names i b s.a (finish convert names i b ks.length s)
      (if ks = [] then .element [] else byTop names i y s.iv ks) := by
  induction ks with
  | nil =>
      intro s y hx _ _ hiv
      rw [if_pos rfl, finish, List.length_nil, descend, bind_ok, write, hx, Ends,
        List.append_nil, hiv rfl, Option.getD_some]
      cases b.isNull <;> rfl
  | cons k ks ih =>
      intro ⟨x, a, iv, u⟩ y hx hy hks _
      obtain rfl : x = list v names := hx
      have hks : i.keys.drop u = k :: ks := hks
      have hnext := next_eq names hks
      have hdrop : i.keys.drop (u + 1) = ks := by
        rw [← List.drop_drop, hks, List.drop_one, List.tail_cons]
      rw [if_neg (List.cons_ne_nil k ks), finish, List.length_cons, descend]
      cases hk : k.place names with
      | none =>
          obtain ⟨e, he⟩ := hnext.2 hk
          simp only [he, bind_throw, tryCatch_throw, byTop, hk]
          exact extend_spec convert rfl hy hks
      | some n =>
          simp only [hnext.1 n hk]
          cases hleaf : y.isList with
          | true =>
              cases y with
              | null => cases hleaf
              | atom k w => cases hleaf
              | list w ns =>
                  have hround : round convert i b n ⟨list v names, a, iv, u⟩ =
                      follow n ⟨list v names, a, iv, u⟩ := by rw [round, hy]
                  simp only [hround, follow, hy, byTop, hk]
                  by_cases hempty : w.length = 0
                  · rw [if_pos hempty, if_pos hempty]
                    rfl
                  rw [if_neg hempty, if_neg hempty]
                  cases hn : w[n]? with
                  | none =>
                      rw [if_neg (by rw [List.getElem?_eq_none_iff] at hn; omega)]
                      exact extend_spec convert (s := ⟨list v names, a, n, u⟩) rfl hy hks
                  | some z =>
                      rw [if_pos (List.getElem?_eq_some_iff.mp hn).1]
                      have hz : (list v names).get? (a ++ [n]) = some z := by
                        rw [get?_append, hy, Option.bind_some, get?, hn]
                        rfl
                      exact (ih (s := ⟨list v names, a ++ [n], n, u + 1⟩) rfl hz hdrop
                        fun _ => List.getLast?_concat).under
          | false =>
              rw [byTop_leaf hleaf hk]
              by_cases h : ks = []
              · subst h
                exact leaf_spec convert rfl hy hleaf hks
              · have hround : round convert i b n ⟨list v names, a, iv, u⟩ =
                    .throw (recursiveFailed u) ⟨list v names, a, n, u⟩ := by
                  have hlast : u ≠ i.size - 1 := by
                    have := size_eq_iff hks
                    have := List.length_pos_iff.mpr h
                    have := congrArg List.length hks
                    rw [List.length_drop, length_keys, List.length_cons] at this
                    omega
                  simp only [round, hy]
                  cases y with
                  | null => exact if_neg hlast
                  | atom k w => exact if_neg hlast
                  | list w ns => cases hleaf
                rw [if_neg h, hround]
                have hthrow := extend_spec convert (b := b) (s := ⟨list v names, a, n, u⟩) rfl
                  hy hks
                rwa [if_neg h] at hthrow

/-- The whole assignment ends as the path leads when all names are looked up in the outermost
list. -/
theorem dblsubassign_ends (v : List (Value K El)) (names : List String) (i : Index)
    (b : Value K El) :
    Ends convert v names i b [] (dblsubassignHelper convert v names i b)
      (byTop names i (list v names) 0 i.keys) := by
  cases hks : i.keys with
  | nil =>
      cases i with
      | int vi =>
          cases vi with
          | nil => exact ⟨_, rfl⟩
          | cons n vi => cases hks
      | names vs =>
          cases vs with
          | nil => exact ⟨_, rfl⟩
          | cons s vs => cases hks
  | cons k ks =>
      have hrun : dblsubassignHelper convert v names i b =
          finish convert names i b (k :: ks).length ⟨list v names, [], 0, 0⟩ := by
        have hsize : ks.length = i.size - 1 := by
          rw [← length_keys, hks, List.length_cons, Nat.add_sub_cancel]
        rw [dblsubassignHelper, assignThrough, first, finish, List.length_cons, descend, hsize]
        cases hnext : i.next names 0 with
        | error e => rfl
        | ok o =>
            cases o with
            | none =>
                have hnext' := next_eq names (u := 0) hks
                rw [hnext] at hnext'
                cases hk : k.place names with
                | none => obtain ⟨e, he⟩ := hnext'.2 hk; cases he
                | some n => cases hnext'.1 n hk
            | some n =>
                have hround : round convert i b n ⟨list v names, [], 0, 0⟩ =
                    follow n ⟨list v names, [], 0, 0⟩ := rfl
                simp only [bind_assoc, hround, follow, get?]
                by_cases hempty : v.length = 0
                · rw [if_pos hempty]
                  rfl
                rw [if_neg hempty]
                by_cases hn : n < v.length
                · rw [if_pos hn]
                  rfl
                · rw [if_neg hn]
                  rfl
      rw [hrun]
      have h := descend_spec convert (b := b) (s := ⟨list v names, [], 0, 0⟩) rfl rfl hks nofun
      rwa [if_neg (List.cons_ne_nil k ks)] at h

/-! ## Reading back -/

theorem under_eq_element {n : Nat} {t : Target} {q : List Nat} (h : t.under n = .element q) :
    ∃ q', t = .element q' ∧ q = n :: q' := by
  cases t <;> first | exact ⟨_, rfl, (Target.element.inj h).symm⟩ | cases h

theorem lastName_ne_element {i : Index} {iv : Nat} {x : Value K El} {q : List Nat} :
    lastName i iv x ≠ .element q := by
  cases i with
  | int vi => nofun
  | names vs =>
      simp only [lastName]
      cases vs[iv]? with
      | none => nofun
      | some s => cases x <;> nofun

/-- A path that leads to an element goes through lists. -/
theorem byTop_element {names : List String} {i : Index} {y : Value K El} {iv : Nat} {k : Key}
    {ks : List Key} {q : List Nat} (h : byTop names i y iv (k :: ks) = .element q) :
    ∃ v ns n z q', y = list v ns ∧ k.place names = some n ∧ v[n]? = some z ∧ q = n :: q' ∧
      if ks = [] then q' = [] else byTop names i z n ks = .element q' := by
  cases hk : k.place names with
  | none =>
      rw [byTop, hk] at h
      simp only at h
      split at h
      · exact absurd h lastName_ne_element
      · cases h
  | some n =>
      cases y with
      | null => rw [byTop_leaf rfl hk] at h; split at h <;> cases h
      | atom k' w => rw [byTop_leaf rfl hk] at h; split at h <;> cases h
      | list v ns =>
          rw [byTop, hk] at h
          simp only at h
          by_cases hempty : v.length = 0
          · rw [if_pos hempty] at h
            cases h
          rw [if_neg hempty] at h
          cases hn : v[n]? with
          | none =>
              rw [hn] at h
              simp only at h
              split at h
              · exact absurd h lastName_ne_element
              · cases h
          | some z =>
              rw [hn] at h
              simp only at h
              by_cases hks : ks = []
              · rw [if_pos hks] at h
                obtain rfl := Target.element.inj h
                exact ⟨v, ns, n, z, [], rfl, rfl, hn, rfl, (if_pos hks).mpr rfl⟩
              · rw [if_neg hks] at h
                obtain ⟨q', hq', rfl⟩ := under_eq_element h
                exact ⟨v, ns, n, z, q', rfl, rfl, hn, rfl, (if_neg hks).mpr hq'⟩

/-- The path to an element stays what it is when the element changes. -/
theorem byTop_put {names : List String} {i : Index} {b : Value K El} {ks : List Key} :
    ∀ {y : Value K El} {iv : Nat} {q : List Nat}, byTop names i y iv ks = .element q →
    byTop names i (y.put q b) iv ks = .element q := by
  induction ks with
  | nil => nofun
  | cons k ks ih =>
      intro y iv q h
      obtain ⟨v, ns, n, z, q', rfl, hk, hn, rfl, hq'⟩ := byTop_element h
      have hlt := (List.getElem?_eq_some_iff.mp hn).1
      rw [put, hn]
      simp only [byTop, hk, List.length_set, List.getElem?_set_self hlt]
      rw [if_neg (by omega)]
      by_cases hks : ks = []
      · rw [if_pos hks] at hq' ⊢
        rw [hq']
        rfl
      · rw [if_neg hks] at hq' ⊢
        rw [ih hq']
        rfl

/-- The rest of a path that leads to an element reads it. -/
theorem readFrom_spec {names : List String} {i : Index} {ks : List Key} :
    ∀ {y : Value K El} {iv u : Nat} {q : List Nat}, i.keys.drop u = ks →
    byTop names i y iv ks = .element q →
    ∃ z, y.get? q = some z ∧ readFrom names i ks.length u y = .ok z () := by
  induction ks with
  | nil => nofun
  | cons k ks ih =>
      intro y iv u q hks hq
      have hdrop : i.keys.drop (u + 1) = ks := by
        rw [← List.drop_drop, hks, List.drop_one, List.tail_cons]
      obtain ⟨v, ns, n, z, q', rfl, hk, hn, rfl, hq'⟩ := byTop_element hq
      have hlt := (List.getElem?_eq_some_iff.mp hn).1
      rw [get?, hn, Option.bind_some, List.length_cons, readFrom, (next_eq names hks).1 n hk]
      simp only [atPlace, hn]
      rw [if_neg (by omega)]
      by_cases hnil : ks = []
      · rw [if_pos hnil] at hq'
        subst hnil hq'
        exact ⟨z, rfl, rfl⟩
      · rw [if_neg hnil] at hq'
        exact ih hdrop hq'

theorem dblsubsetHelper_spec {v : List (Value K El)} {names : List String} {i : Index}
    {q : List Nat} (h : byTop names i (list v names) 0 i.keys = .element q) :
    ∃ z, (list v names).get? q = some z ∧ dblsubsetHelper v names i = .ok z () := by
  cases hks : i.keys with
  | nil => rw [hks] at h; cases h
  | cons k ks =>
      rw [hks] at h
      obtain ⟨z, hz, hread⟩ := readFrom_spec (u := 0) hks h
      have hsize : ks.length = i.size - 1 := by
        rw [← length_keys, hks, List.length_cons, Nat.add_sub_cancel]
      obtain ⟨_, _, n, _, _, _, hk, _⟩ := byTop_element h
      refine ⟨z, hz, ?_⟩
      rw [← hread, dblsubsetHelper, List.length_cons, readFrom, hsize,
        (next_eq names (u := 0) hks).1 n hk]

/-- Reading through the same path finds the value. -/
theorem dblsubset_dblsubassign {v : List (Value K El)} {names : List String} {i : Index}
    {b : Value K El} {q : List Nat} (hb : b.isNull = false)
    (h : byTop names i (list v names) 0 i.keys = .element q) :
    ∃ v', dblsubassignHelper convert v names i b = .ok () (list v' names) ∧
      dblsubsetHelper v' names i = .ok b () := by
  have hends := dblsubassign_ends convert v names i b
  rw [h] at hends
  simp only [Ends, hb, List.nil_append, Bool.false_eq_true, if_false] at hends
  have hput := byTop_put (b := b) h
  obtain ⟨z, hz, -⟩ := dblsubsetHelper_spec h
  have hb' := get?_put (y := b) hz
  obtain ⟨k, ks, hks⟩ : ∃ k ks, i.keys = k :: ks := by
    cases hks : i.keys with
    | nil => rw [hks] at h; cases h
    | cons k ks => exact ⟨k, ks, rfl⟩
  obtain ⟨_, _, n, y, q', heq, _, hn, rfl, _⟩ := byTop_element (hks ▸ h)
  obtain ⟨rfl, rfl⟩ := list.inj heq
  rw [put, hn] at hends hput hb'
  obtain ⟨z', hz', hread⟩ := dblsubsetHelper_spec hput
  obtain rfl : z' = b := Option.some.inj (hz'.symm.trans hb')
  exact ⟨_, hends, hread⟩

end Ztsdb.Lang.DblAssign
