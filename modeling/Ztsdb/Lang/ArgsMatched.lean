import Mathlib
import Ztsdb.Lang.ArgsSpec

/-!
# Every argument is used once

When no formal argument is named twice, the writes of the three steps are put together: a slot
holds what its formal argument is bound to, and the arguments of the ellipsis are those that no
formal one gets.
-/

namespace Ztsdb.Lang.Args

open E Interp Ztsdb.Lib Ztsdb.Lib.Outcome

section Matched

variable {fargs aargs : List E}

/-! ## Before the first step, and after it -/

theorem length_places (h : Formals fargs) :
    (places fargs).length = if 0 ≤ ellipsisAt fargs then fargs.length - 1 else fargs.length := by
  cases hp : fargs.findIdx? isEllipsis with
  | none =>
      have hat : ellipsisAt fargs = -1 := by rw [ellipsisAt, hp]; rfl
      rw [places_of_none hp, List.length_range, hat, if_neg (by decide)]
  | some p =>
      have hat : ellipsisAt fargs = p := by rw [ellipsisAt, hp]; rfl
      obtain ⟨hlt, -⟩ := List.findIdx?_eq_some_iff_getElem.mp hp
      rw [places_eq h hp, List.length_append, List.length_range, List.length_range', hat,
        if_pos (Int.natCast_nonneg p)]
      omega

theorem usedAfter_nil (h : Formals fargs) : usedAfter fargs [] aargs =
    { ufargs := List.replicate fargs.length false
      ugargs := List.replicate aargs.length false
      res := List.replicate
        (if 0 ≤ ellipsisAt fargs then fargs.length - 1 else fargs.length) none } := by
  have hnone : namedInfo fargs [] = fun _ => none := by
    funext i
    rw [namedInfo, List.find?_nil]
    cases fargs[i]? <;> rfl
  rw [usedAfter, hnone, ← length_places h, List.map_const', List.map_const', List.length_range]
  rfl

/-- The actual arguments that name nothing. -/
def unclaimed (fargs aargs : List E) : List Nat :=
  (List.range aargs.length).filter fun k => (aargs[k]?).bind (named fargs) = none

theorem unusedFrom_ufargs : unusedFrom (usedAfter fargs aargs []).ufargs 0 = unnamed fargs aargs := by
  have hlen : (usedAfter fargs aargs []).ufargs.length = fargs.length := by
    rw [usedAfter, List.length_map, List.length_range]
  rw [unusedFrom, hlen, Nat.sub_zero, ← List.range_eq_range', unnamed]
  refine List.filter_congr fun i hi => ?_
  have hlt := List.mem_range.mp hi
  rw [usedAfter, List.getElem?_map, List.getElem?_range hlt, Option.map_some]
  have hiff : ((aargs.any fun a => named fargs a = some i) = true) ↔
      i ∈ aargs.filterMap (named fargs) := by
    rw [List.any_eq_true, List.mem_filterMap]
    simp only [decide_eq_true_eq]
  cases hany : aargs.any fun a => named fargs a = some i with
  | true =>
      rw [(isSome_namedInfo hlt).mpr (hiff.mp hany)]
      rfl
  | false =>
      have hno : (namedInfo fargs aargs i).isSome = false := Bool.eq_false_iff.mpr fun h => by
        rw [hiff.mpr ((isSome_namedInfo hlt).mp h)] at hany
        cases hany
      rw [hno]
      rfl

theorem unusedFrom_ugargs : unusedFrom (usedAfter fargs aargs []).ugargs 0 = unclaimed fargs aargs := by
  have hlen : (usedAfter fargs aargs []).ugargs.length = aargs.length := by
    rw [usedAfter, List.length_append, List.length_map, List.length_replicate, List.length_nil,
      Nat.add_zero]
  rw [unusedFrom, hlen, Nat.sub_zero, ← List.range_eq_range', unclaimed]
  refine List.filter_congr fun k hk => ?_
  have hlt := List.mem_range.mp hk
  rw [usedAfter, List.length_nil, List.replicate_zero, List.append_nil, List.getElem?_map,
    List.getElem?_eq_getElem hlt, Option.map_some, Option.bind_some]
  cases named fargs aargs[k] <;> rfl

/-! ## What names what -/

/-- Without a repetition, an argument that names `i` is the first to do so. -/
theorem findIdx?_named (h : (aargs.filterMap (named fargs)).Nodup) {k i : Nat}
    (hk : (aargs[k]?).bind (named fargs) = some i) :
    (aargs.findIdx? fun a => named fargs a = some i) = some k := by
  obtain ⟨a, ha, hname⟩ := Option.bind_eq_some_iff.mp hk
  obtain ⟨hlt, rfl⟩ := List.getElem?_eq_some_iff.mp ha
  refine List.findIdx?_eq_some_iff_getElem.mpr ⟨hlt, decide_eq_true hname, fun j hj hjname => ?_⟩
  have hpair := List.pairwise_iff_getElem.mp (List.pairwise_filterMap.mp h) j k (by omega) hlt hj
  exact hpair i (of_decide_eq_true hjname) i hname rfl

theorem named_of_findIdx? {k i : Nat}
    (h : (aargs.findIdx? fun a => named fargs a = some i) = some k) :
    (aargs[k]?).bind (named fargs) = some i := by
  obtain ⟨hlt, hname, -⟩ := List.findIdx?_eq_some_iff_getElem.mp h
  rw [List.getElem?_eq_getElem hlt, Option.bind_some]
  exact of_decide_eq_true hname

theorem mem_unnamed {i : Nat} : i ∈ unnamed fargs aargs ↔
    i < fargs.length ∧ (aargs.findIdx? fun a => named fargs a = some i) = none := by
  rw [unnamed, List.mem_filter, List.mem_range, Bool.not_eq_true', List.any_eq_false,
    List.findIdx?_eq_none_iff]
  simp only [Bool.not_eq_true]

theorem nodup_unnamed : (unnamed fargs aargs).Nodup := List.nodup_range.filter _

/-- The pairs of a waiting formal argument and the plain one it takes. -/
def pairs (fargs aargs : List E) : List (Nat × Nat) := (waiting fargs aargs).zip (plain aargs)

theorem prefix_waiting : waiting fargs aargs <+: unnamed fargs aargs := List.takeWhile_prefix _

theorem mem_places_of_waiting {i : Nat} (h : i ∈ waiting fargs aargs) : i ∈ places fargs := by
  have hnot := List.mem_takeWhile_imp (p := fun i => !(fargs[i]?).any isEllipsis) h
  exact List.mem_filter.mpr
    ⟨List.mem_range.mpr (mem_unnamed.mp (prefix_waiting.subset h)).1, hnot⟩

/-! ## The pairs -/

theorem lookup_eq_some_iff {l : List (Nat × Nat)} (h : (l.map Prod.fst).Nodup) {i k : Nat} :
    l.lookup i = some k ↔ (i, k) ∈ l := by
  induction l with
  | nil => exact ⟨nofun, nofun⟩
  | cons p l ih =>
      obtain ⟨j, m⟩ := p
      rw [List.map_cons, List.nodup_cons] at h
      rw [List.lookup_cons, List.mem_cons]
      by_cases hij : i = j
      · subst hij
        rw [beq_self_eq_true]
        simp only
        rw [Option.some.injEq, Prod.mk.injEq]
        constructor
        · exact fun hmk => .inl ⟨rfl, hmk.symm⟩
        · rintro (⟨-, hkm⟩ | hmem)
          · exact hkm.symm
          · exact absurd (List.mem_map.mpr ⟨_, hmem, rfl⟩) h.1
      · rw [beq_false_of_ne hij]
        simp only
        rw [ih h.2]
        refine ⟨.inr, fun h' => h'.resolve_left fun hp => hij (Prod.mk.inj hp).1⟩

theorem map_zip_eq_take (l l' : List Nat) :
    (l.zip l').map Prod.fst = l.take (l.zip l').length ∧
      (l.zip l').map Prod.snd = l'.take (l.zip l').length := by
  have hl : (l.take (min l.length l'.length)).length = (l'.take (min l.length l'.length)).length := by
    rw [List.length_take, List.length_take]
    omega
  rw [List.length_zip, List.zip_eq_zip_take_min]
  exact ⟨List.map_fst_zip hl.le, List.map_snd_zip hl.ge⟩

theorem fst_pairs : (pairs fargs aargs).map Prod.fst =
    (unnamed fargs aargs).take (pairs fargs aargs).length := by
  have hprefix : (pairs fargs aargs).map Prod.fst <+: unnamed fargs aargs := by
    rw [pairs, (map_zip_eq_take _ _).1]
    exact (List.take_prefix _ _).trans prefix_waiting
  have htake := List.prefix_iff_eq_take.mp hprefix
  rwa [List.length_map] at htake

theorem nodup_fst_pairs : ((pairs fargs aargs).map Prod.fst).Nodup := by
  rw [fst_pairs]
  exact nodup_unnamed.sublist (List.take_sublist _ _)

theorem lookup_pairs {i k : Nat} :
    (pairs fargs aargs).lookup i = some k ↔ (i, k) ∈ pairs fargs aargs :=
  lookup_eq_some_iff nodup_fst_pairs

theorem mem_waiting_of_pairs {i k : Nat} (h : (i, k) ∈ pairs fargs aargs) :
    i ∈ waiting fargs aargs := (List.of_mem_zip h).1

theorem mem_plain_of_pairs {i k : Nat} (h : (i, k) ∈ pairs fargs aargs) :
    k ∈ plain aargs := (List.of_mem_zip h).2

/-- Each plain argument is taken once. -/
theorem fst_eq_of_pairs {i j k : Nat} (hi : (i, k) ∈ pairs fargs aargs)
    (hj : (j, k) ∈ pairs fargs aargs) : i = j := by
  have hnodup : ((pairs fargs aargs).map Prod.snd).Nodup := by
    rw [pairs, (map_zip_eq_take _ _).2]
    exact (List.nodup_range.filter _).sublist (List.take_sublist _ _)
  exact (Prod.mk.inj (List.inj_on_of_nodup_map hnodup hi hj rfl)).1

theorem source_eq_some {i k : Nat} : source fargs aargs i = some k ↔
    (aargs.findIdx? fun a => named fargs a = some i) = some k ∨ (i, k) ∈ pairs fargs aargs := by
  rw [source, ← lookup_pairs, pairs]
  cases hidx : aargs.findIdx? fun a => named fargs a = some i with
  | none =>
      rw [Option.none_or]
      exact ⟨.inr, fun h => h.resolve_left nofun⟩
  | some m =>
      rw [Option.some_or]
      refine ⟨.inl, fun h => h.resolve_right fun hpair => ?_⟩
      have hmem := prefix_waiting.subset (mem_waiting_of_pairs (lookup_pairs.mp hpair))
      rw [(mem_unnamed.mp hmem).2] at hidx
      cases hidx

/-- A place without a source is left for its default. -/
theorem source_eq_none {i : Nat} (hi : i ∈ places fargs) : source fargs aargs i = none ↔
    i ∈ (unnamed fargs aargs).drop (pairs fargs aargs).length := by
  have hsplit := List.take_append_drop (pairs fargs aargs).length (unnamed fargs aargs)
  rw [← fst_pairs] at hsplit
  have hnodup : ((pairs fargs aargs).map Prod.fst ++
      (unnamed fargs aargs).drop (pairs fargs aargs).length).Nodup := by
    rw [hsplit]
    exact nodup_unnamed
  constructor
  · intro hnone
    have hidx : (aargs.findIdx? fun a => named fargs a = some i) = none :=
      Option.eq_none_iff_forall_ne_some.mpr fun k hk =>
        absurd (source_eq_some.mpr (.inl hk)) (by rw [hnone]; nofun)
    have hmem : i ∈ unnamed fargs aargs := mem_unnamed.mpr ⟨lt_of_mem_places hi, hidx⟩
    rw [← hsplit, List.mem_append] at hmem
    refine hmem.resolve_left fun hfst => ?_
    obtain ⟨⟨_, k⟩, hp, rfl⟩ := List.mem_map.mp hfst
    have hsome := source_eq_some.mpr (.inr hp)
    rw [hnone] at hsome
    cases hsome
  · intro hmem
    refine Option.eq_none_iff_forall_ne_some.mpr fun k hk => ?_
    rcases source_eq_some.mp hk with hidx | hp
    · rw [(mem_unnamed.mp (List.mem_of_mem_drop hmem)).2] at hidx
      cases hidx
    · exact (List.nodup_append.mp hnodup).2.2 i (List.mem_map.mpr ⟨_, hp, rfl⟩) i hmem rfl

/-! ## The writes -/

theorem settle_of_not_mem {ps : List (Nat × Option ArgInfo)} {φ : Nat → Option ArgInfo} {j : Nat}
    (h : j ∉ ps.map Prod.fst) : settle ps φ j = φ j := by
  induction ps generalizing φ with
  | nil => rfl
  | cons p ps ih =>
      rw [List.map_cons, List.mem_cons, not_or] at h
      exact (ih h.2).trans (Function.update_of_ne h.1 _ _)

theorem settle_of_mem {ps : List (Nat × Option ArgInfo)} {φ : Nat → Option ArgInfo} {j : Nat}
    {x : Option ArgInfo} (hnodup : (ps.map Prod.fst).Nodup) (h : (j, x) ∈ ps) :
    settle ps φ j = x := by
  induction ps generalizing φ with
  | nil => exact absurd h List.not_mem_nil
  | cons p ps ih =>
      rw [List.map_cons, List.nodup_cons] at hnodup
      rcases List.mem_cons.mp h with rfl | h
      · exact (settle_of_not_mem hnodup.1).trans (Function.update_self _ _ _)
      · exact ih hnodup.2 h

theorem plain_eq (ha : Actuals aargs) :
    (unclaimed fargs aargs).filter (fun k => (aargs[k]?).any isPlain) = plain aargs := by
  rw [unclaimed, List.filter_filter, plain]
  refine List.filter_congr fun k hk => ?_
  have hlt := List.mem_range.mp hk
  rw [List.getElem?_eq_getElem hlt, Option.any_some, Option.bind_some]
  rcases ha _ (List.getElem_mem hlt) with ⟨symb, ref, e, h⟩ | ⟨ref, e, h⟩
  · rw [h]
    rfl
  · rw [h]
    rfl

theorem taken_eq (ha : Actuals aargs) :
    taken fargs aargs (waiting fargs aargs) (unclaimed fargs aargs) =
      (pairs fargs aargs).map fun p =>
        (p.1, (fargs[p.1]?).bind fun f => (aargs[p.2]?).bind (bound f)) := by
  rw [taken, plain_eq ha, pairs]

theorem find?_eq_findIdx? {p : E → Bool} {l : List E} :
    l.find? p = (l.findIdx? p).bind fun k => l[k]? := by
  induction l with
  | nil => rfl
  | cons a l ih =>
      rw [List.find?_cons, List.findIdx?_cons]
      cases p a with
      | true => rfl
      | false =>
          simp only
          rw [if_neg (by decide), ih]
          cases l.findIdx? p <;> rfl

/-- A slot holds what its formal argument is bound to. -/
theorem settle_eq_binding (ha : Actuals aargs) {j : Nat} (hj : j ∈ places fargs) :
    settle (defaults fargs ((unnamed fargs aargs).drop (pairs fargs aargs).length))
        (settle (taken fargs aargs (waiting fargs aargs) (unclaimed fargs aargs))
          (namedInfo fargs aargs)) j = binding fargs aargs j := by
  have hfst : (taken fargs aargs (waiting fargs aargs) (unclaimed fargs aargs)).map Prod.fst =
      (pairs fargs aargs).map Prod.fst := by
    rw [taken_eq ha, List.map_map]
    rfl
  have hdefaults : (defaults fargs ((unnamed fargs aargs).drop (pairs fargs aargs).length)).map
      Prod.fst = ((unnamed fargs aargs).drop (pairs fargs aargs).length).filter
        fun i => !(fargs[i]?).any isEllipsis := by
    rw [defaults, List.map_map]
    exact List.map_id _
  cases hsource : source fargs aargs j with
  | none =>
      have hmem := (source_eq_none hj).mp hsource
      have hdefault : (j, (fargs[j]?).bind byDefault) ∈
          defaults fargs ((unnamed fargs aargs).drop (pairs fargs aargs).length) :=
        List.mem_map.mpr ⟨j, List.mem_filter.mpr ⟨hmem, (List.mem_filter.mp hj).2⟩, rfl⟩
      have hnodup : ((defaults fargs ((unnamed fargs aargs).drop (pairs fargs aargs).length)).map
          Prod.fst).Nodup := by
        rw [hdefaults]
        exact (nodup_unnamed.sublist (List.drop_sublist _ _)).filter _
      rw [settle_of_mem hnodup hdefault, binding, hsource]
  | some k =>
      have hnot : j ∉ (defaults fargs
          ((unnamed fargs aargs).drop (pairs fargs aargs).length)).map Prod.fst := by
        rw [hdefaults]
        intro hmem
        rw [(source_eq_none hj).mpr (List.mem_filter.mp hmem).1] at hsource
        cases hsource
      rw [settle_of_not_mem hnot, binding, hsource]
      rcases source_eq_some.mp hsource with hidx | hp
      · have hfree : j ∉ (pairs fargs aargs).map Prod.fst := by
          rw [fst_pairs]
          intro hmem
          rw [(mem_unnamed.mp (List.mem_of_mem_take hmem)).2] at hidx
          cases hidx
        rw [settle_of_not_mem (by rw [hfst]; exact hfree), namedInfo, find?_eq_findIdx?, hidx]
        rfl
      · exact settle_of_mem (by rw [hfst]; exact nodup_fst_pairs)
          (by rw [taken_eq ha]; exact List.mem_map.mpr ⟨(j, k), hp, rfl⟩)

/-! ## What is left -/

/-- The formal arguments `W` take the first of the plain ones. -/
theorem spilled_eq {W G : List Nat} (h : G.Nodup) : spilled aargs W G = G.filter fun k =>
    k ∉ (W.zip (G.filter fun k => (aargs[k]?).any isPlain)).map Prod.snd := by
  induction G generalizing W with
  | nil => rw [spilled.eq_def]; rfl
  | cons k G ih =>
      rw [List.nodup_cons] at h
      cases hk : (aargs[k]?).any isPlain with
      | false =>
          rw [spilled_of_tagged hk, ih h.2, List.filter_cons_of_neg (a := k) (l := G)
            (p := fun k => (aargs[k]?).any isPlain) (by rw [hk]; decide), List.filter_cons_of_pos]
          refine decide_eq_true fun hmem => ?_
          obtain ⟨p, hp, rfl⟩ := List.mem_map.mp hmem
          exact h.1 (List.mem_filter.mp (List.of_mem_zip hp).2).1
      | true =>
          rw [List.filter_cons_of_pos (a := k) (l := G) (p := fun k => (aargs[k]?).any isPlain) hk]
          cases W with
          | nil =>
              rw [spilled_nil, ih h.2, List.zip_nil_left, List.zip_nil_left, List.map_nil]
              rfl
          | cons i W =>
              rw [spilled_of_plain hk, ih h.2, List.zip_cons_cons, List.map_cons,
                List.filter_cons_of_neg (by simp)]
              refine List.filter_congr fun x hx => ?_
              have hne : x ≠ k := fun hxk => h.1 (hxk ▸ hx)
              rw [Bool.eq_iff_iff, decide_eq_true_eq, decide_eq_true_eq, List.mem_cons, not_or]
              exact (and_iff_right hne).symm

theorem source_of_named (h : (aargs.filterMap (named fargs)).Nodup) {k i : Nat}
    (hk : (aargs[k]?).bind (named fargs) = some i) : source fargs aargs i = some k :=
  source_eq_some.mpr (.inl (findIdx?_named h hk))

/-- An actual argument that a formal one gets names it or is taken by it. -/
theorem mem_sources (h : (aargs.filterMap (named fargs)).Nodup) {k : Nat} :
    k ∈ (places fargs).filterMap (source fargs aargs) ↔
      (aargs[k]?).bind (named fargs) ≠ none ∨ k ∈ (pairs fargs aargs).map Prod.snd := by
  rw [List.mem_filterMap]
  constructor
  · rintro ⟨i, -, hsource⟩
    rcases source_eq_some.mp hsource with hidx | hp
    · rw [named_of_findIdx? hidx]
      exact .inl nofun
    · exact .inr (List.mem_map.mpr ⟨_, hp, rfl⟩)
  · rintro (hnamed | hmem)
    · obtain ⟨i, hi⟩ := Option.ne_none_iff_exists'.mp hnamed
      obtain ⟨a, -, hname⟩ := Option.bind_eq_some_iff.mp hi
      exact ⟨i, mem_places_of_named hname, source_of_named h hi⟩
    · obtain ⟨⟨i, k⟩, hp, rfl⟩ := List.mem_map.mp hmem
      exact ⟨i, mem_places_of_waiting (mem_waiting_of_pairs hp), source_eq_some.mpr (.inr hp)⟩

theorem nodup_unclaimed : (unclaimed fargs aargs).Nodup := List.nodup_range.filter _

theorem remaining_eq (ha : Actuals aargs) (h : (aargs.filterMap (named fargs)).Nodup) :
    spilled aargs (waiting fargs aargs) (unclaimed fargs aargs) = remaining fargs aargs := by
  rw [spilled_eq nodup_unclaimed, plain_eq ha, ← pairs, unclaimed, List.filter_filter,
    remaining]
  refine List.filter_congr fun k _ => ?_
  rw [Bool.eq_iff_iff, Bool.and_eq_true, decide_eq_true_eq, decide_eq_true_eq, decide_eq_true_eq,
    mem_sources h, not_or, not_not, and_comm]

theorem named_of_plain {k : Nat} (h : k ∈ plain aargs) : (aargs[k]?).bind (named fargs) = none := by
  obtain ⟨a, ha, hplain⟩ := (Option.any_eq_true _ _).mp (List.mem_filter.mp h).2
  rw [ha, Option.bind_some]
  cases a with
  | etarg ref e => rfl
  | _ => cases hplain

/-- A formal argument gets an actual one of its own. -/
theorem source_inj {i j k : Nat} (hi : source fargs aargs i = some k)
    (hj : source fargs aargs j = some k) : i = j := by
  rcases source_eq_some.mp hi with hi | hi
  · have hiname := named_of_findIdx? hi
    rcases source_eq_some.mp hj with hj | hj
    · exact Option.some.inj (hiname.symm.trans (named_of_findIdx? hj))
    · rw [named_of_plain (mem_plain_of_pairs hj)] at hiname
      cases hiname
  · rcases source_eq_some.mp hj with hj | hj
    · have hjname := named_of_findIdx? hj
      rw [named_of_plain (mem_plain_of_pairs hi)] at hjname
      cases hjname
    · exact fst_eq_of_pairs hi hj

theorem lt_of_source {i k : Nat} (h : source fargs aargs i = some k) : k < aargs.length := by
  rcases source_eq_some.mp h with hidx | hp
  · exact (List.findIdx?_eq_some_iff_getElem.mp hidx).1
  · exact List.mem_range.mp (List.mem_filter.mp (mem_plain_of_pairs hp)).1

/-- Every actual argument is used once. -/
theorem sources_perm (fargs aargs : List E) :
    ((places fargs).filterMap (source fargs aargs) ++ remaining fargs aargs).Perm
      (List.range aargs.length) := by
  have hsources : ((places fargs).filterMap (source fargs aargs)).Nodup :=
    (nodup_places fargs).filterMap fun i j k hi hj => source_inj hi hj
  have hdisjoint : ((places fargs).filterMap (source fargs aargs)).Disjoint
      (remaining fargs aargs) := fun k hk hrest =>
    of_decide_eq_true (List.mem_filter.mp hrest).2 hk
  refine (List.perm_ext_iff_of_nodup (hsources.append (List.nodup_range.filter _) hdisjoint)
    List.nodup_range).mpr fun k => ?_
  rw [List.mem_append, List.mem_range]
  constructor
  · rintro (hk | hk)
    · obtain ⟨i, -, hi⟩ := List.mem_filterMap.mp hk
      exact lt_of_source hi
    · exact List.mem_range.mp (List.mem_filter.mp hk).1
  · intro hk
    by_cases hmem : k ∈ (places fargs).filterMap (source fargs aargs)
    · exact .inl hmem
    · exact .inr (List.mem_filter.mpr ⟨List.mem_range.mpr hk, decide_eq_true hmem⟩)

/-! ## The run -/

/-- Nothing names the ellipsis. -/
theorem mem_unnamed_of_ellipsis (hf : Formals fargs) {p : Nat}
    (hp : fargs.findIdx? isEllipsis = some p) : p ∈ unnamed fargs aargs := by
  refine mem_unnamed.mpr ⟨(List.findIdx?_eq_some_iff_getElem.mp hp).1, ?_⟩
  refine Option.eq_none_iff_forall_ne_some.mpr fun k hk => ?_
  obtain ⟨a, -, hname⟩ := Option.bind_eq_some_iff.mp (named_of_findIdx? hk)
  have hplace := (List.mem_filter.mp (mem_places_of_named hname)).2
  rw [(isEllipsis_iff hf hp p).mpr rfl] at hplace
  cases hplace

theorem ellipsisAt_eq (hf : Formals fargs) : ellipsisAt fargs = -1 ↔
    ∀ i ∈ unnamed fargs aargs, (fargs[i]?).any isEllipsis = false := by
  cases hp : fargs.findIdx? isEllipsis with
  | none =>
      have hat : ellipsisAt fargs = -1 := by rw [ellipsisAt, hp]; rfl
      refine ⟨fun _ i hi => ?_, fun _ => hat⟩
      rw [List.getElem?_eq_getElem (mem_unnamed.mp hi).1, Option.any_some]
      exact List.findIdx?_eq_none_iff.mp hp _ (List.getElem_mem _)
  | some p =>
      have hat : ellipsisAt fargs = p := by rw [ellipsisAt, hp]; rfl
      refine ⟨fun h => absurd h (by omega), fun h => ?_⟩
      have hany := (isEllipsis_iff hf hp p).mpr rfl
      rw [h p (mem_unnamed_of_ellipsis hf hp)] at hany
      cases hany

/-- A formal argument before the ellipsis is its own slot. -/
theorem slot_of_waiting (hf : Formals fargs) {j : Nat} (hj : j ∈ waiting fargs aargs) :
    slot (ellipsisAt fargs) j = j := by
  refine slot_of_lt fun p hp => ?_
  have hsplit := List.takeWhile_append_dropWhile
    (p := fun i => !(fargs[i]?).any isEllipsis) (l := unnamed fargs aargs)
  have hsorted : (unnamed fargs aargs).Pairwise (· < ·) := List.pairwise_lt_range.filter _
  have hmem := @mem_unnamed_of_ellipsis fargs aargs hf p hp
  rw [← hsplit] at hsorted hmem
  rcases List.mem_append.mp hmem with hwait | hrest
  · have hplace := (List.mem_filter.mp (mem_places_of_waiting hwait)).2
    rw [(isEllipsis_iff hf hp p).mpr rfl] at hplace
    cases hplace
  · exact ((List.pairwise_append.mp hsorted).2.2 j hj p hrest).le

theorem missing_iff : Missing fargs aargs ↔
    ∃ i ∈ (unnamed fargs aargs).drop (pairs fargs aargs).length,
      (fargs[i]?).any isEllipsis = false ∧ (fargs[i]?).bind byDefault = none := by
  constructor
  · rintro ⟨i, hi, hsource, hdefault⟩
    have hnot := (List.mem_filter.mp hi).2
    rw [Bool.not_eq_true'] at hnot
    exact ⟨i, (source_eq_none hi).mp hsource, hnot, hdefault⟩
  · rintro ⟨i, hmem, hnot, hdefault⟩
    have hi : i ∈ places fargs := List.mem_filter.mpr
      ⟨List.mem_range.mpr (mem_unnamed.mp (List.mem_of_mem_drop hmem)).1, by rw [hnot]; rfl⟩
    exact ⟨i, hi, (source_eq_none hi).mpr hmem, hdefault⟩

theorem left_iff : Left fargs aargs ↔
    ellipsisAt fargs = -1 ∧ remaining fargs aargs ≠ [] := by
  refine and_congr_left fun _ => ?_
  have hnone : (∀ f ∈ fargs, f ≠ etellipsis) ↔ fargs.findIdx? isEllipsis = none := by
    rw [List.findIdx?_eq_none_iff]
    refine forall₂_congr fun f hf => ?_
    cases f with
    | etellipsis => exact ⟨fun h => absurd rfl h, fun h => by cases h⟩
    | _ => exact ⟨fun _ => rfl, fun _ h => by cases h⟩
  rw [hnone, ellipsisAt]
  cases fargs.findIdx? isEllipsis with
  | none => exact iff_of_true rfl rfl
  | some p =>
      refine iff_of_false (fun h => by cases h) ?_
      rw [Option.map_some, Option.getD_some]
      omega

theorem processArgs_spec (to_string : E → String) (hf : Formals fargs) (ha : Actuals aargs)
    {m : List (String × Nat)}
    (hm : ∀ s, m.lookup s = fargs.findIdx? fun f => formalName f = some s) :
    (Twice fargs aargs ∨ Left fargs aargs ∨ Missing fargs aargs →
      ∃ e, processArgs to_string (ellipsisAt fargs) m fargs aargs = .throw e ()) ∧
    (¬(Twice fargs aargs ∨ Left fargs aargs ∨ Missing fargs aargs) →
      processArgs to_string (ellipsisAt fargs) m fargs aargs = .ok (matched fargs aargs) ()) := by
  obtain ⟨hnamed, htwice⟩ := @extractNamed_spec fargs hf m hm [] aargs List.nodup_nil
  rw [List.nil_append] at hnamed htwice
  rw [processArgs, ← usedAfter_nil hf]
  by_cases hnodup : (aargs.filterMap (named fargs)).Nodup
  · have htwice' : ¬Twice fargs aargs := not_not.mpr hnodup
    have hulen : (usedAfter fargs aargs []).ufargs.length = fargs.length := by
      rw [usedAfter, List.length_map, List.length_range]
    have hglen : (usedAfter fargs aargs []).ugargs.length = aargs.length := by
      rw [usedAfter, List.length_append, List.length_map, List.length_replicate, List.length_nil,
        Nat.add_zero]
    obtain ⟨f, hfirst, hfAt⟩ := getUnused_first hulen
    obtain ⟨g, hgfirst, hgAt⟩ := getUnused_first hglen
    rw [unusedFrom_ufargs] at hfAt
    rw [unusedFrom_ugargs] at hgAt
    have hfuel : (unclaimed fargs aargs).length < aargs.length + 1 :=
      Nat.lt_succ_of_le ((List.length_filter_le _ _).trans (by rw [List.length_range]))
    have hres : (usedAfter fargs aargs []).res =
        (places fargs).map (namedInfo fargs aargs) ++ [] := (List.append_nil _).symm
    obtain ⟨hrest, hover⟩ := consumeAll_spec to_string (w := [])
      (φ := namedInfo fargs aargs) hf ha hulen hglen hfuel hfAt hgAt
      (fun j hj => slot_of_waiting hf hj) (ellipsisAt_eq hf)
    have hwaiting : untilEllipsis fargs (unnamed fargs aargs) = waiting fargs aargs := rfl
    rw [hwaiting, remaining_eq ha hnodup] at hrest hover
    rw [List.length_nil] at hnamed
    rw [hnamed hnodup, bind_ok, hfirst, bind_ok, hgfirst, bind_ok, hres]
    by_cases hleft : Left fargs aargs
    · refine ⟨fun _ => ?_, fun h => absurd (.inr (.inl hleft)) h⟩
      obtain ⟨hnone, hremaining⟩ := left_iff.mp hleft
      rcases hover hnone hremaining with ⟨e, he⟩ | ⟨p, a, eln, hp, hidx, heln⟩
      · rw [he]
        exact ⟨e, rfl⟩
      · rw [hp, bind_ok, if_pos hidx, heln]
        exact ⟨_, rfl⟩
    · have henough : ellipsisAt fargs ≠ -1 ∨ remaining fargs aargs = [] := by
        by_contra h
        rw [not_or, not_not] at h
        exact hleft (left_iff.mpr h)
      obtain ⟨f', g', hrun, hf', hg'⟩ := hrest henough
      have hlen : (taken fargs aargs (waiting fargs aargs) (unclaimed fargs aargs)).length =
          (pairs fargs aargs).length := by
        rw [taken_eq ha, List.length_map]
      rw [hlen] at hf'
      have hfuel' : ((unnamed fargs aargs).drop (pairs fargs aargs).length).length <
          fargs.length + 1 := by
        have hle := List.length_filter_le (fun i => !aargs.any fun a => named fargs a = some i)
          (List.range fargs.length)
        rw [List.length_range] at hle
        rw [List.length_drop, unnamed]
        omega
      obtain ⟨hmissing, hdefault⟩ := findDefaults_spec to_string
        (φ := settle (taken fargs aargs (waiting fargs aargs) (unclaimed fargs aargs))
          (namedInfo fargs aargs))
        (w := [] ++ (remaining fargs aargs).map fun k => (aargs[k]?).bind spare)
        hf hulen g'.eln hfuel' hf'
      rw [hrun, bind_ok, if_neg (by simp only; omega)]
      refine ⟨fun h => hmissing (missing_iff.mp ((h.resolve_left htwice').resolve_left hleft)),
        fun h => ?_⟩
      have hnot : ¬Missing fargs aargs := fun hm => h (.inr (.inr hm))
      rw [missing_iff] at hnot
      refine (hdefault fun i hi hnell hnone => hnot ⟨i, hi, hnell, hnone⟩).trans ?_
      rw [matched, List.nil_append, List.map_congr_left fun j hj => settle_eq_binding ha hj]
  · obtain ⟨e, he⟩ := htwice hnodup
    refine ⟨fun _ => ⟨e, ?_⟩, fun h => absurd (.inl hnodup) h⟩
    rw [List.length_nil] at he
    rw [he]
    rfl

theorem isSome_bound (ha : Actuals aargs) {k : Nat} (hk : k < aargs.length) (f : E) :
    ((aargs[k]?).bind (bound f)).isSome = true ∧ ((aargs[k]?).bind spare).isSome = true := by
  rw [List.getElem?_eq_getElem hk, Option.bind_some, Option.bind_some]
  rcases ha _ (List.getElem_mem hk) with ⟨symb, ref, e, h⟩ | ⟨ref, e, h⟩
  · rw [h]
    exact ⟨rfl, rfl⟩
  · rw [h]
    exact ⟨rfl, rfl⟩

/-- Every slot has been written. -/
theorem isSome_of_mem_matched (ha : Actuals aargs) (hmissing : ¬Missing fargs aargs)
    {b : Option ArgInfo} (hb : b ∈ matched fargs aargs) : b.isSome = true := by
  rcases List.mem_append.mp hb with hb | hb
  · obtain ⟨i, hi, rfl⟩ := List.mem_map.mp hb
    have hlt := lt_of_mem_places hi
    cases hsource : source fargs aargs i with
    | none =>
        have hdefault : (fargs[i]?).bind byDefault ≠ none := fun h =>
          hmissing ⟨i, hi, hsource, h⟩
        rw [binding, hsource]
        exact Option.isSome_iff_ne_none.mpr hdefault
    | some k =>
        rw [binding, hsource, List.getElem?_eq_getElem hlt]
        exact (isSome_bound ha (lt_of_source hsource) _).1
  · obtain ⟨k, hk, rfl⟩ := List.mem_map.mp hb
    exact (isSome_bound ha (List.mem_range.mp (List.mem_filter.mp hk).1) etnull).2

end Matched

/-- The matching of the arguments of a call. -/
theorem arguments_are_matched (to_string : E → String) (fargs aargs : List E)
    (hf : Formals fargs) (ha : Actuals aargs) :
    ∃ fargsMap ellipsisPos, processFormlist fargs = .ok (fargsMap, ellipsisPos) ∧
      ((∃ e, processArgs to_string ellipsisPos fargsMap fargs aargs = .throw e ()) ↔
        Twice fargs aargs ∨ Left fargs aargs ∨ Missing fargs aargs) ∧
      (¬(Twice fargs aargs ∨ Left fargs aargs ∨ Missing fargs aargs) →
        processArgs to_string ellipsisPos fargsMap fargs aargs = .ok (matched fargs aargs) () ∧
        (∀ b ∈ matched fargs aargs, b.isSome = true) ∧
        ((places fargs).filterMap (source fargs aargs) ++ remaining fargs aargs).Perm
          (List.range aargs.length)) := by
  obtain ⟨m, hm, hlookup⟩ := processFormlist_eq hf
  obtain ⟨hthrow, hok⟩ := processArgs_spec to_string hf ha hlookup
  refine ⟨m, ellipsisAt fargs, hm, ⟨fun ⟨e, he⟩ => ?_, hthrow⟩, fun h => ⟨hok h, ?_, ?_⟩⟩
  · by_contra h
    rw [hok h] at he
    cases he
  · exact fun b hb => isSome_of_mem_matched ha (fun hm => h (.inr (.inr hm))) hb
  · exact sources_perm fargs aargs

/-- `function(x, ..., y = NULL)`. -/
def threeFormals : List E := [etsymbol "x" false, etellipsis, ettaggedexpr "y" false etnull]

/-- `f(z = NULL, NULL, NULL)`. -/
def threeActuals : List E := [ettaggedexpr "z" false etnull, etarg false etnull, etarg true etnull]

theorem arguments_are_matched_three :
    ∃ fargsMap ellipsisPos, processFormlist threeFormals = .ok (fargsMap, ellipsisPos) ∧
      ((∃ e, processArgs (fun _ => "") ellipsisPos fargsMap threeFormals threeActuals =
          .throw e ()) ↔
        Twice threeFormals threeActuals ∨ Left threeFormals threeActuals ∨
          Missing threeFormals threeActuals) ∧
      (¬(Twice threeFormals threeActuals ∨ Left threeFormals threeActuals ∨
          Missing threeFormals threeActuals) →
        processArgs (fun _ => "") ellipsisPos fargsMap threeFormals threeActuals =
          .ok (matched threeFormals threeActuals) () ∧
        (∀ b ∈ matched threeFormals threeActuals, b.isSome = true) ∧
        ((places threeFormals).filterMap (source threeFormals threeActuals) ++
          remaining threeFormals threeActuals).Perm (List.range threeActuals.length)) := by
  refine arguments_are_matched _ threeFormals threeActuals ⟨?_, by decide, by decide⟩ ?_
  · intro f hf
    simp only [threeFormals, List.mem_cons, List.not_mem_nil, or_false] at hf
    rcases hf with rfl | rfl | rfl
    · exact .inr rfl
    · exact .inl rfl
    · exact .inr rfl
  · intro a ha
    simp only [threeActuals, List.mem_cons, List.not_mem_nil, or_false] at ha
    rcases ha with rfl | rfl | rfl
    · exact .inl ⟨_, _, _, rfl⟩
    · exact .inr ⟨_, _, rfl⟩
    · exact .inr ⟨_, _, rfl⟩

end Ztsdb.Lang.Args
