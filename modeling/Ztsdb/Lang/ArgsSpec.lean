import Mathlib
import Ztsdb.Lang.ProcessArgs

/-!
# What the matching does

An actual argument names a formal one when it is tagged with its name; an empty tag names
nothing. The formal arguments that nothing names, as far as the ellipsis, take the actual
arguments without a tag one after the other.

A cursor stands for the list of the places that are not used, from its own on, and one move of it
for the tail of that list. The slots are the values of a function on the formal arguments, which
every write changes at one place.
-/

namespace Ztsdb.Lang.Args

open E Interp Ztsdb.Lib Ztsdb.Lib.Outcome

/-! ## What is asked -/

/-- Symbols, symbols with a default and at most one ellipsis, with different names. -/
structure Formals (fargs : List E) : Prop where
  kind : ∀ f ∈ fargs, f = etellipsis ∨ (formalName f).isSome
  names : (fargs.filterMap formalName).Nodup
  ellipsis : (fargs.filter isEllipsis).length ≤ 1

/-- Tagged and plain arguments. -/
def Actuals (aargs : List E) : Prop :=
  ∀ a ∈ aargs, (∃ symb ref e, a = ettaggedexpr symb ref e) ∨ ∃ ref e, a = etarg ref e

/-- The formal argument that an actual one is tagged with the name of. -/
def named (fargs : List E) : E → Option Nat
  | ettaggedexpr symb _ _ =>
    if symb ≠ "" then fargs.findIdx? fun f => formalName f = some symb else none
  | _ => none

def isPlain : E → Bool
  | etarg _ _ => true
  | _ => false

section Places

variable (fargs aargs : List E)

/-- The formal arguments that no actual one names. -/
def unnamed : List Nat :=
  (List.range fargs.length).filter fun i => !aargs.any fun a => named fargs a = some i

/-- Those of them that come before the ellipsis. -/
def waiting : List Nat :=
  (unnamed fargs aargs).takeWhile fun i => !(fargs[i]?).any isEllipsis

/-- The actual arguments without a tag. -/
def plain : List Nat := (List.range aargs.length).filter fun k => (aargs[k]?).any isPlain

/-- The actual argument that a formal one gets: the one tagged with its name, or the next one
without a tag if it comes before the ellipsis. -/
def source (i : Nat) : Option Nat :=
  (aargs.findIdx? fun a => named fargs a = some i).or
    (((waiting fargs aargs).zip (plain aargs)).lookup i)

/-- The formal arguments other than the ellipsis. -/
def places : List Nat := (List.range fargs.length).filter fun i => !(fargs[i]?).any isEllipsis

/-- The actual arguments that no formal one gets. -/
def remaining : List Nat :=
  (List.range aargs.length).filter fun k => k ∉ (places fargs).filterMap (source fargs aargs)

end Places

/-- A formal argument bound to an actual one. -/
def bound (f : E) : E → Option ArgInfo
  | ettaggedexpr symb ref e => some ⟨etsymbol symb ref, e, false, false, ref⟩
  | etarg ref e => some ⟨formalVar f, e, false, false, ref⟩
  | _ => none

/-- A formal argument with its default. -/
def byDefault : E → Option ArgInfo
  | ettaggedexpr symb ref e => some ⟨etsymbol symb ref, e, true, false, false⟩
  | _ => none

/-- An argument of the ellipsis. -/
def spare : E → Option ArgInfo
  | ettaggedexpr symb ref e => some ⟨etsymbol symb ref, e, false, true, ref⟩
  | etarg ref e => some ⟨etsymbol "" ref, e, false, true, ref⟩
  | _ => none

section Result

variable (fargs aargs : List E)

/-- What a formal argument is bound to. -/
def binding (i : Nat) : Option ArgInfo :=
  (fargs[i]?).bind fun f =>
    match source fargs aargs i with
    | some k => (aargs[k]?).bind (bound f)
    | none => byDefault f

/-- The bindings of the formal arguments, then the arguments of the ellipsis. -/
def matched : List (Option ArgInfo) :=
  (places fargs).map (binding fargs aargs) ++
    (remaining fargs aargs).map fun k => (aargs[k]?).bind spare

/-- Two actual arguments have the name of one formal argument. -/
def Twice : Prop := ¬(aargs.filterMap (named fargs)).Nodup

/-- There is no ellipsis, and an actual argument that no formal one gets. -/
def Left : Prop := (∀ f ∈ fargs, f ≠ etellipsis) ∧ remaining fargs aargs ≠ []

/-- A formal argument without a default gets no actual argument. -/
def Missing : Prop :=
  ∃ i ∈ places fargs, source fargs aargs i = none ∧ (fargs[i]?).bind byDefault = none

end Result

/-! ## The formal arguments -/

theorem formalName_eq_none {f : E} (h : f = etellipsis ∨ (formalName f).isSome) :
    formalName f = none ↔ isEllipsis f = true := by
  cases f <;> simp_all [formalName, isEllipsis]

theorem processFrom_eq {n : Nat} {el : List E} {m : List (String × Nat)} {pos : Int}
    (hkind : ∀ f ∈ el, f = etellipsis ∨ (formalName f).isSome)
    (hnames : (el.filterMap formalName).Nodup)
    (hm : ∀ s ∈ el.filterMap formalName, m.lookup s = none)
    (hell : ((el.filter isEllipsis).length ≤ 1 ∧ pos = -1) ∨ el.filter isEllipsis = []) :
    ∃ m' pos', processFrom n el m pos = .ok (m', pos') ∧
      (∀ s, m'.lookup s = (m.lookup s).or
        ((el.findIdx? fun f => formalName f = some s).map (· + n))) ∧
      pos' = ((el.findIdx? isEllipsis).map fun i => ((i + n : Nat) : Int)).getD pos := by
  induction el generalizing n m pos with
  | nil => exact ⟨m, pos, rfl, fun s => by simp, by simp⟩
  | cons e el ih =>
      have hkind' : ∀ f ∈ el, f = etellipsis ∨ (formalName f).isSome :=
        fun f hf => hkind f (.tail _ hf)
      have hiff := formalName_eq_none (hkind e List.mem_cons_self)
      rw [processFrom]
      cases hname : formalName e with
      | some symb =>
          have hnot : isEllipsis e = false := by
            rw [hname] at hiff
            simpa using hiff
          rw [List.filterMap_cons_some hname] at hnames hm
          rw [List.nodup_cons] at hnames
          rw [List.filter_cons_of_neg (by simp [hnot])] at hell
          have hm' : ∀ s ∈ el.filterMap formalName,
              (m ++ [(symb, n)]).lookup s = none := by
            intro s hs
            have hne : s ≠ symb := fun h => hnames.1 (h ▸ hs)
            rw [List.lookup_append, hm s (.tail _ hs), Option.none_or, List.lookup_cons,
              List.lookup_nil, beq_false_of_ne hne]
          obtain ⟨m', pos', hrun, hlookup, hpos⟩ := ih (n := n + 1) hkind' hnames.2 hm' hell
          simp only [hm symb List.mem_cons_self]
          refine ⟨m', pos', hrun, fun s => ?_, ?_⟩
          · rw [hlookup, List.lookup_append, List.findIdx?_cons, hname, Option.or_assoc]
            congr 1
            by_cases hs : symb = s
            · subst hs
              simp
            · simp [List.lookup_cons, beq_false_of_ne (Ne.symm hs), hs, Option.map_map,
                Function.comp_def, Nat.add_assoc, Nat.add_comm 1]
          · rw [hpos, List.findIdx?_cons, hnot]
            simp only [Bool.false_eq_true, if_false, Option.map_map, Function.comp_def,
              Nat.add_right_comm _ 1 n, Nat.add_assoc]
      | none =>
          have hyes := hiff.mp hname
          rw [List.filterMap_cons_none hname] at hnames hm
          rw [List.filter_cons_of_pos hyes] at hell
          obtain ⟨hone, rfl⟩ := hell.resolve_right (List.cons_ne_nil _ _)
          have hnil : el.filter isEllipsis = [] :=
            List.length_eq_zero_iff.mp (by rw [List.length_cons] at hone; omega)
          obtain ⟨m', pos', hrun, hlookup, hpos⟩ :=
            @ih (n + 1) m n hkind' hnames hm (.inr hnil)
          simp only [ne_eq, not_true_eq_false, if_false]
          refine ⟨m', pos', hrun, fun s => ?_, ?_⟩
          · rw [hlookup, List.findIdx?_cons, hname]
            simp [Option.map_map, Function.comp_def, Nat.add_assoc, Nat.add_comm 1]
          · have hno : el.findIdx? isEllipsis = none := by
              rw [List.findIdx?_eq_none_iff]
              exact fun f hf => by simpa using List.filter_eq_nil_iff.mp hnil f hf
            rw [hpos, hno, List.findIdx?_cons, hyes]
            simp

/-- The position of the ellipsis, or -1. -/
def ellipsisAt (fargs : List E) : Int := ((fargs.findIdx? isEllipsis).map Nat.cast).getD (-1)

theorem processFormlist_eq {fargs : List E} (h : Formals fargs) :
    ∃ m, processFormlist fargs = .ok (m, ellipsisAt fargs) ∧
      ∀ s, m.lookup s = fargs.findIdx? fun f => formalName f = some s := by
  obtain ⟨m, pos, hrun, hlookup, rfl⟩ := @processFrom_eq 0 fargs [] (-1) h.kind
    h.names (fun _ _ => rfl) (.inl ⟨h.ellipsis, rfl⟩)
  refine ⟨m, hrun, fun s => ?_⟩
  rw [hlookup]
  simp

/-! ## The slots -/

/-- There is no ellipsis but the first. -/
theorem isEllipsis_iff {fargs : List E} (h : Formals fargs) {p : Nat}
    (hp : fargs.findIdx? isEllipsis = some p) (i : Nat) :
    (fargs[i]?).any isEllipsis = true ↔ i = p := by
  obtain ⟨hlt, hyes, hbefore⟩ := List.findIdx?_eq_some_iff_getElem.mp hp
  have hsplit : fargs = fargs.take p ++ fargs[p] :: fargs.drop (p + 1) := by
    rw [← List.drop_eq_getElem_cons hlt, List.take_append_drop]
  have hnil : (fargs.drop (p + 1)).filter isEllipsis = [] := by
    have hone := h.ellipsis
    rw [hsplit, List.filter_append, List.length_append, List.filter_cons_of_pos hyes,
      List.length_cons] at hone
    exact List.length_eq_zero_iff.mp (by omega)
  constructor
  · intro hany
    obtain ⟨f, hf, hfe⟩ := (Option.any_eq_true _ _).mp hany
    obtain ⟨hi, rfl⟩ := List.getElem?_eq_some_iff.mp hf
    rcases lt_trichotomy i p with hip | rfl | hip
    · exact absurd hfe (hbefore i hip)
    · rfl
    · have hmem : fargs[i] ∈ fargs.drop (p + 1) :=
        List.mem_drop_iff_getElem.mpr ⟨i - (p + 1), by omega, by congr 1; omega⟩
      exact absurd hfe (List.filter_eq_nil_iff.mp hnil _ hmem)
  · rintro rfl
    rw [List.getElem?_eq_getElem hlt, Option.any_some]
    exact hyes

/-- With the ellipsis at `p`, the places before it and those behind it. -/
theorem places_eq {fargs : List E} (h : Formals fargs) {p : Nat}
    (hp : fargs.findIdx? isEllipsis = some p) :
    places fargs = List.range p ++ List.range' (p + 1) (fargs.length - (p + 1)) := by
  obtain ⟨hlt, -⟩ := List.findIdx?_eq_some_iff_getElem.mp hp
  have hrange : List.range fargs.length =
      List.range p ++ p :: List.range' (p + 1) (fargs.length - (p + 1)) := by
    have hlen : fargs.length = p + (fargs.length - (p + 1) + 1) := by omega
    rw [← List.range'_succ, List.range_eq_range', List.range_eq_range']
    have happ := List.range'_append_1 (s := 0) (m := p) (n := fargs.length - (p + 1) + 1)
    rwa [← hlen, Nat.zero_add, eq_comm] at happ
  have hfilter : ∀ l : List Nat, p ∉ l →
      (l.filter fun i => !(fargs[i]?).any isEllipsis) = l := fun l hl =>
    List.filter_eq_self.mpr fun i hi => by
      rw [Bool.not_eq_true', Bool.eq_false_iff, ne_eq, isEllipsis_iff h hp]
      rintro rfl
      exact hl hi
  rw [places, hrange, List.filter_append, List.filter_cons_of_neg, hfilter, hfilter]
  · intro hmem
    have := List.mem_range'_1.mp hmem
    omega
  · exact fun hmem => lt_irrefl _ (List.mem_range.mp hmem)
  · rw [(isEllipsis_iff h hp p).mpr rfl]
    decide

theorem places_of_none {fargs : List E} (hp : fargs.findIdx? isEllipsis = none) :
    places fargs = List.range fargs.length := by
  refine List.filter_eq_self.mpr fun i hi => ?_
  rw [List.getElem?_eq_getElem (List.mem_range.mp hi), Option.any_some, Bool.not_eq_true']
  exact List.findIdx?_eq_none_iff.mp hp _ (List.getElem_mem _)

theorem nodup_places (fargs : List E) : (places fargs).Nodup := List.nodup_range.filter _

theorem getElem?_slot {fargs : List E} (h : Formals fargs) {i : Nat} (hi : i ∈ places fargs) :
    (places fargs)[slot (ellipsisAt fargs) i]? = some i := by
  cases hp : fargs.findIdx? isEllipsis with
  | none =>
      rw [places_of_none hp] at hi ⊢
      have hat : ellipsisAt fargs = -1 := by rw [ellipsisAt, hp]; rfl
      rw [slot, hat, if_neg (by omega), List.getElem?_range (List.mem_range.mp hi)]
  | some p =>
      rw [places_eq h hp] at hi ⊢
      have hat : ellipsisAt fargs = p := by rw [ellipsisAt, hp]; rfl
      rw [slot, hat]
      rcases List.mem_append.mp hi with hi | hi
      · have hlt := List.mem_range.mp hi
        rw [if_neg (by omega), List.getElem?_append_left (by rw [List.length_range]; exact hlt),
          List.getElem?_range hlt]
      · obtain ⟨hle, hlt⟩ := List.mem_range'_1.mp hi
        rw [if_pos (by omega), List.getElem?_append_right (by rw [List.length_range]; omega),
          List.length_range, List.getElem?_range' (by omega)]
        congr 1
        omega

/-- A place before the ellipsis is its own slot. -/
theorem slot_of_lt {fargs : List E} {i : Nat}
    (hi : ∀ p, fargs.findIdx? isEllipsis = some p → i ≤ p) : slot (ellipsisAt fargs) i = i := by
  rw [slot, if_neg]
  rintro ⟨h0, hlt⟩
  cases hp : fargs.findIdx? isEllipsis with
  | none =>
      rw [ellipsisAt, hp] at h0
      exact absurd h0 (by decide)
  | some p =>
      rw [ellipsisAt, hp] at hlt
      have hle := hi p hp
      have : (p : Int) < i := hlt
      omega

/-- A write changes the function at one place. -/
theorem put_map {l : List Nat} (hl : l.Nodup) {s i : Nat} (hs : l[s]? = some i) (a : ArgInfo)
    (φ : Nat → Option ArgInfo) (rest : List (Option ArgInfo)) :
    put s a (l.map φ ++ rest) = .ok (l.map (Function.update φ i (some a)) ++ rest) () := by
  obtain ⟨hlt, rfl⟩ := List.getElem?_eq_some_iff.mp hs
  rw [put, if_pos (by rw [List.length_append, List.length_map]; omega),
    List.set_append_left _ _ (by rw [List.length_map]; exact hlt)]
  congr 2
  apply List.ext_getElem?
  intro j
  rw [List.getElem?_set, List.length_map, List.getElem?_map, List.getElem?_map]
  split
  · next hsj =>
      subst hsj
      rw [List.getElem?_eq_getElem hlt, Option.map_some, Function.update_self]
  · next hsj =>
      cases hj : l[j]? with
      | none => rfl
      | some k =>
          have hne : k ≠ l[s] := by
            rintro rfl
            obtain ⟨hjlt, hjk⟩ := List.getElem?_eq_some_iff.mp hj
            exact hsj ((hl.getElem_inj_iff).mp hjk).symm
          rw [Option.map_some, Option.map_some, Function.update_of_ne hne]

/-! ## The cursors -/

/-- The places that are not used, from `i` on. -/
def unusedFrom (uargs : List Bool) (i : Nat) : List Nat :=
  (List.range' i (uargs.length - i)).filter fun k => uargs[k]? = some false

/-- A cursor on `l` that stands for the list of the places that are not used. -/
def Cursor.At (l : List E) (uargs : List Bool) (c : Cursor) : List Nat → Prop
  | [] => c.idx = -1
  | i :: L => c.idx = i ∧ c.eln = l.drop i ∧ i < l.length ∧ L = unusedFrom uargs (i + 1)

theorem unusedFrom_of_le {uargs : List Bool} {i : Nat} (h : uargs.length ≤ i) :
    unusedFrom uargs i = [] := by
  rw [unusedFrom, Nat.sub_eq_zero_of_le h]
  rfl

theorem unusedFrom_of_lt {uargs : List Bool} {i : Nat} (h : i < uargs.length) :
    unusedFrom uargs i =
      if uargs[i] = false then i :: unusedFrom uargs (i + 1) else unusedFrom uargs (i + 1) := by
  rw [unusedFrom, show uargs.length - i = uargs.length - (i + 1) + 1 by omega, List.range'_succ,
    List.filter_cons, List.getElem?_eq_getElem h]
  simp only [Option.some.injEq, decide_eq_true_eq]
  rfl

variable {l : List E} {uargs : List Bool}

theorem skipUsed_spec (hlen : uargs.length = l.length) {idx : Nat} {e : E} {eln : List E}
    (h : l.drop idx = e :: eln) :
    ∃ c, skipUsed uargs idx e eln = .ok c () ∧ c.At l uargs (unusedFrom uargs idx) := by
  induction eln generalizing idx e with
  | nil =>
      have hl : l.length = idx + 1 := by
        have := congrArg List.length h
        rw [List.length_drop, List.length_singleton] at this
        omega
      have hidx : idx < uargs.length := by omega
      rw [skipUsed, unusedFrom_of_lt hidx, List.getElem?_eq_getElem hidx]
      cases uargs[idx] with
      | false => exact ⟨_, rfl, rfl, h.symm, by omega, rfl⟩
      | true =>
          refine ⟨_, rfl, ?_⟩
          rw [if_neg (by decide), unusedFrom_of_le (by omega)]
          exact rfl
  | cons e' eln ih =>
      have hidx : idx < uargs.length := by
        have := congrArg List.length h
        rw [List.length_drop, List.length_cons] at this
        omega
      rw [skipUsed, unusedFrom_of_lt hidx, List.getElem?_eq_getElem hidx]
      cases uargs[idx] with
      | false => exact ⟨_, rfl, rfl, h.symm, by omega, rfl⟩
      | true =>
          have hnext : l.drop (idx + 1) = e' :: eln := by
            rw [← List.drop_drop, h]
            rfl
          rw [if_neg (by decide)]
          exact ih hnext

theorem getUnused_next (hlen : uargs.length = l.length) {c : Cursor} {i : Nat} {L : List Nat}
    (h : c.At l uargs (i :: L)) : ∃ c', getUnused c uargs = .ok c' () ∧ c'.At l uargs L := by
  obtain ⟨hidx, heln, hi, rfl⟩ := h
  have hneg : ¬ c.idx < 0 := by omega
  have hnat : c.idx.toNat = i := by omega
  rw [List.drop_eq_getElem_cons hi] at heln
  rw [getUnused, heln]
  simp only
  rw [if_neg hneg, hnat]
  cases hnext : l.drop (i + 1) with
  | nil =>
      refine ⟨_, rfl, ?_⟩
      have hle : l.length ≤ i + 1 := List.drop_eq_nil_iff.mp hnext
      rw [unusedFrom_of_le (by omega)]
      exact rfl
  | cons e' eln => exact skipUsed_spec hlen hnext

theorem getUnused_first (hlen : uargs.length = l.length) :
    ∃ c, getUnused ⟨-1, l⟩ uargs = .ok c () ∧ c.At l uargs (unusedFrom uargs 0) := by
  rw [getUnused]
  cases l with
  | nil =>
      refine ⟨_, rfl, ?_⟩
      rw [unusedFrom_of_le (i := 0) (le_of_eq hlen)]
      exact rfl
  | cons e eln => exact skipUsed_spec hlen rfl

/-! ## The arguments that are named -/

/-- What the actual arguments that have been looked at name. -/
def namedInfo (fargs done : List E) (i : Nat) : Option ArgInfo :=
  (fargs[i]?).bind fun f => (done.find? fun a => named fargs a = some i).bind (bound f)

/-- What is used when the actual arguments `done` have been looked at. -/
def usedAfter (fargs done el : List E) : Used where
  ufargs := (List.range fargs.length).map fun i => (namedInfo fargs done i).isSome
  ugargs := (done.map fun a => (named fargs a).isSome) ++ List.replicate el.length false
  res := (places fargs).map (namedInfo fargs done)

theorem named_eq_some {fargs : List E} {a : E} {i : Nat} (h : named fargs a = some i) :
    ∃ symb ref e, a = ettaggedexpr symb ref e ∧ symb ≠ "" ∧
      fargs.findIdx? (fun f => formalName f = some symb) = some i := by
  rw [named.eq_def] at h
  split at h
  · next symb ref e =>
      split at h
      · next hsymb => exact ⟨symb, ref, e, rfl, hsymb, h⟩
      · cases h
  · cases h

theorem isEllipsis_of_formalName {f : E} {symb : String} (h : formalName f = some symb) :
    isEllipsis f = false := by
  cases f with
  | etellipsis => cases h
  | _ => rfl

theorem mem_places_of_named {fargs : List E} {a : E} {i : Nat} (h : named fargs a = some i) :
    i ∈ places fargs := by
  obtain ⟨symb, ref, e, -, -, hidx⟩ := named_eq_some h
  obtain ⟨hi, hname, -⟩ := List.findIdx?_eq_some_iff_getElem.mp hidx
  refine List.mem_filter.mpr ⟨List.mem_range.mpr hi, ?_⟩
  rw [List.getElem?_eq_getElem hi, Option.any_some,
    isEllipsis_of_formalName (of_decide_eq_true hname), Bool.not_false]

theorem lt_of_mem_places {fargs : List E} {i : Nat} (h : i ∈ places fargs) : i < fargs.length :=
  List.mem_range.mp (List.mem_filter.mp h).1

theorem isSome_namedInfo {fargs done : List E} {i : Nat} (hi : i < fargs.length) :
    (namedInfo fargs done i).isSome = true ↔ i ∈ done.filterMap (named fargs) := by
  rw [namedInfo, List.getElem?_eq_getElem hi, Option.bind_some, List.mem_filterMap]
  constructor
  · intro h
    obtain ⟨x, hx⟩ := Option.isSome_iff_exists.mp h
    obtain ⟨a, ha, -⟩ := Option.bind_eq_some_iff.mp hx
    exact ⟨a, List.mem_of_find?_eq_some ha, by simpa using List.find?_some ha⟩
  · rintro ⟨a, ha, hname⟩
    have hfound : (done.find? fun a => named fargs a = some i).isSome = true :=
      List.find?_isSome.mpr ⟨a, ha, decide_eq_true hname⟩
    obtain ⟨b, hb⟩ := Option.isSome_iff_exists.mp hfound
    have hbname : named fargs b = some i := by simpa using List.find?_some hb
    obtain ⟨symb, ref, e, rfl, -⟩ := named_eq_some hbname
    rw [hb]
    rfl

/-- One more actual argument has been looked at, and it names nothing. -/
theorem namedInfo_of_none {fargs done : List E} {a : E} (h : named fargs a = none) :
    namedInfo fargs (done ++ [a]) = namedInfo fargs done := by
  funext i
  rw [namedInfo, namedInfo, List.find?_append, List.find?_cons_of_neg (by simp [h]), List.find?_nil,
    Option.or_none]

/-- One more actual argument has been looked at, the first to name its formal one. -/
theorem namedInfo_of_some {fargs done : List E} {i : Nat} {symb : String} {ref : Bool} {e : E}
    (h : named fargs (ettaggedexpr symb ref e) = some i)
    (hno : i ∉ done.filterMap (named fargs)) :
    namedInfo fargs (done ++ [ettaggedexpr symb ref e]) =
      Function.update (namedInfo fargs done) i (some ⟨etsymbol symb ref, e, false, false, ref⟩) := by
  funext j
  rw [namedInfo, List.find?_append]
  by_cases hj : j = i
  · subst hj
    have hfind : (done.find? fun a => named fargs a = some j) = none :=
      List.find?_eq_none.mpr fun a ha hname =>
        hno (List.mem_filterMap.mpr ⟨a, ha, of_decide_eq_true hname⟩)
    rw [Function.update_self, hfind, Option.none_or,
      List.find?_cons_of_pos (p := fun a => decide (named fargs a = some j)) (decide_eq_true h),
      List.getElem?_eq_getElem (lt_of_mem_places (mem_places_of_named h))]
    rfl
  · rw [Function.update_of_ne hj, namedInfo, List.find?_cons_of_neg, List.find?_nil, Option.or_none]
    rw [h]
    simpa using Ne.symm hj

theorem usedAfter_of_none {fargs done el : List E} {a : E} (h : named fargs a = none) :
    usedAfter fargs done (a :: el) = usedAfter fargs (done ++ [a]) el := by
  rw [usedAfter, usedAfter, namedInfo_of_none h, List.map_append, List.length_cons,
    List.replicate_succ, List.append_assoc]
  simp only [List.map_cons, List.map_nil, h, Option.isSome_none, List.cons_append, List.nil_append]

theorem usedAfter_of_some {fargs done el : List E} {i : Nat} {symb : String} {ref : Bool} {e : E}
    (h : named fargs (ettaggedexpr symb ref e) = some i)
    (hno : i ∉ done.filterMap (named fargs)) :
    usedAfter fargs (done ++ [ettaggedexpr symb ref e]) el =
      { ufargs := (usedAfter fargs done (ettaggedexpr symb ref e :: el)).ufargs.set i true
        ugargs := (usedAfter fargs done (ettaggedexpr symb ref e :: el)).ugargs.set done.length true
        res := (places fargs).map (Function.update (namedInfo fargs done) i
          (some ⟨etsymbol symb ref, e, false, false, ref⟩)) } := by
  have hi := lt_of_mem_places (mem_places_of_named h)
  rw [usedAfter, namedInfo_of_some h hno, usedAfter]
  congr 1
  · apply List.ext_getElem?
    intro j
    rw [List.getElem?_set, List.length_map, List.length_range, List.getElem?_map, List.getElem?_map]
    split
    · next hij =>
        subst hij
        rw [List.getElem?_range hi, Option.map_some, Function.update_self]
        rfl
    · next hij =>
        rcases Nat.lt_or_ge j fargs.length with hj | hj
        · rw [List.getElem?_range hj, Option.map_some, Option.map_some,
            Function.update_of_ne (Ne.symm hij)]
        · rw [List.getElem?_eq_none (by rw [List.length_range]; exact hj)]
          rfl
  · rw [List.set_append_right _ _ (by rw [List.length_map]), List.length_map, Nat.sub_self,
      List.map_append, List.length_cons, List.replicate_succ, List.set_cons_zero, List.append_assoc]
    simp only [List.map_cons, List.map_nil, h, Option.isSome_some, List.cons_append,
      List.nil_append]

theorem extractNamed_of_none {fargs : List E} {m : List (String × Nat)}
    (hm : ∀ s, m.lookup s = fargs.findIdx? fun f => formalName f = some s) {pos : Int} {n : Nat}
    {a : E} {el : List E} {s : Used} (h : named fargs a = none) :
    extractNamed pos m n (a :: el) s = extractNamed pos m (n + 1) el s := by
  cases a with
  | ettaggedexpr symb ref e =>
      have hlook : (if symb ≠ "" then m.lookup symb else none) = none := by
        rw [hm]
        exact h
      rw [extractNamed, hlook]
  | _ => rfl

theorem extractNamed_spec {fargs : List E} (hf : Formals fargs) {m : List (String × Nat)}
    (hm : ∀ s, m.lookup s = fargs.findIdx? fun f => formalName f = some s) {done el : List E}
    (hdone : (done.filterMap (named fargs)).Nodup) :
    (((done ++ el).filterMap (named fargs)).Nodup →
      extractNamed (ellipsisAt fargs) m done.length el (usedAfter fargs done el) =
        .ok (usedAfter fargs (done ++ el) []) ()) ∧
    (¬((done ++ el).filterMap (named fargs)).Nodup →
      ∃ e, extractNamed (ellipsisAt fargs) m done.length el (usedAfter fargs done el) =
        .throw e ()) := by
  induction el generalizing done with
  | nil =>
      rw [List.append_nil]
      exact ⟨fun _ => rfl, fun h => absurd hdone h⟩
  | cons a el ih =>
      have hsplit : done ++ a :: el = (done ++ [a]) ++ el := by rw [List.append_assoc]; rfl
      have hlen : done.length + 1 = (done ++ [a]).length := by
        rw [List.length_append, List.length_singleton]
      cases hname : named fargs a with
      | none =>
          have hdone' : ((done ++ [a]).filterMap (named fargs)).Nodup := by
            rw [List.filterMap_append, List.filterMap_cons_none hname, List.filterMap_nil,
              List.append_nil]
            exact hdone
          have hstep : extractNamed (ellipsisAt fargs) m done.length (a :: el)
              (usedAfter fargs done (a :: el)) =
              extractNamed (ellipsisAt fargs) m (done ++ [a]).length el
                (usedAfter fargs (done ++ [a]) el) := by
            rw [usedAfter_of_none hname, extractNamed_of_none hm hname, hlen]
          rw [hstep, hsplit]
          exact ih hdone'
      | some i =>
          obtain ⟨symb, ref, e, rfl, hsymb, hidx⟩ := named_eq_some hname
          have hi := mem_places_of_named hname
          have hlook : (if symb ≠ "" then m.lookup symb else none) = some i := by
            rw [hm, ← hname]
            rfl
          have hused : (usedAfter fargs done (ettaggedexpr symb ref e :: el)).ufargs[i]? =
              some (namedInfo fargs done i).isSome := by
            rw [usedAfter, List.getElem?_map, List.getElem?_range (lt_of_mem_places hi)]
            rfl
          rw [extractNamed, hlook]
          simp only
          rw [hused]
          by_cases hmem : i ∈ done.filterMap (named fargs)
          · rw [(isSome_namedInfo (lt_of_mem_places hi)).mpr hmem]
            refine ⟨fun hnodup => absurd hnodup ?_, fun _ => ⟨_, rfl⟩⟩
            rw [List.filterMap_append, List.filterMap_cons_some hname]
            exact fun hnodup =>
              (List.nodup_append.mp hnodup).2.2 i hmem i List.mem_cons_self rfl
          · have hnone : (namedInfo fargs done i).isSome = false :=
              Bool.eq_false_iff.mpr fun h =>
                hmem ((isSome_namedInfo (lt_of_mem_places hi)).mp h)
            have hdone' : ((done ++ [ettaggedexpr symb ref e]).filterMap (named fargs)).Nodup := by
              rw [List.filterMap_append, List.filterMap_cons_some hname, List.filterMap_nil]
              exact List.Nodup.append hdone (List.nodup_singleton i)
                (List.disjoint_singleton.mpr hmem)
            have hput := put_map (nodup_places fargs) (getElem?_slot hf hi)
              ⟨etsymbol symb ref, e, false, false, ref⟩ (namedInfo fargs done) []
            rw [List.append_nil, List.append_nil] at hput
            rw [hnone]
            simp only
            rw [show (usedAfter fargs done (ettaggedexpr symb ref e :: el)).res =
              (places fargs).map (namedInfo fargs done) from rfl, hput, bind_ok,
              ← usedAfter_of_some hname hmem, hlen, hsplit]
            exact ih hdone'

/-! ## The arguments by position -/

/-- Writes at the places of a list. -/
def settle (ps : List (Nat × Option ArgInfo)) (φ : Nat → Option ArgInfo) : Nat → Option ArgInfo :=
  ps.foldl (fun φ p => Function.update φ p.1 p.2) φ

/-- The places as far as the ellipsis. -/
def untilEllipsis (fargs : List E) (F : List Nat) : List Nat :=
  F.takeWhile fun i => !(fargs[i]?).any isEllipsis

/-- The formal arguments `W` take the plain ones of the actual arguments `G`. -/
def taken (fargs aargs : List E) (W G : List Nat) : List (Nat × Option ArgInfo) :=
  (W.zip (G.filter fun k => (aargs[k]?).any isPlain)).map fun p =>
    (p.1, (fargs[p.1]?).bind fun f => (aargs[p.2]?).bind (bound f))

/-- The actual arguments that the formal arguments `W` do not take. -/
def spilled (aargs : List E) : List Nat → List Nat → List Nat
  | _, [] => []
  | W, k :: G =>
    if (aargs[k]?).any isPlain then
      match W with
      | [] => k :: spilled aargs [] G
      | _ :: W => spilled aargs W G
    else k :: spilled aargs W G

theorem spilled_of_tagged {aargs : List E} {W G : List Nat} {k : Nat}
    (h : (aargs[k]?).any isPlain = false) : spilled aargs W (k :: G) = k :: spilled aargs W G := by
  rw [spilled.eq_def]
  simp only
  rw [h, if_neg (by decide)]

theorem spilled_nil {aargs : List E} {G : List Nat} {k : Nat} :
    spilled aargs [] (k :: G) = k :: spilled aargs [] G := by
  rw [spilled.eq_def]
  simp only
  split <;> rfl

theorem spilled_of_plain {aargs : List E} {W G : List Nat} {i k : Nat}
    (h : (aargs[k]?).any isPlain = true) : spilled aargs (i :: W) (k :: G) = spilled aargs W G := by
  rw [spilled.eq_def]
  simp only
  rw [h, if_pos rfl]

section Places

variable (to_string : E → String) {fargs aargs : List E} {ufargs ugargs : List Bool}

theorem Cursor.At.eln {c : Cursor} {i : Nat} {L : List Nat} (h : c.At l uargs (i :: L)) :
    ∃ e eln, l[i]? = some e ∧ c.eln = e :: eln ∧ 0 ≤ c.idx ∧ c.idx.toNat = i := by
  obtain ⟨hidx, heln, hi, -⟩ := h
  exact ⟨l[i], l.drop (i + 1), List.getElem?_eq_getElem hi,
    by rw [heln, List.drop_eq_getElem_cons hi], by omega, by omega⟩

/-- What the cursors stand for when the actual argument at `k` is used. -/
theorem consume_spec (hf : Formals fargs) (ha : Actuals aargs) (hulen : ufargs.length = fargs.length)
    {f g : Cursor} {i k : Nat} {F G : List Nat} {φ : Nat → Option ArgInfo}
    {w : List (Option ArgInfo)} (hF : f.At fargs ufargs (i :: F))
    (hG : g.At aargs ugargs (k :: G))
    (hslot : ∀ j ∈ untilEllipsis fargs (i :: F), slot (ellipsisAt fargs) j = j) :
    ((aargs[k]?).any isPlain = false → ellipsisAt fargs = -1 →
      ∃ e, consume to_string (ellipsisAt fargs) ufargs ⟨f, g, (places fargs).map φ ++ w⟩ =
        .throw e ()) ∧
    ((aargs[k]?).any isPlain = false → ellipsisAt fargs ≠ -1 →
      consume to_string (ellipsisAt fargs) ufargs ⟨f, g, (places fargs).map φ ++ w⟩ =
        .ok ⟨f, g, (places fargs).map φ ++ (w ++ [(aargs[k]?).bind spare])⟩ ()) ∧
    ((aargs[k]?).any isPlain = true → (fargs[i]?).any isEllipsis = true →
      consume to_string (ellipsisAt fargs) ufargs ⟨f, g, (places fargs).map φ ++ w⟩ =
        .ok ⟨f, g, (places fargs).map φ ++ (w ++ [(aargs[k]?).bind spare])⟩ ()) ∧
    ((aargs[k]?).any isPlain = true → (fargs[i]?).any isEllipsis = false →
      ∃ f', f'.At fargs ufargs F ∧
        consume to_string (ellipsisAt fargs) ufargs ⟨f, g, (places fargs).map φ ++ w⟩ =
          .ok ⟨f', g, (places fargs).map (Function.update φ i
            ((fargs[i]?).bind fun f => (aargs[k]?).bind (bound f))) ++ w⟩ ()) := by
  obtain ⟨fe, feln, hfi, hfeln, hf0, hfnat⟩ := hF.eln
  obtain ⟨a, geln, hak, hgeln, -, -⟩ := hG.eln
  have hmem : a ∈ aargs := List.mem_of_getElem? hak
  rw [hak, hfi, Option.any_some, Option.any_some, Option.bind_some, Option.bind_some]
  rw [consume]
  simp only [hfeln, hgeln]
  rcases ha a hmem with ⟨symb, ref, e, rfl⟩ | ⟨ref, e, rfl⟩
  · refine ⟨fun _ hpos => ?_, fun _ hpos => ?_, nofun, nofun⟩
    · exact ⟨_, if_neg (not_not.mpr hpos)⟩
    · simp only
      rw [if_pos hpos, List.append_assoc]
      rfl
  · refine ⟨nofun, nofun, fun _ hell => ?_, fun _ hell => ?_⟩
    · simp only
      rw [if_pos hell, List.append_assoc]
      rfl
    · have hi : i ∈ places fargs := List.mem_filter.mpr
        ⟨List.mem_range.mpr hF.2.2.1, by rw [hfi, Option.any_some, hell, Bool.not_false]⟩
      have hself : slot (ellipsisAt fargs) i = i := hslot i (by
        rw [untilEllipsis, List.takeWhile_cons_of_pos (by rw [hfi, Option.any_some, hell]; rfl)]
        exact List.mem_cons_self)
      have hget := getElem?_slot hf hi
      rw [hself] at hget
      obtain ⟨f', hnext, hf'⟩ := getUnused_next hulen hF
      refine ⟨f', hf', ?_⟩
      simp only
      rw [if_neg (by rw [hell]; decide), hfnat, put_map (nodup_places fargs) hget, bind_ok]
      rw [hnext, bind_ok]
      rfl

/-- The end of the loop: what is left of the actual arguments goes to the ellipsis. -/
theorem consumeAll_spec (hf : Formals fargs) (ha : Actuals aargs)
    (hulen : ufargs.length = fargs.length) (hglen : ugargs.length = aargs.length) {G : List Nat}
    {F : List Nat} {f g : Cursor} {fuel : Nat} {φ : Nat → Option ArgInfo}
    {w : List (Option ArgInfo)} (hfuel : G.length < fuel) (hF : f.At fargs ufargs F)
    (hG : g.At aargs ugargs G)
    (hslot : ∀ j ∈ untilEllipsis fargs F, slot (ellipsisAt fargs) j = j)
    (hell : ellipsisAt fargs = -1 ↔ ∀ i ∈ F, (fargs[i]?).any isEllipsis = false) :
    (ellipsisAt fargs ≠ -1 ∨ spilled aargs (untilEllipsis fargs F) G = [] → ∃ f' g',
      consumeAll to_string (ellipsisAt fargs) ufargs ugargs fuel
          ⟨f, g, (places fargs).map φ ++ w⟩ =
        .ok ⟨f', g', (places fargs).map (settle (taken fargs aargs (untilEllipsis fargs F) G) φ) ++
          (w ++ (spilled aargs (untilEllipsis fargs F) G).map fun k => (aargs[k]?).bind spare)⟩ () ∧
      f'.At fargs ufargs (F.drop (taken fargs aargs (untilEllipsis fargs F) G).length) ∧
      g'.idx = -1) ∧
    (ellipsisAt fargs = -1 → spilled aargs (untilEllipsis fargs F) G ≠ [] →
      (∃ e, consumeAll to_string (ellipsisAt fargs) ufargs ugargs fuel
          ⟨f, g, (places fargs).map φ ++ w⟩ = .throw e ()) ∨
      ∃ p a eln, consumeAll to_string (ellipsisAt fargs) ufargs ugargs fuel
          ⟨f, g, (places fargs).map φ ++ w⟩ = .ok p () ∧ 0 ≤ p.g.idx ∧ p.g.eln = a :: eln) := by
  induction G generalizing F f g fuel φ w with
  | nil =>
      obtain ⟨fuel, rfl⟩ : ∃ n, fuel = n + 1 := ⟨fuel - 1, by simp only [List.length_nil] at hfuel; omega⟩
      have hg : g.idx = -1 := hG
      rw [consumeAll, if_neg (by simp only; omega)]
      refine ⟨fun _ => ⟨f, g, ?_, ?_, hg⟩, fun _ h => absurd rfl h⟩
      · rw [taken, List.filter_nil, List.zip_nil_right, spilled, List.map_nil, List.map_nil,
          List.append_nil]
        rfl
      · rw [taken, List.filter_nil, List.zip_nil_right]
        exact hF
  | cons k G ih =>
      obtain ⟨fuel, rfl⟩ : ∃ n, fuel = n + 1 := ⟨fuel - 1, by omega⟩
      have hfuel' : G.length < fuel := by
        rw [List.length_cons] at hfuel
        omega
      obtain ⟨a, geln, hak, hgeln, hg0, -⟩ := hG.eln
      obtain ⟨g', hgnext, hg'⟩ := getUnused_next hglen hG
      have hstep : ∀ {f' : Cursor} {res res' : List (Option ArgInfo)}, 0 ≤ f.idx →
          consume to_string (ellipsisAt fargs) ufargs ⟨f, g, res⟩ = .ok ⟨f', g, res'⟩ () →
          consumeAll to_string (ellipsisAt fargs) ufargs ugargs (fuel + 1) ⟨f, g, res⟩ =
            consumeAll to_string (ellipsisAt fargs) ufargs ugargs fuel ⟨f', g', res'⟩ := by
        intro f' res res' hf0 hconsume
        rw [consumeAll, if_pos ⟨hf0, hg0⟩, hconsume, bind_ok]
        simp only
        rw [hgnext, bind_ok]
      cases F with
      | nil =>
          -- no formal argument is left, and the actual one is for nothing
          have hf0 : f.idx = -1 := hF
          have hnone : ellipsisAt fargs = -1 := hell.mpr nofun
          have hspill : spilled aargs (untilEllipsis fargs []) (k :: G) =
              k :: spilled aargs [] G := by
            rw [untilEllipsis, List.takeWhile_nil, spilled_nil]
          rw [hspill, consumeAll, if_neg (by simp only; omega)]
          refine ⟨fun h => ?_, fun _ _ => .inr ⟨_, a, geln, rfl, hg0, hgeln⟩⟩
          exact absurd (h.resolve_left (not_not.mpr hnone)) (List.cons_ne_nil _ _)
      | cons i F =>
          obtain ⟨fe, feln, hfi, -, hf0, -⟩ := hF.eln
          obtain ⟨hthrow, htagged, hplain, hbound⟩ :=
            consume_spec to_string (φ := φ) (w := w) hf ha hulen hF hG hslot
          cases hak' : (aargs[k]?).any isPlain with
          | false =>
              have htake : taken fargs aargs (untilEllipsis fargs (i :: F)) (k :: G) =
                  taken fargs aargs (untilEllipsis fargs (i :: F)) G := by
                rw [taken, List.filter_cons_of_neg (by rw [hak']; decide), taken]
              rw [spilled_of_tagged hak', htake]
              by_cases hpos : ellipsisAt fargs = -1
              · obtain ⟨e, he⟩ := hthrow hak' hpos
                refine ⟨fun h => ?_, fun _ _ => .inl ⟨e, ?_⟩⟩
                · exact absurd (h.resolve_left (not_not.mpr hpos)) (List.cons_ne_nil _ _)
                · rw [consumeAll, if_pos ⟨hf0, hg0⟩, he]
                  rfl
              · refine ⟨fun _ => ?_, fun h => absurd h hpos⟩
                rw [List.map_cons, List.append_cons w, hstep hf0 (htagged hak' hpos)]
                exact (ih hfuel' hF hg' hslot hell).1 (.inl hpos)
          | true =>
              cases hfe : (fargs[i]?).any isEllipsis with
              | true =>
                  have hpos : ellipsisAt fargs ≠ -1 := fun h => by
                    rw [hell.mp h i List.mem_cons_self] at hfe
                    cases hfe
                  have hnil : untilEllipsis fargs (i :: F) = [] := by
                    rw [untilEllipsis, List.takeWhile_cons_of_neg (by rw [hfe]; decide)]
                  have hrest := ih (w := w ++ [(aargs[k]?).bind spare]) (φ := φ) hfuel' hF hg'
                    hslot hell
                  rw [hnil] at hrest ⊢
                  refine ⟨fun _ => ?_, fun h => absurd h hpos⟩
                  have htake : ∀ G, taken fargs aargs [] G = [] := fun G => by
                    rw [taken, List.zip_nil_left, List.map_nil]
                  rw [htake] at hrest ⊢
                  rw [spilled_nil, List.map_cons, List.append_cons w, hstep hf0 (hplain hak' hfe)]
                  exact hrest.1 (.inl hpos)
              | false =>
                  obtain ⟨f', hf', hconsume⟩ := hbound hak' hfe
                  have huntil : untilEllipsis fargs (i :: F) = i :: untilEllipsis fargs F := by
                    rw [untilEllipsis, List.takeWhile_cons_of_pos (by rw [hfe]; rfl), untilEllipsis]
                  have hell' : ellipsisAt fargs = -1 ↔
                      ∀ j ∈ F, (fargs[j]?).any isEllipsis = false := by
                    rw [hell, List.forall_mem_cons]
                    exact and_iff_right hfe
                  rw [huntil] at hslot ⊢
                  rw [hstep hf0 hconsume, spilled_of_plain hak']
                  have htake : taken fargs aargs (i :: untilEllipsis fargs F) (k :: G) =
                      (i, (fargs[i]?).bind fun f => (aargs[k]?).bind (bound f)) ::
                        taken fargs aargs (untilEllipsis fargs F) G := by
                    rw [taken, List.filter_cons_of_pos (p := fun k => (aargs[k]?).any isPlain) hak',
                      List.zip_cons_cons, List.map_cons, taken]
                  rw [htake]
                  exact ih hfuel' hf' hg' (fun j hj => hslot j (.tail _ hj)) hell'

/-- The formal arguments of `F` with their defaults. -/
def defaults (fargs : List E) (F : List Nat) : List (Nat × Option ArgInfo) :=
  (F.filter fun i => !(fargs[i]?).any isEllipsis).map fun i => (i, (fargs[i]?).bind byDefault)

theorem findDefaults_spec (hf : Formals fargs) (hulen : ufargs.length = fargs.length)
    (geln : List E) {F : List Nat} {c : Cursor} {fuel : Nat} {φ : Nat → Option ArgInfo}
    {w : List (Option ArgInfo)} (hfuel : F.length < fuel) (hF : c.At fargs ufargs F) :
    ((∃ i ∈ F, (fargs[i]?).any isEllipsis = false ∧ (fargs[i]?).bind byDefault = none) →
      ∃ e, findDefaults to_string (ellipsisAt fargs) ufargs geln fuel c
        ((places fargs).map φ ++ w) = .throw e ()) ∧
    ((∀ i ∈ F, (fargs[i]?).any isEllipsis = false → (fargs[i]?).bind byDefault ≠ none) →
      findDefaults to_string (ellipsisAt fargs) ufargs geln fuel c ((places fargs).map φ ++ w) =
        .ok ((places fargs).map (settle (defaults fargs F) φ) ++ w) ()) := by
  induction F generalizing c fuel φ with
  | nil =>
      obtain ⟨fuel, rfl⟩ : ∃ n, fuel = n + 1 := ⟨fuel - 1, by rw [List.length_nil] at hfuel; omega⟩
      have hc : c.idx = -1 := hF
      rw [findDefaults, if_neg (by omega)]
      exact ⟨fun ⟨_, hi, _⟩ => absurd hi List.not_mem_nil, fun _ => rfl⟩
  | cons i F ih =>
      obtain ⟨fuel, rfl⟩ : ∃ n, fuel = n + 1 := ⟨fuel - 1, by omega⟩
      have hfuel' : F.length < fuel := by
        rw [List.length_cons] at hfuel
        omega
      obtain ⟨f, eln, hfi, heln, hc0, hcnat⟩ := hF.eln
      obtain ⟨c', hnext, hc'⟩ := getUnused_next hulen hF
      have hi : isEllipsis f = false → i ∈ places fargs := fun h =>
        List.mem_filter.mpr ⟨List.mem_range.mpr hF.2.2.1, by rw [hfi, Option.any_some, h, Bool.not_false]⟩
      rw [findDefaults, if_pos hc0, heln]
      simp only
      rw [List.forall_mem_cons, hfi, Option.any_some, Option.bind_some]
      have hexists : (∃ j ∈ i :: F, (fargs[j]?).any isEllipsis = false ∧
          (fargs[j]?).bind byDefault = none) ↔ (isEllipsis f = false ∧ byDefault f = none) ∨
          ∃ j ∈ F, (fargs[j]?).any isEllipsis = false ∧ (fargs[j]?).bind byDefault = none := by
        rw [List.exists_mem_cons_iff, hfi, Option.any_some, Option.bind_some]
      rw [hexists]
      split
      · next symb ref e =>
          have hput := put_map (nodup_places fargs) (getElem?_slot hf (hi rfl))
            ⟨etsymbol symb ref, e, true, false, false⟩ φ w
          have hdefaults : defaults fargs (i :: F) =
              (i, some ⟨etsymbol symb ref, e, true, false, false⟩) :: defaults fargs F := by
            rw [defaults, List.filter_cons_of_pos (by rw [hfi]; rfl), List.map_cons, hfi]
            rfl
          rw [hcnat, hput, bind_ok, hnext, bind_ok, hdefaults]
          exact ⟨fun h => (ih hfuel' hc').1 (h.resolve_left fun h => nomatch h.2),
            fun h => (ih hfuel' hc').2 h.2⟩
      · have hdefaults : defaults fargs (i :: F) = defaults fargs F := by
          rw [defaults, List.filter_cons_of_neg (by rw [hfi]; decide), defaults]
        rw [hnext, bind_ok, hdefaults]
        exact ⟨fun h => (ih hfuel' hc').1 (h.resolve_left fun h => nomatch h.1),
          fun h => (ih hfuel' hc').2 h.2⟩
      · next hno hell =>
          have hmissing : isEllipsis f = false ∧ byDefault f = none := by
            cases f with
            | ettaggedexpr symb ref e => exact absurd rfl (hno symb ref e)
            | etellipsis => exact absurd rfl hell
            | _ => exact ⟨rfl, rfl⟩
          refine ⟨fun _ => ?_, fun h => absurd hmissing.2 (h.1 hmissing.1)⟩
          split
          · exact ⟨_, rfl⟩
          · exact ⟨_, rfl⟩

end Places

end Ztsdb.Lang.Args
