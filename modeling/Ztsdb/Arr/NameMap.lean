import Mathlib
import Ztsdb.Arr.Dname

/-!
# Looking names up

A `Dname` keeps, beside the names of the places, a map from each name back to its places.
Some operations add to the map what they add to the names, others build it again. The empty
name stands for none and is not in the map; when no place has a name there are none at all.

A name goes into the vector of names as a `zstring`, and into the map as the string it was.
Extents are numbers here: names fit into memory long before they wrap.
-/

namespace Ztsdb.Arr

open Ztsdb.Lib

/-- A text that has its terminator within the buffer comes back from its string. -/
theorem ZString.ofString_chars {s : ZString} (h : s.chars.length < STRING_SIZE) :
    ZString.ofString s.chars = s := by
  have hall : ∀ c ∈ s.chars, (c != 0) = true := by
    intro c hc
    rw [bne_iff_ne]
    intro h0
    exact s.nonzero (h0 ▸ hc)
  rw [ZString.ofString, List.take_of_length_le (by omega), ZString.ofBuffer]
  simp only [List.take_of_length_le s.short, List.takeWhile_eq_self_iff.mpr hall]

/-- `std::map<std::string, std::set<size_t>>`. -/
abbrev NamesMap := AList fun _ : List UInt8 => Finset Nat

/-- One place of one name: `find`, and then `emplace` or `insert`. -/
def NamesMap.add (s : List UInt8) (j : Nat) (m : NamesMap) : NamesMap :=
  match m.lookup s with
  | none => m.insert s {j}
  | some ps => m.insert s (insert j ps)

/-- `putNamesInMap`, from place `j` on. -/
def putNamesInMap : Nat → List ZString → NamesMap → NamesMap
  | _, [], m => m
  | j, s :: names, m =>
    putNamesInMap (j + 1) names (if s.chars ≠ [] then NamesMap.add s.chars j m else m)

structure NameRecord where
  sz : Nat
  names : List ZString
  namesMap : NamesMap

namespace NameRecord

def hasNames (d : NameRecord) : Bool := decide (d.sz ≠ 0 ∧ d.sz = d.names.length)

/-- The map built again; without a name in it there are no names. -/
def rebuild (sz : Nat) (names : List ZString) : NameRecord :=
  let namesMap := putNamesInMap 0 names ∅
  { sz, names := if namesMap.entries = [] then [] else names, namesMap }

/-- `Dname(n, names)`. -/
def make (n : Nat) (names : List ZString) : Outcome Exn Unit NameRecord :=
  if names.length ≠ 0 ∧ names.length ≠ n then
    .throw (.rangeError "length of 'dimnames' not equal to array extent") ()
  else .ok { sz := n, names, namesMap := putNamesInMap 0 names ∅ } ()

/-- `resize(n, from)`. -/
def resize (n frm : Nat) (d : NameRecord) : Outcome Exn Unit NameRecord :=
  if d.names.length = 0 then .ok { d with sz := n } ()
  else if d.names.length ≤ frm then .throw (.outOfRange "resize from out of bounds") ()
  else
    .ok (rebuild n ((d.names.drop frm).take n ++
      List.replicate (n - (d.names.length - frm)) ZString.empty)) ()

/-- `assign(i, s)`. -/
def assign (i : Nat) (s : List UInt8) (d : NameRecord) : Outcome Exn Unit NameRecord :=
  if d.sz ≤ i then .throw (.rangeError "index out of bound") ()
  else if s = [] ∧ d.names.length = 0 then .ok d ()
  else if d.hasNames = false then
    .ok { d with names := (List.replicate d.sz ZString.empty).set i (ZString.ofString s) } ()
  else .ok (rebuild d.sz (d.names.set i (ZString.ofString s))) ()

/-- The names, empty ones where there were none. -/
def someNames (d : NameRecord) : List ZString :=
  if d.names.length = 0 then List.replicate d.sz ZString.empty else d.names

/-- `addafter(s)`. -/
def addname (s : List UInt8) (d : NameRecord) : Outcome Exn Unit NameRecord :=
  if s = [] ∧ d.names.length = 0 then .ok { d with sz := d.sz + 1 } ()
  else
    .ok { sz := d.sz + 1
          names := d.someNames ++ [ZString.ofString s]
          namesMap := d.namesMap.add s d.sz } ()

/-- The loop of `addafter` over the names of another record, from place `j` on. -/
def addEach : Nat → List ZString → NamesMap → NamesMap
  | _, [], m => m
  | j, s :: names, m => addEach (j + 1) names (NamesMap.add s.chars j m)

/-- `addafter(dn)`. -/
def addafter (dn d : NameRecord) : Outcome Exn Unit NameRecord :=
  .ok { sz := d.sz + dn.sz
        names :=
          if dn.names.length ≠ 0 then d.someNames ++ dn.names
          else if d.names.length ≠ 0 then d.names ++ List.replicate dn.sz ZString.empty
          else d.names
        namesMap := addEach d.sz dn.names d.namesMap } ()

/-- `remove(n, nm)`. The name is not looked at. -/
def removeFrom (n : Nat) (d : NameRecord) : Outcome Exn Unit NameRecord :=
  if n < d.names.length then .ok (rebuild (d.sz - 1) (d.names.eraseIdx n)) () else .fault

/-- `remove(n)`. -/
def removeAt (n : Nat) (d : NameRecord) : Outcome Exn Unit NameRecord :=
  if d.sz ≤ n then .throw (.rangeError "subscript out of bounds") () else removeFrom n d

/-- `operator[](s)`: the first of the places. -/
def get (s : List UInt8) (d : NameRecord) : Except Exn Nat :=
  match d.namesMap.lookup s with
  | none => .error (.rangeError "subscript out of bounds")
  | some ps => .ok (ps.min.untopD 0)

/-- `remove(nm)`. -/
def removeName (s : List UInt8) (d : NameRecord) : Outcome Exn Unit NameRecord :=
  match d.get s with
  | .error e => .throw e ()
  | .ok n => removeFrom n d

/-- `addprefix(prefix)`. -/
def addprefix (pre : List UInt8) (d : NameRecord) : Outcome Exn Unit NameRecord :=
  if pre = [] then .ok d ()
  else
    let names := if d.sz ≠ d.names.length then List.replicate d.sz ZString.empty else d.names
    let names := names.mapIdx fun i s => Dname.prefixed pre names.length i s
    .ok { d with names, namesMap := putNamesInMap 0 names ∅ } ()

/-! ## Steps -/

inductive Op where
  | resize (n frm : Nat)
  | assign (i : Nat) (s : List UInt8)
  | addname (s : List UInt8)
  | addafter (dn : NameRecord)
  | removeAt (n : Nat)
  | removeName (s : List UInt8)
  | prefixAll (pre : List UInt8)

def Op.run : Op → NameRecord → Outcome Exn Unit NameRecord
  | .resize n frm => NameRecord.resize n frm
  | .assign i s => NameRecord.assign i s
  | .addname s => NameRecord.addname s
  | .addafter dn => NameRecord.addafter dn
  | .removeAt n => NameRecord.removeAt n
  | .removeName s => NameRecord.removeName s
  | .prefixAll pre => NameRecord.addprefix pre

/-- The other record that a step reads. -/
def Op.operands : Op → List NameRecord
  | .addafter dn => [dn]
  | _ => []

/-- The records that steps which return normally, each under its condition, make. -/
inductive Reach (C : Op → NameRecord → Prop) : NameRecord → Prop
  | make {n : Nat} {names : List ZString} {d : NameRecord} : make n names = .ok d () → Reach C d
  | step {op : Op} {d d' : NameRecord} : Reach C d → (∀ dn ∈ op.operands, Reach C dn) → C op d →
      op.run d = .ok d' () → Reach C d'

/-- A string that its `zstring` keeps, with the byte that ends it. -/
def Short (s : List UInt8) : Prop := s.length + 1 < STRING_SIZE ∧ 0 ∉ s

/-- No name is put where there were none before, and nothing adds an empty name to names. -/
def Op.Safe : Op → NameRecord → Prop
  | .assign _ s, d => s = [] ∨ d.hasNames = true
  | .addname s, d => Short s ∧ (s = [] → d.names = [])
  | .addafter dn, _ => ∀ s ∈ dn.names, s.chars ≠ []
  | _, _ => True

/-! ## What the map holds -/

/-- The places of a name. -/
def positions (names : List ZString) (s : List UInt8) : Finset Nat :=
  (Finset.range names.length).filter fun j => (names[j]?).map ZString.chars = some s

theorem mem_positions {names : List ZString} {s : List UInt8} {j : Nat} :
    j ∈ positions names s ↔ (names[j]?).map ZString.chars = some s := by
  rw [positions, Finset.mem_filter, Finset.mem_range]
  refine and_iff_right_of_imp fun h => ?_
  obtain ⟨x, hx, -⟩ := Option.map_eq_some_iff.1 h
  exact (List.getElem?_eq_some_iff.1 hx).1

theorem positions_append {names : List ZString} {x : ZString} {s : List UInt8} :
    positions (names ++ [x]) s =
      if x.chars = s then insert names.length (positions names s) else positions names s := by
  ext j
  have hlast : (names ++ [x])[j]? = if j < names.length then names[j]? else if j = names.length then some x
      else none := by
    rcases Nat.lt_trichotomy j names.length with hlt | rfl | hgt
    · rw [List.getElem?_append_left hlt, if_pos hlt]
    · simp
    · rw [if_neg (by omega), if_neg (by omega)]
      exact List.getElem?_eq_none (by rw [List.length_append, List.length_singleton]; omega)
  rw [mem_positions, hlast]
  split
  next hlt =>
    have hne : j ≠ names.length := by omega
    split <;> simp [mem_positions, hne]
  next hge =>
    have hnone : names[j]? = none := List.getElem?_eq_none (by omega)
    by_cases hj : j = names.length <;> by_cases hx : x.chars = s <;> simp [mem_positions, hnone, hj, hx]

/-- The map has each name but the empty one, with its places. -/
def Mapped (names : List ZString) (m : NamesMap) : Prop :=
  ∀ s, m.lookup s = if s ≠ [] ∧ (positions names s).Nonempty then some (positions names s) else none

theorem mapped_nil : Mapped [] ∅ := by
  intro s
  rw [AList.lookup_empty, if_neg]
  rintro ⟨-, j, hj⟩
  rw [mem_positions] at hj
  cases hj

theorem Mapped.add {names : List ZString} {m : NamesMap} {x : ZString} (h : Mapped names m)
    (hx : x.chars ≠ []) : Mapped (names ++ [x]) (m.add x.chars names.length) := by
  intro s
  have hadd : m.add x.chars names.length =
      m.insert x.chars (insert names.length (positions names x.chars)) := by
    rw [NamesMap.add, h x.chars]
    by_cases hne : (positions names x.chars).Nonempty
    · rw [if_pos ⟨hx, hne⟩]
    · rw [if_neg (fun hc => hne hc.2), Finset.not_nonempty_iff_eq_empty.1 hne]
      rfl
  rw [hadd, positions_append]
  by_cases hs : x.chars = s
  · subst hs
    rw [AList.lookup_insert, if_pos rfl, if_pos ⟨hx, Finset.insert_nonempty _ _⟩]
  · rw [AList.lookup_insert_ne (Ne.symm hs), if_neg hs]
    exact h s

theorem Mapped.skip {names : List ZString} {m : NamesMap} {x : ZString} (h : Mapped names m)
    (hx : x.chars = []) : Mapped (names ++ [x]) m := by
  intro s
  rw [h s, positions_append]
  by_cases hs : x.chars = s
  · have hnil : ¬ s ≠ [] := not_not.2 (hs.symm.trans hx)
    rw [if_neg (fun hc => hnil hc.1), if_neg (fun hc => hnil hc.1)]
  · rw [if_neg hs]

theorem Mapped.put {names names' : List ZString} {m : NamesMap} (h : Mapped names m) :
    Mapped (names ++ names') (putNamesInMap names.length names' m) := by
  induction names' generalizing names m with
  | nil => rwa [List.append_nil]
  | cons x names' ih =>
      rw [putNamesInMap, show names ++ x :: names' = names ++ [x] ++ names' by simp,
        show names.length + 1 = (names ++ [x]).length by simp]
      split
      next hx => exact ih (h.add hx)
      next hx => exact ih (h.skip (not_not.1 hx))

theorem Mapped.addEach {names names' : List ZString} {m : NamesMap} (h : Mapped names m)
    (hne : ∀ s ∈ names', s.chars ≠ []) : Mapped (names ++ names') (addEach names.length names' m) := by
  induction names' generalizing names m with
  | nil => rwa [List.append_nil]
  | cons x names' ih =>
      rw [NameRecord.addEach, show names ++ x :: names' = names ++ [x] ++ names' by simp,
        show names.length + 1 = (names ++ [x]).length by simp]
      exact ih (h.add (hne x List.mem_cons_self)) fun s hs => hne s (List.mem_cons_of_mem x hs)

theorem mapped_put (names : List ZString) : Mapped names (putNamesInMap 0 names ∅) :=
  mapped_nil.put

theorem Mapped.replicate {names : List ZString} {m : NamesMap} (h : Mapped names m) (n : Nat) :
    Mapped (names ++ List.replicate n ZString.empty) m := by
  induction n generalizing names with
  | zero => rwa [List.replicate_zero, List.append_nil]
  | succ n ih =>
      rw [List.replicate_succ, show ∀ l, names ++ ZString.empty :: l = names ++ [ZString.empty] ++ l by simp]
      exact ih (h.skip rfl)

/-! ## The invariant -/

/-- The names of a record are mapped, and there are none or as many as places. -/
structure Inv (d : NameRecord) : Prop where
  mapped : Mapped d.names d.namesMap
  full : d.names = [] ∨ d.names.length = d.sz

theorem rebuild_inv {sz : Nat} {names : List ZString} (h : names = [] ∨ names.length = sz) :
    (rebuild sz names).Inv := by
  have hmapped := mapped_put names
  rw [rebuild]
  split
  next hnil =>
    refine ⟨?_, .inl rfl⟩
    rw [show putNamesInMap 0 names ∅ = ∅ from AList.ext hnil]
    exact mapped_nil
  next => exact ⟨hmapped, h⟩

theorem Inv.someNames {d : NameRecord} (h : d.Inv) :
    Mapped d.someNames d.namesMap ∧ d.someNames.length = d.sz := by
  rw [NameRecord.someNames]
  split
  next h0 =>
    have hnil : d.names = [] := List.eq_nil_of_length_eq_zero h0
    have hm := h.mapped.replicate d.sz
    rw [hnil, List.nil_append] at hm
    exact ⟨hm, List.length_replicate⟩
  next h0 => exact ⟨h.mapped, h.full.resolve_left fun hnil => h0 (by rw [hnil]; rfl)⟩

theorem make_inv {n : Nat} {names : List ZString} {d : NameRecord} (h : make n names = .ok d ()) : d.Inv := by
  rw [make] at h
  split at h
  · cases h
  next hfit =>
    cases h
    refine ⟨mapped_put names, ?_⟩
    by_cases h0 : names = []
    · exact .inl h0
    · have hlen : names.length ≠ 0 := fun hz => h0 (List.eq_nil_of_length_eq_zero hz)
      exact .inr (by simp only; omega)

theorem resize_inv {n frm : Nat} {d d' : NameRecord} (hd : d.Inv) (h : resize n frm d = .ok d' ()) : d'.Inv := by
  rw [resize] at h
  split at h
  next h0 =>
    cases h
    exact ⟨hd.mapped, .inl (List.eq_nil_of_length_eq_zero h0)⟩
  next =>
    split at h
    next => cases h
    next =>
      cases h
      refine rebuild_inv (.inr ?_)
      rw [List.length_append, List.length_take, List.length_drop, List.length_replicate]
      omega

theorem assign_inv {i : Nat} {s : List UInt8} {d d' : NameRecord} (hd : d.Inv)
    (hs : s = [] ∨ d.hasNames = true) (h : assign i s d = .ok d' ()) : d'.Inv := by
  rw [assign] at h
  split at h
  next => cases h
  next hi =>
    split at h
    next =>
      cases h
      exact hd
    next hsome =>
      have hlen : d.names.length = d.sz := by
        rcases hs with rfl | hhas
        · exact hd.full.resolve_left fun hnil => hsome ⟨rfl, by rw [hnil]; rfl⟩
        · exact (of_decide_eq_true hhas).2.symm
      have hhas : d.hasNames = true := decide_eq_true ⟨by omega, hlen.symm⟩
      rw [hhas, if_neg (by decide)] at h
      cases h
      exact rebuild_inv (.inr (by rw [List.length_set, hlen]))

theorem chars_ofString {s : List UInt8} (h : Short s) : (ZString.ofString s).chars = s := by
  have hlt : s.length < STRING_SIZE := Nat.lt_of_succ_lt h.1
  exact congrArg ZString.chars (ZString.ofString_chars (s := ⟨s, hlt.le, h.2⟩) hlt)

theorem addname_inv {s : List UInt8} {d d' : NameRecord} (hd : d.Inv) (hs : Short s)
    (hne : s = [] → d.names = []) (h : addname s d = .ok d' ()) : d'.Inv := by
  rw [addname] at h
  split at h
  next h0 =>
    cases h
    exact ⟨hd.mapped, .inl (List.eq_nil_of_length_eq_zero h0.2)⟩
  next hsome =>
    cases h
    obtain ⟨hmapped, hlen⟩ := hd.someNames
    have hchars := chars_ofString hs
    have hs0 : s ≠ [] := fun hs0 => hsome ⟨hs0, by rw [hne hs0]; rfl⟩
    have hadd := hmapped.add (x := ZString.ofString s) (by rw [hchars]; exact hs0)
    rw [hchars, hlen] at hadd
    exact ⟨hadd, .inr (by rw [List.length_append, hlen]; rfl)⟩

theorem addafter_inv {dn d d' : NameRecord} (hd : d.Inv) (hdn : dn.Inv) (hne : ∀ s ∈ dn.names, s.chars ≠ [])
    (h : addafter dn d = .ok d' ()) : d'.Inv := by
  cases h
  by_cases h0 : dn.names = []
  · by_cases hd0 : d.names = []
    · refine ⟨?_, .inl ?_⟩
      · have hmapped := hd.mapped
        rw [hd0] at hmapped
        simp only [h0, hd0, List.length_nil, ne_eq, not_true_eq_false, if_false]
        exact hmapped
      · simp only [h0, hd0, List.length_nil, ne_eq, not_true_eq_false, if_false]
    · have hlen : d.names.length ≠ 0 := fun hz => hd0 (List.eq_nil_of_length_eq_zero hz)
      have hfull := hd.full.resolve_left hd0
      refine ⟨?_, .inr ?_⟩
      · simp only [h0, List.length_nil, ne_eq, not_true_eq_false, if_false, hlen, not_false_eq_true, if_true]
        exact hd.mapped.replicate dn.sz
      · simp only [h0, List.length_nil, ne_eq, not_true_eq_false, if_false, hlen, not_false_eq_true, if_true]
        rw [List.length_append, List.length_replicate, hfull]
  · have hlen : dn.names.length ≠ 0 := fun hz => h0 (List.eq_nil_of_length_eq_zero hz)
    obtain ⟨hmapped, hsz⟩ := hd.someNames
    have heach := hmapped.addEach hne
    rw [hsz] at heach
    refine ⟨?_, .inr ?_⟩
    · simp only [hlen, ne_eq, not_false_eq_true, if_true]
      exact heach
    · simp only [hlen, ne_eq, not_false_eq_true, if_true]
      rw [List.length_append, hsz, hdn.full.resolve_left h0]

theorem removeFrom_inv {n : Nat} {d d' : NameRecord} (hd : d.Inv) (h : removeFrom n d = .ok d' ()) : d'.Inv := by
  rw [removeFrom] at h
  split at h
  next hn =>
    cases h
    have hfull : d.names.length = d.sz := hd.full.resolve_left fun hnil => by
      rw [hnil] at hn
      exact absurd hn (Nat.not_lt_zero n)
    exact rebuild_inv (.inr (by rw [List.length_eraseIdx_of_lt hn, hfull]))
  next => cases h

theorem addprefix_inv {pre : List UInt8} {d d' : NameRecord} (hd : d.Inv) (h : addprefix pre d = .ok d' ()) :
    d'.Inv := by
  unfold addprefix at h
  split at h
  next =>
    cases h
    exact hd
  next =>
    cases h
    refine ⟨mapped_put _, .inr ?_⟩
    simp only [List.length_mapIdx]
    split
    next => exact List.length_replicate
    next hlen => exact (not_not.1 hlen).symm

theorem step_inv {op : Op} {d d' : NameRecord} (hd : d.Inv) (hdn : ∀ dn ∈ op.operands, dn.Inv)
    (hs : op.Safe d) (h : op.run d = .ok d' ()) : d'.Inv := by
  cases op with
  | resize n frm => exact resize_inv hd h
  | assign i s => exact assign_inv hd hs h
  | addname s => exact addname_inv hd hs.1 hs.2 h
  | addafter dn => exact addafter_inv hd (hdn dn List.mem_cons_self) hs h
  | removeAt n =>
      rw [Op.run, removeAt] at h
      split at h
      next => cases h
      next => exact removeFrom_inv hd h
  | removeName s =>
      rw [Op.run, removeName] at h
      split at h
      next => cases h
      next => exact removeFrom_inv hd h
  | prefixAll pre => exact addprefix_inv hd h

theorem reach_inv {d : NameRecord} (h : Reach Op.Safe d) : d.Inv := by
  induction h with
  | make h => exact make_inv h
  | step _ _ hs h hd hdn => exact step_inv hd hdn hs h

/-- A name is found exactly when it is there, and then at its first place. -/
def Finds (d : NameRecord) : Prop :=
  ∀ s p, d.get s = .ok p ↔ s ≠ [] ∧ d.names.findIdx? (fun n => decide (n.chars = s)) = some p

theorem min_positions {names : List ZString} {s : List UInt8} {p : Nat} :
    (positions names s).Nonempty ∧ (positions names s).min.untopD 0 = p ↔
      names.findIdx? (fun n => decide (n.chars = s)) = some p := by
  rw [List.findIdx?_eq_some_iff_getElem]
  constructor
  · rintro ⟨hne, hmin⟩
    have hp := Finset.min'_mem _ hne
    have hlow : ∀ j ∈ positions names s, (positions names s).min' hne ≤ j :=
      fun j hj => Finset.min'_le (positions names s) j hj
    rw [← Finset.coe_min' hne, WithTop.untopD_coe] at hmin
    rw [hmin] at hp hlow
    obtain ⟨x, hx, hxs⟩ := Option.map_eq_some_iff.1 (mem_positions.1 hp)
    obtain ⟨hlt, rfl⟩ := List.getElem?_eq_some_iff.1 hx
    refine ⟨hlt, decide_eq_true hxs, fun j hj => ?_⟩
    rw [decide_eq_true_eq]
    intro hjs
    have hmem : j ∈ positions names s := by
      rw [mem_positions, List.getElem?_eq_getElem (by omega), Option.map_some, hjs]
    exact absurd (hlow j hmem) (by omega)
  · rintro ⟨hlt, hxs, hbefore⟩
    have hp : p ∈ positions names s := by
      rw [mem_positions, List.getElem?_eq_getElem hlt, Option.map_some, of_decide_eq_true hxs]
    have hne : (positions names s).Nonempty := ⟨p, hp⟩
    refine ⟨hne, ?_⟩
    rw [← Finset.coe_min' hne, WithTop.untopD_coe]
    refine le_antisymm (Finset.min'_le _ _ hp) (Finset.le_min' _ _ _ fun j hj => ?_)
    by_contra hlt'
    obtain ⟨x, hx, hjs⟩ := Option.map_eq_some_iff.1 (mem_positions.1 hj)
    obtain ⟨hjlen, rfl⟩ := List.getElem?_eq_some_iff.1 hx
    exact hbefore j (by omega) (decide_eq_true hjs)

theorem Inv.finds {d : NameRecord} (h : d.Inv) : d.Finds := by
  intro s p
  rw [← min_positions, get, h.mapped s]
  by_cases hc : s ≠ [] ∧ (positions d.names s).Nonempty
  · rw [if_pos hc]
    simp [hc]
  · rw [if_neg hc]
    refine iff_of_false nofun fun hf => hc ⟨hf.1, hf.2.1⟩

/-! ## What every step keeps -/

/-- Each name in the map has a place, and all its places are below `n`. -/
def Below (n : Nat) (m : NamesMap) : Prop :=
  ∀ s ps, m.lookup s = some ps → ps.Nonempty ∧ ∀ p ∈ ps, p < n

theorem below_empty (n : Nat) : Below n ∅ := by
  intro s ps h
  rw [AList.lookup_empty] at h
  cases h

theorem Below.mono {n k : Nat} {m : NamesMap} (h : Below n m) (hle : n ≤ k) : Below k m :=
  fun s ps hs => ⟨(h s ps hs).1, fun p hp => ((h s ps hs).2 p hp).trans_le hle⟩

theorem Below.add {n j : Nat} {m : NamesMap} (h : Below n m) (hj : j < n) (t : List UInt8) :
    Below n (m.add t j) := by
  intro s ps hs
  rw [NamesMap.add] at hs
  cases ht : m.lookup t with
  | none =>
      rw [ht] at hs
      by_cases hst : s = t
      · subst hst
        rw [AList.lookup_insert] at hs
        cases hs
        exact ⟨Finset.singleton_nonempty j, fun p hp => Finset.mem_singleton.1 hp ▸ hj⟩
      · rw [AList.lookup_insert_ne hst] at hs
        exact h s ps hs
  | some qs =>
      rw [ht] at hs
      by_cases hst : s = t
      · subst hst
        rw [AList.lookup_insert] at hs
        cases hs
        refine ⟨Finset.insert_nonempty j qs, fun p hp => ?_⟩
        rcases Finset.mem_insert.1 hp with rfl | hp
        · exact hj
        · exact (h s qs ht).2 p hp
      · rw [AList.lookup_insert_ne hst] at hs
        exact h s ps hs

theorem Below.put {n j : Nat} {names : List ZString} {m : NamesMap} (h : Below n m)
    (hn : j + names.length ≤ n) : Below n (putNamesInMap j names m) := by
  induction names generalizing j m with
  | nil => exact h
  | cons s names ih =>
      rw [List.length_cons] at hn
      rw [putNamesInMap]
      refine ih ?_ (by omega)
      split
      · exact h.add (by omega) s.chars
      · exact h

theorem Below.addEach {n j : Nat} {names : List ZString} {m : NamesMap} (h : Below n m)
    (hn : j + names.length ≤ n) : Below n (addEach j names m) := by
  induction names generalizing j m with
  | nil => exact h
  | cons s names ih =>
      rw [List.length_cons] at hn
      exact ih (h.add (by omega) s.chars) (by omega)

/-- There are no names or as many as places, and the map has places with names only. -/
structure Fits (d : NameRecord) : Prop where
  full : d.names = [] ∨ d.names.length = d.sz
  below : Below d.names.length d.namesMap

theorem Fits.get_lt {d : NameRecord} (h : d.Fits) {s : List UInt8} {p : Nat}
    (hp : d.get s = .ok p) : p < d.names.length := by
  rw [get] at hp
  cases hs : d.namesMap.lookup s with
  | none =>
      rw [hs] at hp
      cases hp
  | some ps =>
      rw [hs] at hp
      cases hp
      obtain ⟨hne, hlt⟩ := h.below s ps hs
      rw [← Finset.coe_min' hne, WithTop.untopD_coe]
      exact hlt _ (Finset.min'_mem ps hne)

theorem Inv.fits {d : NameRecord} (h : d.Inv) : d.Fits where
  full := h.full
  below s ps hs := by
    rw [h.mapped s] at hs
    obtain ⟨⟨-, hne⟩, hps⟩ := Option.ite_none_right_eq_some.1 hs
    cases hps
    refine ⟨hne, fun p hp => ?_⟩
    obtain ⟨x, hx, -⟩ := Option.map_eq_some_iff.1 (mem_positions.1 hp)
    exact (List.getElem?_eq_some_iff.1 hx).1

theorem Fits.length_someNames {d : NameRecord} (h : d.Fits) : d.someNames.length = d.sz := by
  rw [someNames]
  split
  next => exact List.length_replicate
  next h0 => exact h.full.resolve_left fun hnil => h0 (by rw [hnil]; rfl)

theorem Fits.length_le_someNames {d : NameRecord} (h : d.Fits) :
    d.names.length ≤ d.someNames.length := by
  rcases h.full with hnil | hlen
  · rw [hnil]
    exact Nat.zero_le _
  · rw [h.length_someNames, hlen]

theorem resize_fits {n frm : Nat} {d d' : NameRecord} (hd : d.Fits) (h : resize n frm d = .ok d' ()) :
    d'.Fits := by
  rw [resize] at h
  split at h
  next h0 =>
    cases h
    exact ⟨.inl (List.eq_nil_of_length_eq_zero h0), hd.below⟩
  next =>
    split at h
    next => cases h
    next =>
      cases h
      refine (rebuild_inv (.inr ?_)).fits
      rw [List.length_append, List.length_take, List.length_drop, List.length_replicate]
      omega

theorem assign_fits {i : Nat} {s : List UInt8} {d d' : NameRecord} (hd : d.Fits)
    (h : assign i s d = .ok d' ()) : d'.Fits := by
  rw [assign] at h
  split at h
  next => cases h
  next hi =>
    split at h
    next =>
      cases h
      exact hd
    next =>
      split at h
      next hhas =>
        cases h
        have hnil : d.names = [] := hd.full.resolve_right fun hlen =>
          of_decide_eq_false hhas ⟨by omega, hlen.symm⟩
        refine ⟨.inr (by rw [List.length_set, List.length_replicate]), hd.below.mono ?_⟩
        rw [hnil]
        exact Nat.zero_le _
      next hhas =>
        cases h
        rw [Bool.not_eq_false] at hhas
        exact (rebuild_inv (.inr (by rw [List.length_set, (of_decide_eq_true hhas).2]))).fits

theorem addafter_fits {dn d d' : NameRecord} (hd : d.Fits) (hdn : dn.Fits)
    (h : addafter dn d = .ok d' ()) : d'.Fits := by
  cases h
  have hsome := hd.length_someNames
  by_cases h0 : dn.names.length = 0
  · have hnil := List.eq_nil_of_length_eq_zero h0
    simp only [h0, ne_eq, not_true_eq_false, if_false]
    by_cases hd0 : d.names.length = 0
    · simp only [hd0, not_true_eq_false, if_false]
      refine ⟨.inl (List.eq_nil_of_length_eq_zero hd0), ?_⟩
      rw [hnil]
      exact hd.below
    · simp only [hd0, not_false_eq_true, if_true]
      have hfull := hd.full.resolve_left fun h' => hd0 (by rw [h', List.length_nil])
      refine ⟨.inr (by rw [List.length_append, List.length_replicate, hfull]), ?_⟩
      rw [hnil]
      exact hd.below.mono (by rw [List.length_append]; exact Nat.le_add_right _ _)
  · simp only [h0, ne_eq, not_false_eq_true, if_true]
    have hfull := hdn.full.resolve_left fun h' => h0 (by rw [h', List.length_nil])
    refine ⟨.inr (by rw [List.length_append, hsome, hfull]), ?_⟩
    have hle := hd.length_le_someNames
    refine Below.addEach (hd.below.mono ?_) ?_
    · rw [List.length_append]
      omega
    · rw [List.length_append, hsome]

theorem step_fits {op : Op} {d d' : NameRecord} (hd : d.Fits) (hdn : ∀ dn ∈ op.operands, dn.Fits)
    (h : op.run d = .ok d' ()) : d'.Fits := by
  have herase {n : Nat} (h : removeFrom n d = .ok d' ()) : d'.Fits := by
    rw [removeFrom] at h
    split at h
    next hn =>
      cases h
      have hfull : d.names.length = d.sz := hd.full.resolve_left fun hnil => by
        rw [hnil] at hn
        exact absurd hn (Nat.not_lt_zero n)
      exact (rebuild_inv (.inr (by rw [List.length_eraseIdx_of_lt hn, hfull]))).fits
    next => cases h
  cases op with
  | resize n frm => exact resize_fits hd h
  | assign i s => exact assign_fits hd h
  | addname s =>
      rw [Op.run, addname] at h
      split at h
      next h0 =>
        cases h
        exact ⟨.inl (List.eq_nil_of_length_eq_zero h0.2), hd.below⟩
      next =>
        cases h
        have hlen : (d.someNames ++ [ZString.ofString s]).length = d.sz + 1 := by
          rw [List.length_append, hd.length_someNames, List.length_singleton]
        refine ⟨.inr hlen, ?_⟩
        have hle := hd.length_le_someNames
        rw [hd.length_someNames] at hle
        show Below (d.someNames ++ [ZString.ofString s]).length (d.namesMap.add s d.sz)
        rw [hlen]
        exact (hd.below.mono (hle.trans (Nat.le_succ _))).add (Nat.lt_succ_self _) s
  | addafter dn => exact addafter_fits hd (hdn dn List.mem_cons_self) h
  | removeAt n =>
      rw [Op.run, removeAt] at h
      split at h
      next => cases h
      next => exact herase h
  | removeName s =>
      rw [Op.run, removeName] at h
      split at h
      next => cases h
      next => exact herase h
  | prefixAll pre =>
      rw [Op.run, addprefix] at h
      split at h
      next =>
        cases h
        exact hd
      next =>
        cases h
        refine ⟨.inr ?_, (below_empty _).put (Nat.zero_add _).le⟩
        rw [List.length_mapIdx]
        split
        next => exact List.length_replicate
        next hlen => exact (not_not.1 hlen).symm

/-- Whatever the steps are, the record fits. -/
theorem reach_fits {C : Op → NameRecord → Prop} {d : NameRecord} (h : Reach C d) : d.Fits := by
  induction h with
  | @make n names d h =>
      rw [make] at h
      split at h
      · cases h
      next hfit =>
        cases h
        refine ⟨?_, (below_empty _).put (Nat.zero_add _).le⟩
        by_cases h0 : names.length = 0
        · exact .inl (List.eq_nil_of_length_eq_zero h0)
        · exact .inr (by simp only; omega)
  | step _ _ _ h hd hdn => exact step_fits hd hdn h

/-- Over steps that meet their conditions the map holds exactly the names that are there, each with
its places, and looking up works. -/
theorem reach_mapped {d : NameRecord} (h : Reach Op.Safe d) : Mapped d.names d.namesMap ∧ d.Finds :=
  ⟨(reach_inv h).mapped, (reach_inv h).finds⟩

/-- A name given, and given again to a second place. -/
theorem reach_mapped_two :
    ∃ d, addname [97] ⟨1, [ZString.ofString [97]], putNamesInMap 0 [ZString.ofString [97]] ∅⟩ = .ok d () ∧
      Mapped d.names d.namesMap ∧ d.Finds := by
  have hmake : Reach Op.Safe ⟨1, [ZString.ofString [97]], putNamesInMap 0 [ZString.ofString [97]] ∅⟩ :=
    @Reach.make _ 1 [ZString.ofString [97]] _ rfl
  exact ⟨_, rfl, reach_mapped (@Reach.step _ (.addname [97]) _ _ hmake (fun _ h => by cases h)
    ⟨⟨by decide, by decide⟩, nofun⟩ rfl)⟩

/-- A name assigned where there were none: it is a name of the record, and is not found. -/
theorem not_mapped_assign : ¬ ∀ d, Reach (fun _ _ => True) d → Mapped d.names d.namesMap ∧ d.Finds := by
  intro h
  have hmake : Reach (fun _ _ => True) ⟨2, [], ∅⟩ := @Reach.make _ 2 [] _ rfl
  have hassign : Reach (fun _ _ => True) ⟨2, [ZString.ofString [97], ZString.empty], ∅⟩ :=
    @Reach.step _ (.assign 0 [97]) _ _ hmake (fun _ hd => by cases hd) trivial rfl
  have hfind := ((h _ hassign).2 [97] 0).2 (by decide)
  cases hfind

end NameRecord

end Ztsdb.Arr
