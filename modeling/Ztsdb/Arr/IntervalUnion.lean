import Mathlib
import Ztsdb.Arr.IntervalSet

/-!
# The union of intervals

The sweep merges chains of intervals that touch, and keeps where the current chain starts.
Whether it is open there is set once, for the first chain, and stays so for all chains that
start while both vectors have intervals left. Two intervals that are open at the same time
are taken for touching.
-/

namespace Ztsdb.Arr

namespace interval

variable {T : Type} [LinearOrder T]

/-- Where the next chain starts, when both vectors have intervals left. -/
def nextStart (start : T) (v1 v2 : List (interval T)) : T :=
  match v1, v2 with
  | i :: _, j :: _ => min i.s j.s
  | _, _ => start

/-- The loop of `_union` and what follows it: what is pushed from here on, with the start of
the current chain. -/
def unionIvLoop : T → Bool → List (interval T) → List (interval T) → Option (List (interval T))
  | _, _, [], v2 => some v2
  | _, _, i :: v1, [] => some (i :: v1)
  | start, sopen, i :: v1, j :: v2 =>
    if end_ge_start i j && end_le i.e i.eopen j.e j.eopen then
      if v1.isEmpty then (make start j.e sopen j.eopen).map (· :: v2)
      else unionIvLoop start sopen v1 (j :: v2)
    else if end_ge_start j i && end_le j.e j.eopen i.e i.eopen then
      if v2.isEmpty then (make start i.e sopen i.eopen).map (· :: v1)
      else unionIvLoop start sopen (i :: v1) v2
    else if end_lt i.e i.eopen j.e j.eopen then
      (make start i.e sopen i.eopen).bind fun k =>
        (unionIvLoop (nextStart start v1 (j :: v2)) sopen v1 (j :: v2)).map (k :: ·)
    else
      (make start j.e sopen j.eopen).bind fun k =>
        (unionIvLoop (nextStart start (i :: v1) v2) sopen (i :: v1) v2).map (k :: ·)
  termination_by _ _ v1 v2 => v1.length + v2.length

/-- A time is in an interval of the vector that starts before it. -/
def Inner (l : List (interval T)) (t : T) : Prop := ∃ i ∈ l, i.Has t ∧ i.s < t

/-- An interval of the vector starts at a time or later. -/
def Late (l : List (interval T)) (t : T) : Prop := ∃ i ∈ l, t ≤ i.s

@[simp] theorem inner_cons {i : interval T} {l : List (interval T)} {t : T} :
    Inner (i :: l) t ↔ (i.Has t ∧ i.s < t) ∨ Inner l t := by
  simp only [Inner, List.exists_mem_cons_iff]

@[simp] theorem late_cons {i : interval T} {l : List (interval T)} {t : T} :
    Late (i :: l) t ↔ t ≤ i.s ∨ Late l t := by
  simp only [Late, List.exists_mem_cons_iff]

@[simp] theorem inner_nil {t : T} : ¬ Inner ([] : List (interval T)) t := by
  rintro ⟨i, hi, -⟩
  cases hi

@[simp] theorem late_nil {t : T} : ¬ Late ([] : List (interval T)) t := by
  rintro ⟨i, hi, -⟩
  cases hi

theorem Apart.inner_behind {i : interval T} {l : List (interval T)} (h : Apart (i :: l)) {t : T}
    (ht : Inner l t) : i.e < t := by
  obtain ⟨j, hj, -, hlt⟩ := ht
  exact lt_of_le_of_lt (h.e_le hj) hlt

/-- The chain so far: from its start to the end of the interval it goes on with. -/
def Pend (start : T) (sopen : Bool) (v1 v2 : List (interval T)) (t : T) : Prop :=
  match v1, v2 with
  | i :: _, j :: _ => (start < t ∨ (start = t ∧ sopen = false)) ∧
      ((i.s ≤ j.s ∧ (t < i.e ∨ (t = i.e ∧ i.eopen = false))) ∨
        (j.s ≤ i.s ∧ (t < j.e ∨ (t = j.e ∧ j.eopen = false))))
  | _, _ => False

/-- Two intervals that are open at a time are taken for touching: one vector has an open end
there, and the other an open start and nothing at the time. -/
def Gap (v1 v2 : List (interval T)) (t : T) : Prop :=
  (EndsAt v2 t ∧ StartsAt v1 t ∧ ¬ Covers v1 t) ∨
    (EndsAt v1 t ∧ StartsAt v2 t ∧ ¬ EndsAt v2 t ∧ ¬ Covers v2 t)

/-- A time that starts a chain, closed, while the openness that was kept is open. -/
def Lost (sopen : Bool) (v1 v2 : List (interval T)) (t : T) : Prop :=
  sopen = true ∧ ¬ Inner v1 t ∧ ¬ Inner v2 t ∧ Late v1 t ∧ Late v2 t ∧ ¬ Gap v1 v2 t

/-- A time outside both vectors between two intervals that are open there, or that starts
a chain, open, while the openness that was kept is closed. -/
def Added (sopen : Bool) (v1 v2 : List (interval T)) (t : T) : Prop :=
  ¬ Covers v1 t ∧ ¬ Covers v2 t ∧
    (Gap v1 v2 t ∨ (sopen = false ∧ (StartsAt v1 t ∨ StartsAt v2 t) ∧ Late v1 t ∧ Late v2 t))

/-- The times of the union, apart from the current chain. -/
def Beyond (sopen : Bool) (v1 v2 : List (interval T)) (t : T) : Prop :=
  ((Covers v1 t ∨ Covers v2 t) ∧ ¬ Lost sopen v1 v2 t) ∨ Added sopen v1 v2 t

def Merged (start : T) (sopen : Bool) (v1 v2 : List (interval T)) (t : T) : Prop :=
  Pend start sopen v1 v2 t ∨ Beyond sopen v1 v2 t

/-- Nothing of a vector has to do with a time before the end of an interval before it. -/
theorem Apart.none_of_lt {i : interval T} {l : List (interval T)} (h : Apart (i :: l)) {t : T}
    (ht : t < i.e) : ¬ Covers l t ∧ ¬ StartsAt l t ∧ ¬ EndsAt l t ∧ ¬ Inner l t := by
  obtain ⟨hc, hs, he⟩ := (h.behind t).none_of_lt ht
  exact ⟨hc, hs, he, fun hn => absurd (h.inner_behind hn) (not_lt_of_gt ht)⟩

/-- At a time where nothing of a vector has started. -/
theorem Apart.of_le_start {i : interval T} {l : List (interval T)} (h : Apart (i :: l)) {t : T}
    (ht : t ≤ i.s) : ¬ EndsAt (i :: l) t ∧ ¬ Inner (i :: l) t ∧ Late (i :: l) t := by
  have hle := i.le
  have hp := h.head
  have he := (h.behind t).ends
  have hn : ¬ Inner l t := fun hn => absurd (h.inner_behind hn) (not_lt.2 (ht.trans hle))
  refine ⟨?_, ?_, late_cons.2 (.inl ht)⟩
  · rw [endsAt_cons]
    grind [Proper]
  · rw [inner_cons, or_iff_left hn]
    exact fun h => absurd h.2 (not_lt.2 ht)

section Branches

variable {start : T} {sopen : Bool} {i j : interval T} {v1 v2 : List (interval T)} {t : T}

/-- Where the chain starts, its openness alone says whether it has the time. -/
theorem merged_start (h1 : Apart (i :: v1)) (h2 : Apart (j :: v2)) (hi : start ≤ i.s)
    (hj : start ≤ j.s) : Merged start sopen (i :: v1) (j :: v2) start ↔ sopen = false := by
  obtain ⟨he1, hn1, hl1⟩ := h1.of_le_start hi
  obtain ⟨he2, hn2, hl2⟩ := h2.of_le_start hj
  have hei : start < i.e ∨ (start = i.e ∧ i.eopen = false) := by
    have hp := h1.head
    have hle := i.le
    grind [Proper]
  have hej : start < j.e ∨ (start = j.e ∧ j.eopen = false) := by
    have hp := h2.head
    have hle := j.le
    grind [Proper]
  cases sopen with
  | false =>
      refine iff_of_true (.inl ⟨.inr ⟨rfl, rfl⟩, ?_⟩) rfl
      rcases le_total i.s j.s with hle | hle
      · exact .inl ⟨hle, hei⟩
      · exact .inr ⟨hle, hej⟩
  | true => simp [Merged, Pend, Beyond, Lost, Added, Gap, he1, hn1, hl1, he2, hn2, hl2]

/-- Before both current intervals end, the chain is all there is. -/
theorem merged_of_lt (h1 : Apart (i :: v1)) (h2 : Apart (j :: v2)) (hi : start ≤ i.s)
    (hj : start ≤ j.s) (hti : t < i.e) (htj : t < j.e) :
    Merged start sopen (i :: v1) (j :: v2) t ↔ start < t ∨ (start = t ∧ sopen = false) := by
  obtain ⟨hC1, hS1, hE1, hN1⟩ := h1.none_of_lt hti
  obtain ⟨hC2, hS2, hE2, hN2⟩ := h2.none_of_lt htj
  have hie : ¬ i.e = t := ne_of_gt hti
  have hje : ¬ j.e = t := ne_of_gt htj
  simp only [Merged, Pend, Beyond, Lost, Added, Gap, covers_cons, startsAt_cons, endsAt_cons,
    inner_cons, late_cons, hC1, hS1, hE1, hN1, hC2, hS2, hE2, hN2, hie, hje, hti, htj, Has,
    or_false, false_and, true_or, and_true]
  rcases lt_trichotomy start t with hst | rfl | hst
  · have hor : i.s ≤ j.s ∨ j.s ≤ i.s := le_total _ _
    simp [hst, hor]
  · grind
  · grind

/-- Behind the end of an interval the interval is out of play. -/
theorem beyond_tail_left (ht : i.e < t) :
    Beyond sopen (i :: v1) v2 t ↔ Beyond sopen v1 v2 t := by
  have hle := i.le
  have h1 : ¬ i.Has t := by grind [Has]
  have h2 : ¬ t ≤ i.s := by grind
  have h3 : ¬ i.s = t := by grind
  have h4 : ¬ i.e = t := by grind
  simp only [Beyond, Lost, Added, Gap, covers_cons, startsAt_cons, endsAt_cons, inner_cons,
    late_cons, h1, h2, h3, h4, false_or, false_and]

theorem beyond_tail_right (ht : j.e < t) :
    Beyond sopen v1 (j :: v2) t ↔ Beyond sopen v1 v2 t := by
  have hle := j.le
  have h1 : ¬ j.Has t := by grind [Has]
  have h2 : ¬ t ≤ j.s := by grind
  have h3 : ¬ j.s = t := by grind
  have h4 : ¬ j.e = t := by grind
  simp only [Beyond, Lost, Added, Gap, covers_cons, startsAt_cons, endsAt_cons, inner_cons,
    late_cons, h1, h2, h3, h4, false_or, false_and]

/-- A time of an interval that starts a chain. -/
theorem beyond_of_left (hle : i.s ≤ j.s) (h : i.s < t ∨ (i.s = t ∧ sopen = false))
    (he : t < i.e ∨ (t = i.e ∧ i.eopen = false)) : Beyond sopen (i :: v1) (j :: v2) t := by
  by_cases hC : Covers (i :: v1) t ∨ Covers (j :: v2) t
  · refine .inl ⟨hC, fun hlost => ?_⟩
    rcases h with h | h
    · exact hlost.2.1 (inner_cons.2 (.inl ⟨⟨.inl h, he⟩, h⟩))
    · exact absurd (hlost.1.symm.trans h.2) (by decide)
  · rw [not_or] at hC
    have hno : ¬ i.Has t := fun h => hC.1 (covers_cons.2 (.inl h))
    have hst : i.s = t ∧ i.sopen = true ∧ sopen = false := by grind [Has]
    obtain ⟨rfl, ho, hf⟩ := hst
    exact .inr ⟨hC.1, hC.2, .inr ⟨hf, .inl (startsAt_cons.2 (.inl ⟨rfl, ho⟩)),
      late_cons.2 (.inl le_rfl), late_cons.2 (.inl hle)⟩⟩

theorem beyond_of_right (hle : j.s ≤ i.s) (h : j.s < t ∨ (j.s = t ∧ sopen = false))
    (he : t < j.e ∨ (t = j.e ∧ j.eopen = false)) : Beyond sopen (i :: v1) (j :: v2) t := by
  by_cases hC : Covers (i :: v1) t ∨ Covers (j :: v2) t
  · refine .inl ⟨hC, fun hlost => ?_⟩
    rcases h with h | h
    · exact hlost.2.2.1 (inner_cons.2 (.inl ⟨⟨.inl h, he⟩, h⟩))
    · exact absurd (hlost.1.symm.trans h.2) (by decide)
  · rw [not_or] at hC
    have hno : ¬ j.Has t := fun h => hC.2 (covers_cons.2 (.inl h))
    have hst : j.s = t ∧ j.sopen = true ∧ sopen = false := by grind [Has]
    obtain ⟨rfl, ho, hf⟩ := hst
    exact .inr ⟨hC.1, hC.2, .inr ⟨hf, .inr (startsAt_cons.2 (.inl ⟨rfl, ho⟩)),
      late_cons.2 (.inl hle), late_cons.2 (.inl le_rfl)⟩⟩

/-- A chain that has just started has no times of its own. -/
theorem merged_next : Merged (nextStart start v1 v2) sopen v1 v2 t ↔ Beyond sopen v1 v2 t := by
  refine ⟨fun h => h.elim (fun hp => ?_) id, .inr⟩
  cases v1 with
  | nil => exact hp.elim
  | cons i v1 =>
    cases v2 with
    | nil => exact hp.elim
    | cons j v2 =>
      obtain ⟨hs, ⟨hle, he⟩ | ⟨hle, he⟩⟩ := hp
      · rw [nextStart, min_eq_left hle] at hs
        exact beyond_of_left hle hs he
      · rw [nextStart, min_eq_right hle] at hs
        exact beyond_of_right hle hs he

theorem beyond_nil_left : Beyond sopen [] v2 t ↔ Covers v2 t := by
  simp [Beyond, Lost, Added, Gap]

theorem beyond_nil_right : Beyond sopen v1 [] t ↔ Covers v1 t := by
  simp [Beyond, Lost, Added, Gap]

/-- What is pushed for a chain. -/
def Chain (start : T) (sopen : Bool) (i : interval T) (t : T) : Prop :=
  (start < t ∨ (start = t ∧ sopen = false)) ∧ (t < i.e ∨ (t = i.e ∧ i.eopen = false))

/-! ## One lemma for each branch -/

theorem merged_push_left (h1 : Apart (i :: v1)) (h2 : Apart (j :: v2)) (hi : start ≤ i.s)
    (hj : start ≤ j.s) (h : end_lt_start i j = true) :
    Merged start sopen (i :: v1) (j :: v2) t ↔
      Chain start sopen i t ∨ Beyond sopen v1 (j :: v2) t := by
  have hpi := h1.head
  have hpj := h2.head
  have hlei := i.le
  have hlej := j.le
  rw [end_lt_start, end_lt_iff] at h
  have hij : i.e ≤ j.s := by grind
  rcases lt_trichotomy t i.e with ht | rfl | ht
  · rw [merged_of_lt h1 h2 hi hj ht (lt_of_lt_of_le ht (hij.trans hlej))]
    obtain ⟨hC1, hS1, hE1, hN1⟩ := h1.none_of_lt ht
    obtain ⟨hC2, hS2, hE2, hN2⟩ := h2.none_of_lt (lt_of_lt_of_le ht (hij.trans hlej))
    have hb : ¬ Beyond sopen v1 (j :: v2) t := by
      have hjs : ¬ j.s = t := by grind
      have hje : ¬ j.e = t := by grind
      have hjt : ¬ j.Has t := by grind [Has]
      simp [Beyond, Added, Gap, hC1, hS1, hE1, hC2, hS2, hE2, hjs, hje, hjt]
    simp [Chain, ht, hb]
  · obtain ⟨hc1, -, he1⟩ := h1.behind i.e
    obtain ⟨hc2, hs2, he2⟩ := h2.behind i.e
    have hn1 : ¬ Inner v1 i.e := fun hn => absurd (h1.inner_behind hn) (lt_irrefl _)
    have hn2 : ¬ Inner v2 i.e := fun hn => absurd (h2.inner_behind hn) (by grind)
    simp only [Merged, Pend, Chain, Beyond, Lost, Added, Gap, covers_cons, startsAt_cons,
      endsAt_cons, inner_cons, late_cons, Has, Proper, hn1, hn2] at *
    rcases lt_trichotomy j.s i.e with hjs | hjs | hjs
    · exact absurd hij (not_le_of_gt hjs)
    · cases ho : i.eopen with
      | true => grind
      | false => grind
    · cases ho : i.eopen with
      | true => grind
      | false => grind
  · have hP : ¬ Pend start sopen (i :: v1) (j :: v2) t := by
      simp only [Pend, Proper] at *
      grind
    have hK : ¬ Chain start sopen i t := by grind [Chain]
    rw [Merged, or_iff_right hP, or_iff_right hK, beyond_tail_left ht]

theorem merged_push_right (h1 : Apart (i :: v1)) (h2 : Apart (j :: v2)) (hi : start ≤ i.s)
    (hj : start ≤ j.s) (h : end_lt_start j i = true) :
    Merged start sopen (i :: v1) (j :: v2) t ↔
      Chain start sopen j t ∨ Beyond sopen (i :: v1) v2 t := by
  have hpi := h1.head
  have hpj := h2.head
  have hlei := i.le
  have hlej := j.le
  rw [end_lt_start, end_lt_iff] at h
  have hij : j.e ≤ i.s := by grind
  rcases lt_trichotomy t j.e with ht | rfl | ht
  · rw [merged_of_lt h1 h2 hi hj (lt_of_lt_of_le ht (hij.trans hlei)) ht]
    obtain ⟨hC1, hS1, hE1, hN1⟩ := h1.none_of_lt (lt_of_lt_of_le ht (hij.trans hlei))
    obtain ⟨hC2, hS2, hE2, hN2⟩ := h2.none_of_lt ht
    have hb : ¬ Beyond sopen (i :: v1) v2 t := by
      have his : ¬ i.s = t := by grind
      have hie : ¬ i.e = t := by grind
      have hit : ¬ i.Has t := by grind [Has]
      simp [Beyond, Added, Gap, hC1, hS1, hE1, hC2, hS2, hE2, his, hie, hit]
    simp [Chain, ht, hb]
  · obtain ⟨hc1, hs1, he1⟩ := h1.behind j.e
    obtain ⟨hc2, hs2, he2⟩ := h2.behind j.e
    have hn1 : ¬ Inner v1 j.e := fun hn => absurd (h1.inner_behind hn) (by grind)
    have hn2 : ¬ Inner v2 j.e := fun hn => absurd (h2.inner_behind hn) (lt_irrefl _)
    simp only [Merged, Pend, Chain, Beyond, Lost, Added, Gap, covers_cons, startsAt_cons,
      endsAt_cons, inner_cons, late_cons, Has, Proper, hn1, hn2] at *
    rcases lt_trichotomy i.s j.e with his | his | his
    · exact absurd hij (not_le_of_gt his)
    · cases ho : j.eopen with
      | true => grind
      | false => grind
    · cases ho : j.eopen with
      | true => grind
      | false => grind
  · have hP : ¬ Pend start sopen (i :: v1) (j :: v2) t := by
      simp only [Pend, Proper] at *
      grind
    have hK : ¬ Chain start sopen j t := by grind [Chain]
    rw [Merged, or_iff_right hP, or_iff_right hK, beyond_tail_right ht]

/-- The chain has a time where an interval ends in another one that it touches. -/
theorem merged_touch_left (h1 : Apart (i :: v1)) (h2 : Apart (j :: v2)) (hst : start < i.e)
    (hge : end_lt_start i j = false) (hin : i.e < j.e ∨ (i.e = j.e ∧ j.eopen = false)) :
    Merged start sopen (i :: v1) (j :: v2) i.e := by
  have hp := h1.head
  obtain ⟨hc2, -, he2⟩ := h2.behind i.e
  rw [← Bool.not_eq_true, end_lt_start, end_lt_iff] at hge
  rcases le_or_gt j.s i.s with hji | hij
  · exact .inl ⟨.inl hst, .inr ⟨hji, hin⟩⟩
  · cases ho : i.eopen with
    | false => exact .inl ⟨.inl hst, .inl ⟨hij.le, .inr ⟨rfl, ho⟩⟩⟩
    | true =>
        have hjs : j.s ≤ i.e := by grind
        rcases lt_or_eq_of_le hjs with hjs | hjs
        · have hjt : j.Has i.e := ⟨.inl hjs, hin⟩
          exact .inr (.inl ⟨.inr (covers_cons.2 (.inl hjt)),
            fun hl => hl.2.2.1 (inner_cons.2 (.inl ⟨hjt, hjs⟩))⟩)
        · -- both are open there
          have hgap : Gap (i :: v1) (j :: v2) i.e := by
            refine .inr ⟨endsAt_cons.2 (.inl ⟨rfl, ho⟩), startsAt_cons.2 (.inl ⟨hjs, ?_⟩), ?_, ?_⟩
            · grind
            · rw [endsAt_cons]
              grind
            · rw [covers_cons]
              grind [Has]
          by_cases hC : Covers (i :: v1) i.e ∨ Covers (j :: v2) i.e
          · exact .inr (.inl ⟨hC, fun hl => hl.2.2.2.2.2 hgap⟩)
          · rw [not_or] at hC
            exact .inr (.inr ⟨hC.1, hC.2, .inl hgap⟩)

theorem merged_touch_right (h1 : Apart (i :: v1)) (h2 : Apart (j :: v2)) (hst : start < j.e)
    (hge : end_lt_start j i = false) (hin : j.e < i.e ∨ (j.e = i.e ∧ i.eopen = false)) :
    Merged start sopen (i :: v1) (j :: v2) j.e := by
  have hp := h2.head
  have hpi := h1.head
  obtain ⟨hc1, -, he1⟩ := h1.behind j.e
  rw [← Bool.not_eq_true, end_lt_start, end_lt_iff] at hge
  rcases le_or_gt i.s j.s with hij | hji
  · exact .inl ⟨.inl hst, .inl ⟨hij, hin⟩⟩
  · cases ho : j.eopen with
    | false => exact .inl ⟨.inl hst, .inr ⟨hji.le, .inr ⟨rfl, ho⟩⟩⟩
    | true =>
        have his : i.s ≤ j.e := by grind
        rcases lt_or_eq_of_le his with his | his
        · have hit : i.Has j.e := ⟨.inl his, hin⟩
          exact .inr (.inl ⟨.inl (covers_cons.2 (.inl hit)),
            fun hl => hl.2.1 (inner_cons.2 (.inl ⟨hit, his⟩))⟩)
        · have hgap : Gap (i :: v1) (j :: v2) j.e := by
            refine .inl ⟨endsAt_cons.2 (.inl ⟨rfl, ho⟩), startsAt_cons.2 (.inl ⟨his, ?_⟩), ?_⟩
            · grind
            · rw [covers_cons]
              grind [Has]
          by_cases hC : Covers (i :: v1) j.e ∨ Covers (j :: v2) j.e
          · exact .inr (.inl ⟨hC, fun hl => hl.2.2.2.2.2 hgap⟩)
          · rw [not_or] at hC
            exact .inr (.inr ⟨hC.1, hC.2, .inl hgap⟩)

/-- Two intervals that are open at their common end: it does not matter which is left. -/
theorem merged_open_ends (h1 : Apart (i :: v1)) (h2 : Apart (j :: v2)) (he : j.e = i.e)
    (hio : i.eopen = true) (hjo : j.eopen = true) :
    Merged start sopen (i :: v1) (j :: v2) i.e ↔ Beyond sopen v1 (j :: v2) i.e := by
  have hpi := h1.head
  have hpj := h2.head
  have hlt : i.s < i.e := by grind [Proper]
  have hP : ¬ Pend start sopen (i :: v1) (j :: v2) i.e := by grind [Pend]
  have hno : ¬ i.Has i.e := by grind [Has]
  have hend : EndsAt (j :: v2) i.e := endsAt_cons.2 (.inl ⟨he, hjo⟩)
  rw [Merged, or_iff_right hP]
  simp only [Beyond, Lost, Added, Gap, @covers_cons _ _ i, @startsAt_cons _ _ i, @inner_cons _ _ i,
    @late_cons _ _ i, hno, hend, hlt.ne, not_le_of_gt hlt, not_true, false_and, and_false, false_or,
    or_false]

/-- The interval that is left touches the other one and ends in it, and more follow. -/
theorem merged_absorb_left {i' : interval T} (h1 : Apart (i :: i' :: v1)) (h2 : Apart (j :: v2))
    (hi : start ≤ i.s) (hj : start ≤ j.s) (hge : end_lt_start i j = false)
    (hle : end_lt j.e j.eopen i.e i.eopen = false) :
    Merged start sopen (i :: i' :: v1) (j :: v2) t ↔
      Merged start sopen (i' :: v1) (j :: v2) t := by
  have hlei := i.le
  have hei := (h1.before_head i' List.mem_cons_self).e_le
  have hlei' := i'.le
  have htouch := hge
  rw [← Bool.not_eq_true, end_lt_start, end_lt_iff] at hge
  rw [← Bool.not_eq_true, end_lt_iff] at hle
  have hjs : j.s ≤ i.e := by grind
  have hje : i.e ≤ j.e := by grind
  rcases lt_trichotomy t i.e with ht | rfl | ht
  · rw [merged_of_lt h1 h2 hi hj ht (lt_of_lt_of_le ht hje), merged_of_lt h1.tail h2
      (hi.trans (hlei.trans hei)) hj (lt_of_lt_of_le ht (hei.trans hlei')) (lt_of_lt_of_le ht hje)]
  · rcases lt_or_eq_of_le (hi.trans hlei) with hst | hst
    · by_cases hin : i.e < j.e ∨ (i.e = j.e ∧ j.eopen = false)
      · exact iff_of_true (merged_touch_left h1 h2 hst htouch hin)
          (.inl ⟨.inl hst, .inr ⟨hjs.trans hei, hin⟩⟩)
      · have hP : ¬ Pend start sopen (i' :: v1) (j :: v2) i.e := by
          have hpj := h2.head
          grind [Pend, Proper]
        rw [merged_open_ends h1 h2 (by grind) (by grind) (by grind), Merged, or_iff_right hP]
    · rw [← hst, merged_start h1 h2 hi hj, merged_start h1.tail h2 (hi.trans (hlei.trans hei)) hj]
  · rw [Merged, Merged, beyond_tail_left ht]
    constructor
    · rintro (⟨hs, hp⟩ | hb)
      · exact .inl ⟨hs, .inr ⟨hjs.trans hei, by grind⟩⟩
      · exact .inr hb
    · rintro (⟨hs, ⟨hle', hp⟩ | ⟨hle', hp⟩⟩ | hb)
      · exact .inr (beyond_of_left hle' (.inl (lt_of_le_of_lt hle' (lt_of_le_of_lt hjs ht))) hp)
      · exact .inr (beyond_of_right hle' (.inl (lt_of_le_of_lt hjs ht)) hp)
      · exact .inr hb

/-- Nothing more follows: the chain ends with the other interval. -/
theorem merged_last_left (h1 : Apart [i]) (h2 : Apart (j :: v2)) (hi : start ≤ i.s)
    (hj : start ≤ j.s) (hge : end_lt_start i j = false)
    (hle : end_lt j.e j.eopen i.e i.eopen = false) :
    Merged start sopen [i] (j :: v2) t ↔ Chain start sopen j t ∨ Covers v2 t := by
  have hlei := i.le
  have htouch := hge
  rw [← Bool.not_eq_true, end_lt_start, end_lt_iff] at hge
  rw [← Bool.not_eq_true, end_lt_iff] at hle
  have hjs : j.s ≤ i.e := by grind
  have hje : i.e ≤ j.e := by grind
  rcases lt_trichotomy t i.e with ht | rfl | ht
  · have htj := lt_of_lt_of_le ht hje
    rw [merged_of_lt h1 h2 hi hj ht htj, or_iff_left (h2.none_of_lt htj).1]
    simp [Chain, htj]
  · rcases lt_or_eq_of_le (hi.trans hlei) with hst | hst
    · by_cases hin : i.e < j.e ∨ (i.e = j.e ∧ j.eopen = false)
      · exact iff_of_true (merged_touch_left h1 h2 hst htouch hin) (.inl ⟨.inl hst, hin⟩)
      · have hK : ¬ Chain start sopen j i.e := fun h => hin h.2
        have hno : ¬ j.Has i.e := fun h => hin h.2
        rw [merged_open_ends h1 h2 (by grind) (by grind) (by grind), beyond_nil_left, covers_cons,
          or_iff_right hK, or_iff_right hno]
    · have hin : i.e < j.e ∨ (i.e = j.e ∧ j.eopen = false) := by
        have hpj := h2.head
        grind [Proper]
      have hno : ¬ Covers v2 i.e := by
        have hc := (h2.behind i.e).covers
        grind
      rw [or_iff_left hno, ← hst, merged_start h1 h2 hi hj, hst]
      simp [Chain, hin]
  · rw [Merged, beyond_tail_left ht, beyond_nil_left, covers_cons]
    have hst : start < t := by grind
    have hjt : j.s < t := by grind
    simp only [Pend, Chain, Has, hst, hjt, true_or, true_and]
    grind

theorem merged_absorb_right {j' : interval T} (h1 : Apart (i :: v1)) (h2 : Apart (j :: j' :: v2))
    (hi : start ≤ i.s) (hj : start ≤ j.s) (hge : end_lt_start j i = false)
    (hlt : end_lt j.e j.eopen i.e i.eopen = true) :
    Merged start sopen (i :: v1) (j :: j' :: v2) t ↔
      Merged start sopen (i :: v1) (j' :: v2) t := by
  have hlej := j.le
  have hej := (h2.before_head j' List.mem_cons_self).e_le
  have hlej' := j'.le
  have htouch := hge
  rw [← Bool.not_eq_true, end_lt_start, end_lt_iff] at hge
  rw [end_lt_iff] at hlt
  have his : i.s ≤ j.e := by grind
  have hie : j.e ≤ i.e := by grind
  rcases lt_trichotomy t j.e with ht | rfl | ht
  · rw [merged_of_lt h1 h2 hi hj (lt_of_lt_of_le ht hie) ht, merged_of_lt h1 h2.tail hi
      (hj.trans (hlej.trans hej)) (lt_of_lt_of_le ht hie) (lt_of_lt_of_le ht (hej.trans hlej'))]
  · rcases lt_or_eq_of_le (hj.trans hlej) with hst | hst
    · have hin : j.e < i.e ∨ (j.e = i.e ∧ i.eopen = false) := by grind
      exact iff_of_true (merged_touch_right h1 h2 hst htouch hin)
        (.inl ⟨.inl hst, .inl ⟨his.trans hej, hin⟩⟩)
    · rw [← hst, merged_start h1 h2 hi hj, merged_start h1 h2.tail hi (hj.trans (hlej.trans hej))]
  · rw [Merged, Merged, beyond_tail_right ht]
    constructor
    · rintro (⟨hs, hp⟩ | hb)
      · exact .inl ⟨hs, .inl ⟨his.trans hej, by grind⟩⟩
      · exact .inr hb
    · rintro (⟨hs, ⟨hle', hp⟩ | ⟨hle', hp⟩⟩ | hb)
      · exact .inr (beyond_of_left hle' (.inl (lt_of_le_of_lt his ht)) hp)
      · exact .inr (beyond_of_right hle' (.inl (lt_of_le_of_lt hle' (lt_of_le_of_lt his ht))) hp)
      · exact .inr hb

theorem merged_last_right (h1 : Apart (i :: v1)) (h2 : Apart [j]) (hi : start ≤ i.s)
    (hj : start ≤ j.s) (hge : end_lt_start j i = false)
    (hlt : end_lt j.e j.eopen i.e i.eopen = true) :
    Merged start sopen (i :: v1) [j] t ↔ Chain start sopen i t ∨ Covers v1 t := by
  have hlej := j.le
  have htouch := hge
  rw [← Bool.not_eq_true, end_lt_start, end_lt_iff] at hge
  rw [end_lt_iff] at hlt
  have his : i.s ≤ j.e := by grind
  have hie : j.e ≤ i.e := by grind
  rcases lt_trichotomy t j.e with ht | rfl | ht
  · have hti := lt_of_lt_of_le ht hie
    rw [merged_of_lt h1 h2 hi hj hti ht, or_iff_left (h1.none_of_lt hti).1]
    simp [Chain, hti]
  · have hin : j.e < i.e ∨ (j.e = i.e ∧ i.eopen = false) := by grind
    rcases lt_or_eq_of_le (hj.trans hlej) with hst | hst
    · exact iff_of_true (merged_touch_right h1 h2 hst htouch hin) (.inl ⟨.inl hst, hin⟩)
    · have hno : ¬ Covers v1 j.e := by
        have hc := (h1.behind j.e).covers
        grind
      rw [or_iff_left hno, ← hst, merged_start h1 h2 hi hj, hst]
      simp [Chain, hin]
  · rw [Merged, beyond_tail_right ht, beyond_nil_right, covers_cons]
    have hst : start < t := by grind
    have hit : i.s < t := by grind
    simp only [Pend, Chain, Has, hst, hit, true_or, true_and]
    grind

/-! ## The loop -/

/-- The chain that starts no later than the interval it ends with. -/
theorem make_chain (hi : start ≤ i.s) :
    ∃ k, make start i.e sopen i.eopen = some k ∧ ∀ t, k.Has t ↔ Chain start sopen i t := by
  have hle : start ≤ i.e := hi.trans i.le
  refine ⟨_, dif_pos hle, fun t => ?_⟩
  simp only [Has, Chain, @eq_comm _ start t]

end Branches

/-- The chain starts no later than the intervals it is followed by. -/
def Leads (start : T) (v1 v2 : List (interval T)) : Prop :=
  ∀ i ∈ v1.head?, ∀ j ∈ v2.head?, start ≤ i.s ∧ start ≤ j.s

theorem leads_nextStart {start : T} {v1 v2 : List (interval T)} :
    Leads (nextStart start v1 v2) v1 v2 := by
  cases v1 with
  | nil => exact nofun
  | cons i v1 =>
      cases v2 with
      | nil => exact fun _ _ => nofun
      | cons j v2 =>
          rintro _ ⟨⟩ _ ⟨⟩
          exact ⟨min_le_left _ _, min_le_right _ _⟩

theorem leads_cons {start : T} {i j : interval T} {v1 v2 : List (interval T)} (hi : start ≤ i.s)
    (hj : start ≤ j.s) : Leads start (i :: v1) (j :: v2) := by
  rintro _ ⟨⟩ _ ⟨⟩
  exact ⟨hi, hj⟩

/-- The test of the first two branches. -/
theorem touch_iff {i j : interval T} :
    (end_ge_start i j && end_le i.e i.eopen j.e j.eopen) = true ↔
      end_lt_start i j = false ∧ end_lt j.e j.eopen i.e i.eopen = false := by
  have hgt : end_gt i.e i.eopen j.e j.eopen = end_lt j.e j.eopen i.e i.eopen :=
    Bool.eq_iff_iff.2 end_gt_iff
  rw [Bool.and_eq_true, end_ge_start, end_le, hgt, Bool.not_eq_true', Bool.not_eq_true']

/-- What the second branch knows, and the third. -/
theorem end_lt_of_not_touch {i j : interval T} (hp : j.Proper)
    (hno : ¬ (end_ge_start i j && end_le i.e i.eopen j.e j.eopen) = true)
    (h : (end_ge_start j i && end_le j.e j.eopen i.e i.eopen) = true) :
    end_lt j.e j.eopen i.e i.eopen = true := by
  have hle := j.le
  rw [touch_iff] at hno h
  simp only [← Bool.not_eq_true, end_lt_start, end_lt_iff] at hno h ⊢
  grind [Proper]

theorem end_lt_start_of_not_touch {i j : interval T}
    (hno : ¬ (end_ge_start i j && end_le i.e i.eopen j.e j.eopen) = true)
    (h : end_lt j.e j.eopen i.e i.eopen = false) : end_lt_start i j = true := by
  by_contra hn
  exact hno (touch_iff.2 ⟨Bool.eq_false_iff.2 hn, h⟩)

theorem end_lt_asymm {e1 e2 : T} {o1 o2 : Bool} (h : end_lt e1 o1 e2 o2 = true) :
    end_lt e2 o2 e1 o1 = false := by
  rw [← Bool.not_eq_true]
  simp only [end_lt_iff] at h ⊢
  grind

theorem unionIvLoop_spec (start : T) (sopen : Bool) (v1 v2 : List (interval T)) (h1 : Apart v1)
    (h2 : Apart v2) (hs : Leads start v1 v2) :
    ∃ r, unionIvLoop start sopen v1 v2 = some r ∧ ∀ t, Covers r t ↔ Merged start sopen v1 v2 t := by
  fun_induction unionIvLoop start sopen v1 v2 with
  | case1 start sopen v2 =>
      refine ⟨v2, rfl, fun t => ?_⟩
      rw [Merged, beyond_nil_left]
      exact (or_iff_right id).symm
  | case2 start sopen i v1 =>
      refine ⟨i :: v1, rfl, fun t => ?_⟩
      rw [Merged, beyond_nil_right]
      exact (or_iff_right id).symm
  | case3 start sopen i v1 j v2 hcond hemp =>
      obtain ⟨hi, hj⟩ := hs i rfl j rfl
      obtain ⟨hge, hle⟩ := touch_iff.1 hcond
      obtain ⟨k, hk, hkt⟩ := @make_chain T _ start sopen j hj
      obtain rfl := List.isEmpty_iff.1 hemp
      refine ⟨k :: v2, ?_, fun t => ?_⟩
      · rw [hk]
        rfl
      · rw [covers_cons, hkt, merged_last_left h1 h2 hi hj hge hle]
  | case4 start sopen i v1 j v2 hcond hemp ih =>
      obtain ⟨hi, hj⟩ := hs i rfl j rfl
      obtain ⟨hge, hle⟩ := touch_iff.1 hcond
      cases v1 with
      | nil => exact absurd rfl hemp
      | cons i' v1 =>
          have hi' : start ≤ i'.s :=
            hi.trans (i.le.trans (h1.e_le List.mem_cons_self))
          obtain ⟨r, hr, hmem⟩ := ih h1.tail h2 (leads_cons hi' hj)
          refine ⟨r, hr, fun t => ?_⟩
          rw [hmem, merged_absorb_left h1 h2 hi hj hge hle]
  | case5 start sopen i v1 j v2 hno hcond hemp =>
      obtain ⟨hi, hj⟩ := hs i rfl j rfl
      obtain ⟨hge, hle⟩ := touch_iff.1 hcond
      obtain ⟨k, hk, hkt⟩ := @make_chain T _ start sopen i hi
      obtain rfl := List.isEmpty_iff.1 hemp
      refine ⟨k :: v1, ?_, fun t => ?_⟩
      · rw [hk]
        rfl
      · rw [covers_cons, hkt,
          merged_last_right h1 h2 hi hj hge (end_lt_of_not_touch h2.head hno hcond)]
  | case6 start sopen i v1 j v2 hno hcond hemp ih =>
      obtain ⟨hi, hj⟩ := hs i rfl j rfl
      obtain ⟨hge, hle⟩ := touch_iff.1 hcond
      cases v2 with
      | nil => exact absurd rfl hemp
      | cons j' v2 =>
          have hj' : start ≤ j'.s :=
            hj.trans (j.le.trans (h2.e_le List.mem_cons_self))
          obtain ⟨r, hr, hmem⟩ := ih h1 h2.tail (leads_cons hi hj')
          refine ⟨r, hr, fun t => ?_⟩
          rw [hmem, merged_absorb_right h1 h2 hi hj hge (end_lt_of_not_touch h2.head hno hcond)]
  | case7 start sopen i v1 j v2 hc1 hc2 hlt ih =>
      obtain ⟨hi, hj⟩ := hs i rfl j rfl
      obtain ⟨k, hk, hkt⟩ := @make_chain T _ start sopen i hi
      obtain ⟨r, hr, hmem⟩ := ih h1.tail h2 leads_nextStart
      refine ⟨k :: r, ?_, fun t => ?_⟩
      · rw [hk, hr]
        rfl
      · rw [covers_cons, hkt, hmem, merged_next,
          merged_push_left h1 h2 hi hj (end_lt_start_of_not_touch hc1 (end_lt_asymm hlt))]
  | case8 start sopen i v1 j v2 hc1 hc2 hlt ih =>
      obtain ⟨hi, hj⟩ := hs i rfl j rfl
      obtain ⟨k, hk, hkt⟩ := @make_chain T _ start sopen j hj
      obtain ⟨r, hr, hmem⟩ := ih h1 h2.tail leads_nextStart
      refine ⟨k :: r, ?_, fun t => ?_⟩
      · rw [hk, hr]
        rfl
      · rw [covers_cons, hkt, hmem, merged_next,
          merged_push_right h1 h2 hi hj (end_lt_start_of_not_touch hc2 (Bool.eq_false_iff.2 hlt))]

/-- Where the earlier of two intervals starts, and whether it is open there. -/
def earlierStart (i j : interval T) : T × Bool :=
  if start_lt i.s i.sopen j.s j.sopen then (i.s, i.sopen) else (j.s, j.sopen)

/-- What runs over the elements. -/
def unionIvAll (v1 v2 : List (interval T)) : Option (List (interval T)) :=
  match v1, v2 with
  | i :: l1, j :: l2 =>
    unionIvLoop (earlierStart i j).1 (earlierStart i j).2 (i :: l1) (j :: l2)
  | _, _ => some (v1 ++ v2)

def unionIv (sort : StdSort (less (T := T))) (v1 v2 : Vector (interval T)) :
    Option (List (interval T)) :=
  conditional_sort_intervals sort unionIvAll v1 v2

/-- The openness that is kept: that of the earliest start. -/
def keptOpen (v1 v2 : List (interval T)) : Bool :=
  match v1, v2 with
  | i :: _, j :: _ => (earlierStart i j).2
  | _, _ => false

theorem earlierStart_eq (i j : interval T) : (earlierStart i j).1 = min i.s j.s := by
  rw [earlierStart]
  split
  next h => exact (min_eq_left ((start_lt_iff.1 h).elim le_of_lt fun h => le_of_eq h.1)).symm
  next h =>
    rw [start_lt_iff, not_or] at h
    exact (min_eq_right (not_lt.1 h.1)).symm

theorem unionIvAll_spec {v1 v2 : List (interval T)} (h1 : Apart v1) (h2 : Apart v2) :
    ∃ r, unionIvAll v1 v2 = some r ∧ ∀ t, Covers r t ↔ Beyond (keptOpen v1 v2) v1 v2 t := by
  cases v1 with
  | nil => exact ⟨v2, rfl, fun t => beyond_nil_left.symm⟩
  | cons i v1 =>
      cases v2 with
      | nil => exact ⟨i :: v1, by simp [unionIvAll], fun t => beyond_nil_right.symm⟩
      | cons j v2 =>
          have heq : (earlierStart i j).1 = nextStart i.s (i :: v1) (j :: v2) := earlierStart_eq i j
          obtain ⟨r, hr, hmem⟩ := unionIvLoop_spec (earlierStart i j).1 (earlierStart i j).2
            (i :: v1) (j :: v2) h1 h2 (heq ▸ leads_nextStart)
          refine ⟨r, hr, fun t => ?_⟩
          rw [hmem, heq, merged_next]
          rfl

end interval

end Ztsdb.Arr
