import Mathlib

/-!
# The median

`median_element` keeps the values seen so far in two priority queues: those on the left with the
greatest on top, those on the right with the least. A value goes to one of them by a comparison
with one top; when that queue has more values than the other, its top goes over first. At the
end the top of the longer queue is the median, or the mean of both tops.

A priority queue is what it gives out one after the other. Asking an empty one for its top has
no meaning.
-/

namespace Ztsdb.Arr.Median

/-! ## Priority queues -/

section Queue

variable {α : Type} (r : α → α → Prop)

/-- `std::priority_queue`, in the order of its tops. -/
structure PriorityQueue where
  elems : List α
  ordered : elems.Pairwise r

namespace PriorityQueue

variable {r}

def empty : PriorityQueue r := ⟨[], .nil⟩

def size (q : PriorityQueue r) : Nat := q.elems.length

def top (q : PriorityQueue r) : Option α := q.elems.head?

def pop (q : PriorityQueue r) : PriorityQueue r := ⟨q.elems.tail, q.ordered.tail⟩

theorem exists_top {q : PriorityQueue r} (h : q.size ≠ 0) :
    ∃ t, q.top = some t ∧ q.elems = t :: q.pop.elems := by
  obtain ⟨l, hl⟩ := q
  cases l with
  | nil => exact absurd rfl h
  | cons t l => exact ⟨t, rfl, rfl⟩

theorem size_eq {t : α} {q : PriorityQueue r} (h : q.elems = t :: q.pop.elems) :
    q.size = q.pop.size + 1 := congrArg List.length h

variable [DecidableRel r] [Std.Total r] [IsTrans α r]

def push (x : α) (q : PriorityQueue r) : PriorityQueue r :=
  ⟨q.elems.orderedInsert r x, q.ordered.orderedInsert x⟩

theorem mem_push {x y : α} {q : PriorityQueue r} : y ∈ (q.push x).elems ↔ y = x ∨ y ∈ q.elems :=
  List.mem_orderedInsert r

theorem perm_push {x : α} {q : PriorityQueue r} : (q.push x).elems.Perm (x :: q.elems) :=
  List.perm_orderedInsert r x q.elems

theorem size_push {x : α} {q : PriorityQueue r} : (q.push x).size = q.size + 1 :=
  List.orderedInsert_length r q.elems x

end PriorityQueue

end Queue

/-! ## The values on both sides -/

variable {K : Type} [LinearOrder K]

/-- `std::priority_queue<double>`. -/
abbrev Left (K : Type) [LinearOrder K] := PriorityQueue fun a b : K => b ≤ a

/-- The queue with `std::greater<double>`. -/
abbrev Right (K : Type) [LinearOrder K] := PriorityQueue fun a b : K => a ≤ b

/-- The body of the loop. -/
def insertOne (x : K) (left : Left K) (right : Right K) : Option (Left K × Right K) :=
  if left.size = right.size then
    if left.size = 0 then some (left.push x, right)
    else left.top.map fun t => if x < t then (left.push x, right) else (left, right.push x)
  else if left.size < right.size then
    right.top.map fun t =>
      if x < t then (left.push x, right) else (left.push t, right.pop.push x)
  else
    left.top.map fun t =>
      if t < x then (left, right.push x) else (left.pop.push x, right.push t)

def insertAll : List K → Left K → Right K → Option (Left K × Right K)
  | [], left, right => some (left, right)
  | x :: l, left, right => (insertOne x left right).bind fun p => insertAll l p.1 p.2

/-- The values seen are on the two sides, in halves, and none on the left is above one on the
right. -/
structure Balanced (seen : List K) (left : Left K) (right : Right K) : Prop where
  perm : (left.elems ++ right.elems).Perm seen
  below : ∀ a ∈ left.elems, ∀ b ∈ right.elems, a ≤ b
  leftSize : left.size ≤ right.size + 1
  rightSize : right.size ≤ left.size + 1

section Sides

variable {seen : List K} {left : Left K} {right : Right K} {x t : K}

theorem balanced_empty : Balanced ([] : List K) .empty .empty :=
  ⟨.nil, fun _ ha => absurd ha List.not_mem_nil, Nat.zero_le _, Nat.zero_le _⟩

/-- Nothing on the left is above its top. -/
theorem le_top (h : left.elems = t :: left.pop.elems) {a : K} (ha : a ∈ left.elems) : a ≤ t := by
  have hordered := left.ordered
  rw [h] at ha hordered
  rcases List.mem_cons.mp ha with rfl | ha
  · exact le_rfl
  · exact (List.pairwise_cons.mp hordered).1 a ha

/-- Nothing on the right is below its top. -/
theorem top_le (h : right.elems = t :: right.pop.elems) {b : K} (hb : b ∈ right.elems) :
    t ≤ b := by
  have hordered := right.ordered
  rw [h] at hb hordered
  rcases List.mem_cons.mp hb with rfl | hb
  · exact le_rfl
  · exact (List.pairwise_cons.mp hordered).1 b hb

theorem Balanced.pushLeft (h : Balanced seen left right) (hx : ∀ b ∈ right.elems, x ≤ b)
    (hsize : left.size ≤ right.size) : Balanced (x :: seen) (left.push x) right where
  perm := (PriorityQueue.perm_push.append_right _).trans (h.perm.cons x)
  below a ha b hb := by
    rcases PriorityQueue.mem_push.mp ha with rfl | ha
    · exact hx b hb
    · exact h.below a ha b hb
  leftSize := by
    rw [PriorityQueue.size_push]
    omega
  rightSize := by
    have := h.rightSize
    rw [PriorityQueue.size_push]
    omega

theorem Balanced.pushRight (h : Balanced seen left right) (hx : ∀ a ∈ left.elems, a ≤ x)
    (hsize : right.size ≤ left.size) : Balanced (x :: seen) left (right.push x) where
  perm := (PriorityQueue.perm_push.append_left _).trans
    (List.perm_middle.trans (h.perm.cons x))
  below a ha b hb := by
    rcases PriorityQueue.mem_push.mp hb with rfl | hb
    · exact hx a ha
    · exact h.below a ha b hb
  leftSize := by
    have := h.leftSize
    rw [PriorityQueue.size_push]
    omega
  rightSize := by
    rw [PriorityQueue.size_push]
    omega

/-- The top of the right side goes to the left. -/
theorem Balanced.moveLeft (h : Balanced seen left right) (htop : right.elems = t :: right.pop.elems)
    (hsize : left.size + 1 = right.size) : Balanced seen (left.push t) right.pop where
  perm := by
    refine (PriorityQueue.perm_push.append_right _).trans (List.Perm.trans ?_ h.perm)
    rw [htop]
    exact List.perm_middle.symm
  below a ha b hb := by
    have hb' : b ∈ right.elems := List.mem_of_mem_tail hb
    rcases PriorityQueue.mem_push.mp ha with rfl | ha
    · exact top_le htop hb'
    · exact h.below a ha b hb'
  leftSize := by
    have := PriorityQueue.size_eq htop
    rw [PriorityQueue.size_push]
    omega
  rightSize := by
    have := PriorityQueue.size_eq htop
    rw [PriorityQueue.size_push]
    omega

/-- The top of the left side goes to the right. -/
theorem Balanced.moveRight (h : Balanced seen left right) (htop : left.elems = t :: left.pop.elems)
    (hsize : right.size + 1 = left.size) : Balanced seen left.pop (right.push t) where
  perm := by
    refine (PriorityQueue.perm_push.append_left _).trans (List.Perm.trans ?_ h.perm)
    rw [htop]
    exact List.perm_middle
  below a ha b hb := by
    have ha' : a ∈ left.elems := List.mem_of_mem_tail ha
    rcases PriorityQueue.mem_push.mp hb with rfl | hb
    · exact le_top htop ha'
    · exact h.below a ha' b hb
  leftSize := by
    have := PriorityQueue.size_eq htop
    rw [PriorityQueue.size_push]
    omega
  rightSize := by
    have := PriorityQueue.size_eq htop
    rw [PriorityQueue.size_push]
    omega

/-- A value more is seen, and the sides stay balanced. -/
theorem insertOne_spec (h : Balanced seen left right) (x : K) :
    ∃ left' right', insertOne x left right = some (left', right') ∧
      Balanced (x :: seen) left' right' := by
  have hl := h.leftSize
  have hr := h.rightSize
  rw [insertOne]
  by_cases heq : left.size = right.size
  · rw [if_pos heq]
    by_cases hzero : left.size = 0
    · have hnil : right.elems = [] := List.length_eq_zero_iff.mp (heq.symm.trans hzero)
      rw [if_pos hzero]
      refine ⟨_, _, rfl, h.pushLeft (fun b hb => ?_) heq.le⟩
      rw [hnil] at hb
      exact absurd hb List.not_mem_nil
    obtain ⟨t, ht, htop⟩ := PriorityQueue.exists_top hzero
    have hmem : t ∈ left.elems := by
      rw [htop]
      exact List.mem_cons_self
    rw [if_neg hzero, ht, Option.map_some]
    by_cases hlt : x < t
    · rw [if_pos hlt]
      exact ⟨_, _, rfl, h.pushLeft (fun b hb => hlt.le.trans (h.below t hmem b hb)) heq.le⟩
    · rw [if_neg hlt]
      exact ⟨_, _, rfl, h.pushRight (fun a ha => (le_top htop ha).trans (not_lt.mp hlt)) heq.ge⟩
  rw [if_neg heq]
  by_cases hless : left.size < right.size
  · obtain ⟨t, ht, htop⟩ := PriorityQueue.exists_top (q := right) (by omega)
    have hsize := PriorityQueue.size_eq htop
    rw [if_pos hless, ht, Option.map_some]
    by_cases hlt : x < t
    · rw [if_pos hlt]
      exact ⟨_, _, rfl, h.pushLeft (fun b hb => hlt.le.trans (top_le htop hb)) hless.le⟩
    · rw [if_neg hlt]
      refine ⟨_, _, rfl, (h.moveLeft htop (by omega)).pushRight (fun a ha => ?_) ?_⟩
      · have hxt := not_lt.mp hlt
        rcases PriorityQueue.mem_push.mp ha with rfl | ha
        · exact hxt
        · refine (h.below a ha t ?_).trans hxt
          rw [htop]
          exact List.mem_cons_self
      · rw [PriorityQueue.size_push]
        omega
  · obtain ⟨t, ht, htop⟩ := PriorityQueue.exists_top (q := left) (by omega)
    have hsize := PriorityQueue.size_eq htop
    rw [if_neg hless, ht, Option.map_some]
    by_cases hlt : t < x
    · rw [if_pos hlt]
      exact ⟨_, _, rfl, h.pushRight (fun a ha => (le_top htop ha).trans hlt.le) (by omega)⟩
    · rw [if_neg hlt]
      refine ⟨_, _, rfl, (h.moveRight htop (by omega)).pushLeft (fun b hb => ?_) ?_⟩
      · have hxt := not_lt.mp hlt
        rcases PriorityQueue.mem_push.mp hb with rfl | hb
        · exact hxt
        · refine hxt.trans (h.below t ?_ b hb)
          rw [htop]
          exact List.mem_cons_self
      · rw [PriorityQueue.size_push]
        omega

/-- All values are seen. -/
theorem insertAll_spec {l : List K} (h : Balanced seen left right) :
    ∃ left' right', insertAll l left right = some (left', right') ∧
      Balanced (l.reverse ++ seen) left' right' := by
  induction l generalizing seen left right with
  | nil => exact ⟨left, right, rfl, h⟩
  | cons x l ih =>
      obtain ⟨left₁, right₁, hone, hbal⟩ := insertOne_spec h x
      obtain ⟨left', right', hall, hbal'⟩ := ih hbal
      refine ⟨left', right', ?_, ?_⟩
      · rw [insertAll, hone, Option.bind_some]
        exact hall
      · rw [List.reverse_cons, List.append_assoc, List.singleton_append]
        exact hbal'

/-- The left side backwards and the right side are the values in order. -/
theorem Balanced.sorted (h : Balanced seen left right) :
    left.elems.reverse ++ right.elems = seen.insertionSort (· ≤ ·) := by
  refine List.Perm.eq_of_pairwise' (r := (· ≤ ·)) ?_ (List.pairwise_insertionSort (· ≤ ·) seen) ?_
  · refine List.pairwise_append.mpr ⟨List.pairwise_reverse.mpr left.ordered, right.ordered, ?_⟩
    exact fun a ha => h.below a (List.mem_reverse.mp ha)
  · refine ((List.reverse_perm _).append_right _).trans (h.perm.trans ?_)
    exact (List.perm_insertionSort (· ≤ ·) seen).symm

end Sides

/-! ## The median -/

variable [Field K]

/-- What is returned after the loop. -/
def middleOf (left : Left K) (right : Right K) : Option K :=
  if left.size = right.size then
    left.top.bind fun a => right.top.map fun b => (a + b) / 2
  else if left.size < right.size then right.top
  else left.top

/-- `median_element`; `some none` is `ZNAN`. -/
def median_element : List K → Option (Option K)
  | [] => some none
  | l => (insertAll l .empty .empty).bind fun p => (middleOf p.1 p.2).map some

/-- What the median of a sorted list is. -/
def median (s : List K) : Option K :=
  if s.length % 2 = 1 then s[s.length / 2]?
  else s[s.length / 2 - 1]?.bind fun a => s[s.length / 2]?.map fun b => (a + b) / 2

section Middle

variable {left : Left K} {right : Right K}

omit [Field K] in
theorem get_left (h : left.size ≠ 0) :
    (left.elems.reverse ++ right.elems)[left.size - 1]? = left.top := by
  obtain ⟨t, ht, htop⟩ := PriorityQueue.exists_top h
  have hsize := PriorityQueue.size_eq htop
  have hlen : left.pop.elems.reverse.length = left.size - 1 := by
    rw [List.length_reverse, hsize]
    rfl
  rw [ht, htop, List.reverse_cons, List.append_assoc, ← hlen, List.getElem?_append_right le_rfl,
    Nat.sub_self]
  rfl

omit [Field K] in
theorem get_right : (left.elems.reverse ++ right.elems)[left.size]? = right.top := by
  have hlen : left.elems.reverse.length = left.size := List.length_reverse
  rw [← hlen, List.getElem?_append_right le_rfl, Nat.sub_self]
  exact List.head?_eq_getElem?.symm

theorem Balanced.middleOf_eq {seen : List K} (h : Balanced seen left right) (hne : seen ≠ []) :
    middleOf left right = median (seen.insertionSort (· ≤ ·)) := by
  have hl := h.leftSize
  have hr := h.rightSize
  have hlen : (left.elems.reverse ++ right.elems).length = left.size + right.size := by
    rw [List.length_append, List.length_reverse]
    rfl
  have hpos : 0 < left.size + right.size := by
    rw [← hlen, h.sorted, List.length_insertionSort]
    exact List.length_pos_iff.mpr hne
  rw [← h.sorted, middleOf, median, hlen]
  by_cases heq : left.size = right.size
  · have hhalf : (left.size + right.size) / 2 = left.size := by omega
    rw [if_pos heq, if_neg (by omega), hhalf, get_left (by omega), get_right]
  rw [if_neg heq]
  by_cases hless : left.size < right.size
  · have hhalf : (left.size + right.size) / 2 = left.size := by omega
    rw [if_pos hless, if_pos (by omega), hhalf, get_right]
  · have hhalf : (left.size + right.size) / 2 = left.size - 1 := by omega
    rw [if_neg hless, if_pos (by omega), hhalf, get_left (by omega)]

end Middle

theorem median_element_eq {l : List K} (hl : l ≠ []) :
    median_element l = (median (l.insertionSort (· ≤ ·))).map some := by
  obtain ⟨left, right, hall, hbal⟩ := insertAll_spec (l := l) balanced_empty
  have hperm : (l.reverse ++ []).insertionSort (· ≤ ·) = l.insertionSort (· ≤ ·) := by
    rw [List.append_nil]
    exact List.Perm.eq_of_pairwise' (List.pairwise_insertionSort (· ≤ ·) _)
      (List.pairwise_insertionSort (· ≤ ·) _) ((List.perm_insertionSort _ _).trans
        ((List.reverse_perm l).trans (List.perm_insertionSort _ _).symm))
  have hne : l.reverse ++ [] ≠ [] := by
    rw [List.append_nil]
    exact mt List.reverse_eq_nil_iff.mp hl
  cases l with
  | nil => exact absurd rfl hl
  | cons x l =>
      rw [median_element, hall, Option.bind_some, hbal.middleOf_eq hne, hperm]
      exact nofun

/-- The value in the middle of the sorted ones when their number is odd, and the mean of the two
in the middle when it is even. -/
def IsMedian (l : List K) (x : K) : Prop :=
  (l.length % 2 = 1 → (l.insertionSort (· ≤ ·))[l.length / 2]? = some x) ∧
    (l.length % 2 = 0 → ∃ a b, (l.insertionSort (· ≤ ·))[l.length / 2 - 1]? = some a ∧
      (l.insertionSort (· ≤ ·))[l.length / 2]? = some b ∧ x = (a + b) / 2)

theorem median_element_isMedian {l : List K} (hl : l ≠ []) :
    ∃ x, median_element l = some (some x) ∧ IsMedian l x := by
  have hpos := List.length_pos_iff.mpr hl
  have hlen : (l.insertionSort (· ≤ ·)).length = l.length := List.length_insertionSort _ l
  have hget : ∀ i, i < l.length → ∃ x, (l.insertionSort (· ≤ ·))[i]? = some x := fun i hi =>
    ⟨_, List.getElem?_eq_getElem (by rwa [hlen])⟩
  rw [median_element_eq hl, median, hlen]
  by_cases hodd : l.length % 2 = 1
  · obtain ⟨x, hx⟩ := hget (l.length / 2) (by omega)
    rw [if_pos hodd, hx]
    exact ⟨x, rfl, fun _ => hx, fun heven => by omega⟩
  · obtain ⟨a, ha⟩ := hget (l.length / 2 - 1) (by omega)
    obtain ⟨b, hb⟩ := hget (l.length / 2) (by omega)
    rw [if_neg hodd, ha, hb]
    exact ⟨_, rfl, fun h => absurd h hodd, fun _ => ⟨a, b, ha, hb, rfl⟩⟩

theorem median_element_isMedian_four :
    ∃ x, median_element [3, 1, 4, (1 : ℚ)] = some (some x) ∧ IsMedian [3, 1, 4, 1] x :=
  median_element_isMedian (List.cons_ne_nil _ _)

end Ztsdb.Arr.Median
