import Mathlib
import Ztsdb.Net.ReadKept

/-!
# Arrays among values

An array that is read leaves an array on the stack, wherever it is among other values: one
with the same extents, and the same one if it is `Sound`. The head of an array is the head
of a value, or the type and the size alone as in a `zts`.
-/

namespace Ztsdb.Net

open Ztsdb.Lib Ztsdb.Arr

theorem VArray.eltItems_eq (a : VArray) : a.eltItems = a.elts.map Elt.tokens := by
  rw [VArray.eltItems, VArray.elts, List.map_flatMap]

theorem VArray.tokens_eq (a : VArray) : a.tokens = a.headItems.flatten ++ eltTokens a.elts := by
  rw [VArray.tokens, List.flatten_append, VArray.eltItems_eq, eltTokens, List.flatMap_def]

namespace VArray.Valid

variable {a : VArray} {front : List UInt8} {hd ts : List Token} {more : List (List UInt8)}
  {below : List ValState} {R : Reader → List (List UInt8) → Prop} [Observes R]

theorem length_elts (h : a.Valid) : a.elts.length = a.v.length * a.nrows := by
  rw [VArray.elts, List.length_flatMap, List.map_congr_left h.nrows, List.map_const',
    List.sum_replicate, smul_eq_mul]

theorem hasType (h : a.Valid) : ∀ x ∈ a.elts, x.HasType a.type := by
  intro x hx
  obtain ⟨c, hc, hxc⟩ := List.mem_flatMap.mp hx
  exact h.types c hc x hxc

theorem size_eq (h : a.Valid) : a.size = a.v.length * a.nrows := Nat.mod_eq_of_lt h.memory

/-- The turn in which the array is made. -/
theorem switch_made {b e : VArray} (he : e.type = a.type)
    (hb : ((VArray.noinit a.type a.dim
        (a.names.map fun nm => nm.map fun s => ZString.ofString s.chars)).bind
      (VArray.setOrdered (a.v.map fun c => if c.ordered then 1 else 0))) = .ok b)
    (below : List ValState) (n : Nat) (c : List UInt8) (off : Nat) :
    Reader.switch c ⟨.array e, n, 0, 0⟩
        ⟨off, below ++ [⟨.array e, n, 0, 0⟩, ⟨a.metaVal, 3, 3, 0⟩], below.length + 1⟩ =
      .again (if n = 0 then ⟨off, below ++ [⟨.array b, n, 0, 1⟩], below.length⟩
        else ⟨off, below ++ [⟨.array b, n, 0, 1⟩, ⟨a.metaVal, 3, 3, 0⟩], below.length + 1⟩) := by
  rw [Reader.switch]
  simp only [Reader.readArray, if_true, getElem?_child, convertFromList_meta, he, hb,
    Reader.endArray, put_above]
  by_cases hn : n = 0
  · rw [if_pos hn.symm, if_pos hn, pop_above, complete_above]
  · rw [if_neg fun h => hn h.symm, if_neg hn]

/-- The list before the elements is read, and the array made. -/
theorem rcv_head (h : a.Valid)
    (himg : tokenImage hd = tokenImage (value a.type.valType [.word 8 a.size]))
    (hm : EachWhole (headerSize + front.length) (hd :: a.metaItems)) :
    ∃ b, SameShape b a ∧ (a.Sound → Kept a 0 b) ∧
      (Rcv R front ((hd :: a.metaItems).flatten ++ ts) more below below.length ↔
        if a.size = 0 then
          Rcv R (fill front (hd :: a.metaItems)) ts more (below ++ [⟨.array b, a.size, 0, 1⟩])
            below.length
        else AtElt R (fill front (hd :: a.metaItems)) ts more below ⟨a.metaVal, 3, 3, 0⟩ a.size 0 b) := by
  obtain ⟨b, hb, hs⟩ := h.made
  refine ⟨b, hs, fun hsound => hsound.made_kept hb, ?_⟩
  obtain ⟨hw, hmeta⟩ := eachWhole_cons.mp hm
  have hv : make_value a.type.valType = .ok (.array (.empty a.type [0, 1])) := by
    cases a.type <;> rfl
  have harr : isArray a.type.valType = true := by
    cases a.type <;> rfl
  have hsize : a.size < 2 ^ 64 := h.size_eq ▸ h.memory
  have hhead := @rcv_item below _ _ front (a.metaItems.flatten ++ ts) _ more R _ hw
    (himg ▸ length_value_pos _ _ _) fun c off hat => by
      rw [himg] at hat ⊢
      exact turn_container hat hsize hv (.inl harr)
  have hturn (c : List UInt8) (off : Nat) :=
    @switch_made a b (.empty a.type [0, 1]) rfl hb below a.size c off
  have hchild := @Reads.child below _ ts more R _ _ ⟨.array (.empty a.type [0, 1]), a.size, 0, 0⟩ _
    h.reads_meta hmeta
  rw [List.flatten_cons, List.append_assoc, fill]
  by_cases h0 : a.size = 0
  · simp only [if_pos h0] at hturn
    rw [if_pos h0]
    exact hhead.trans (hchild.trans (rcv_above hturn))
  · simp only [if_neg h0] at hturn
    rw [if_neg h0]
    exact hhead.trans (hchild.trans (rcv_above hturn))

/-- An array is read. -/
theorem rcv_array (h : a.Valid)
    (himg : tokenImage hd = tokenImage (value a.type.valType [.word 8 a.size]))
    (hw : EachWhole (headerSize + front.length) (hd :: a.metaItems ++ a.eltItems)) :
    ∃ b, SameShape b a ∧ (a.Sound → Kept a a.size b) ∧
      (Rcv R front ((hd :: a.metaItems ++ a.eltItems).flatten ++ ts) more below below.length ↔
        Rcv R (fill front (hd :: a.metaItems ++ a.eltItems)) ts more
          (below ++ [⟨.array b, a.size, a.size, 1⟩]) below.length) := by
  obtain ⟨hm, hw⟩ := eachWhole_append.mp hw
  obtain ⟨b, hs, hkept, hr⟩ := @rcv_head a front hd (eltTokens a.elts ++ ts) more below R _ h himg hm
  have hlen := h.length_elts
  rw [List.flatten_append, List.append_assoc, fill_append, VArray.eltItems_eq, ← List.flatMap_def]
  rw [VArray.eltItems_eq] at hw
  by_cases h0 : a.size = 0
  · rw [← h.size_eq, h0] at hlen
    have hnil := List.length_eq_zero_iff.mp hlen
    rw [if_pos h0, hnil, eltTokens_nil, List.nil_append, h0] at hr
    refine ⟨b, hs, fun hsound => h0 ▸ hkept hsound, ?_⟩
    rw [hnil, List.map_nil, List.flatMap_nil, List.nil_append, fill, h0]
    exact hr
  · rw [if_neg h0] at hr
    have hrows : a.nrows ≠ 0 := by
      rintro hn
      rw [h.size_eq, hn, Nat.mul_zero] at h0
      exact h0 rfl
    have hn : 0 + a.elts.length = a.size := by rw [Nat.zero_add, hlen, h.size_eq]
    obtain ⟨b', hfill, hr'⟩ := @atElt_whole a b a.size 0 a.elts below ⟨a.metaVal, 3, 3, 0⟩ _ ts more R _
      h.hasType hs h.size_eq hrows hn hw
    refine ⟨b', hfill.shape, fun hsound => ?_, hr.trans hr'⟩
    have hk := hfill.kept hsound (List.prefix_rfl) (hkept hsound)
    rwa [hn] at hk

end VArray.Valid

/-- An array with a head of its own arrives as it was. -/
theorem VArray.Sound.reads {a : VArray} {hd : List Token} (h : a.Sound)
    (himg : tokenImage hd = tokenImage (value a.type.valType [.word 8 a.size])) :
    Reads (hd :: a.metaItems ++ a.eltItems) ⟨.array a, a.size, a.size, 1⟩ := by
  intro R _ below buf ts more hw
  obtain ⟨b, hs, hk, hr⟩ := @VArray.Valid.rcv_array a buf hd ts more below R _ h.toValid himg hw
  rw [(hk h).eq hs h.nrows (Nat.le_of_eq h.size_eq.symm)] at hr
  exact hr

end Ztsdb.Net
