import Mathlib
import Ztsdb.Net.RoundTrip

/-!
# The value at the bottom of the stack

Who reads a response or a request looks at the first value of the stack alone: it is
complete when it has as much as is expected. The turns of `readValue` leave what is below
the value they work on as it is, and complete the first one only when they take `idx` to
zero, after which there is nothing left to do.
-/

namespace Ztsdb.Net

open Ztsdb.Lib Ztsdb.Arr

/-- A value that lacks something. The parts of a `zts` are counted twice. -/
def ValState.Pending (vs : ValState) : Prop :=
  vs.n < vs.exp ∧ ∀ idx a, vs.val = .zts idx a → vs.exp = 2 ∧ vs.n = vs.stage

/-- A turn that returns goes on from there, or leaves. -/
def Turn.Moves (t : Turn) (r : Reader) : Prop := t = .again r ∨ t = .leaves r

@[simp] theorem moves_again {r r' : Reader} : (Turn.again r).Moves r' ↔ r = r' := by
  simp [Turn.Moves]

@[simp] theorem moves_leaves {r r' : Reader} : (Turn.leaves r).Moves r' ↔ r = r' := by
  simp [Turn.Moves]

@[simp] theorem moves_throws {e : ReadExn} {r : Reader} : ¬ (Turn.throws e).Moves r := by
  simp [Turn.Moves]

@[simp] theorem moves_faults {r : Reader} : ¬ Turn.faults.Moves r := by
  simp [Turn.Moves]

@[simp] theorem moves_spins {r : Reader} : ¬ Turn.spins.Moves r := by
  simp [Turn.Moves]

/-- What a turn makes of the stack: it works on one value, which stays as long as it is
pending, or `idx` goes below it. -/
def Works (below : List ValState) (vs : ValState) (r : Reader) : Prop :=
  ∃ vs' above, r.ss = below ++ vs' :: above ∧ vs'.exp = vs.exp ∧
    (r.idx = below.length ∨ r.idx = below.length + 1 ∧ (vs.Pending → vs'.Pending))

/-! ## Elements are not more than expected -/

variable {a b b' : VArray} {c : List UInt8} {exp col coloff off off' n n' : Nat}

theorem copyElts_le_exp (h : copyElts c exp col coloff off n b = .done off' n' b') (hn : n ≤ exp) :
    n' ≤ exp := by
  induction hk : exp - n using Nat.strong_induction_on generalizing col coloff off n b with
  | _ k ih =>
      subst hk
      rw [copyElts] at h
      simp only at h
      split at h
      · next hlt =>
          split at h
          · cases h
          · split at h
            · cases h
            · next h0 =>
                generalize hm : min (min (exp - n) ((c.length - off) / b.type.sizeof)) (b.nrows - coloff) = m
                  at h0 h
                have hle : m ≤ exp - n := by
                  rw [← hm]
                  exact (Nat.min_le_left _ _).trans (Nat.min_le_left _ _)
                split at h
                · exact ih (exp - (n + m)) (by omega) h (by omega) rfl
                · exact ih (exp - (n + m)) (by omega) h (by omega) rfl
      · cases h
        exact hn

theorem readSlow_le_exp (h : readSlow c exp col coloff off n b = .done off' n' b') (hn : n ≤ exp) :
    n' ≤ exp := by
  induction hk : exp - n using Nat.strong_induction_on generalizing col coloff off n b with
  | _ k ih =>
      subst hk
      rw [readSlow] at h
      simp only at h
      split at h
      · next hlt =>
          split at h
          · cases h
          · split at h
            · cases h
            · split at h
              · cases h
              · split at h
                · exact ih (exp - (n + 1)) (by omega) h (by omega) rfl
                · exact ih (exp - (n + 1)) (by omega) h (by omega) rfl
      · cases h
        exact hn

theorem readElts_le_exp (h : readEltsFromBuffer c exp off n b = .done off' n' b') (hn : n ≤ exp) :
    n' ≤ exp := by
  rw [readEltsFromBuffer] at h
  simp only at h
  split at h
  · cases h
  · split at h
    · cases h
    · split at h
      · exact readSlow_le_exp h hn
      · exact copyElts_le_exp h hn

theorem readInts_le {m m' : Nat} {v v' : List UInt64} (h : Reader.readInts c m off v = some (m', off', v')) :
    m' ≤ m := by
  induction m generalizing off v with
  | zero =>
      cases h
      exact Nat.le_refl 0
  | succ m ih =>
      rw [Reader.readInts] at h
      split at h
      · split at h
        · cases h
        · exact Nat.le_succ_of_le (ih h)
      · cases h
        exact Nat.le_refl _

/-! ## The value that is worked on -/

variable {below above : List ValState} {vs : ValState} {r r' : Reader}

/-- A value that is put back as it is wanted. -/
theorem works_put {vs' : ValState} (he : vs'.exp = vs.exp) (hp : vs.Pending → vs'.Pending) :
    Works below vs (Reader.put ⟨off, below ++ vs :: above, below.length + 1⟩ vs') := by
  rw [put_above]
  exact ⟨vs', above, rfl, he, .inr ⟨rfl, hp⟩⟩

theorem works_complete {vs' : ValState} (he : vs'.exp = vs.exp) :
    Works below vs (Reader.put ⟨off, below ++ vs :: above, below.length + 1⟩ vs').complete := by
  rw [put_above]
  exact ⟨vs', above, rfl, he, .inl rfl⟩

/-- A child goes away. -/
theorem Works.pop (h : Works below vs r) (hl : below.length + 1 < r.ss.length) :
    Works below vs r.pop := by
  obtain ⟨vs', above, hss, he, hi⟩ := h
  rw [hss, List.length_append, List.length_cons] at hl
  have hne : above ≠ [] := by
    rintro rfl
    simp at hl
  refine ⟨vs', above.dropLast, ?_, he, hi⟩
  rw [Reader.pop, hss, List.dropLast_append_of_ne_nil (List.cons_ne_nil _ _),
    List.dropLast_cons_of_ne_nil hne]

theorem Works.complete (h : Works below vs r) (hi : r.idx = below.length + 1) :
    Works below vs r.complete := by
  obtain ⟨vs', above, hss, he, -⟩ := h
  exact ⟨vs', above, hss, he, .inl (by rw [Reader.complete, hi]; rfl)⟩

theorem length_put (r : Reader) (vs : ValState) : (r.put vs).ss.length = r.ss.length :=
  List.length_set ..

/-- A child is there. -/
theorem child_lt {g : ValState} (h : (below ++ vs :: above)[below.length + 1]? = some g) :
    below.length + 1 < (below ++ vs :: above).length :=
  (List.getElem?_eq_some_iff.mp h).1

/-- The value is complete, and its last child goes away. -/
theorem works_pop_complete {vs' : ValState} (he : vs'.exp = vs.exp)
    (hl : below.length + 1 < (below ++ vs :: above).length) :
    Works below vs (Reader.put ⟨off, below ++ vs :: above, below.length + 1⟩ vs').pop.complete := by
  have h : Works below vs (Reader.put ⟨off, below ++ vs :: above, below.length + 1⟩ vs').complete :=
    works_complete he
  refine h.pop ?_
  rw [Reader.complete, length_put]
  exact hl

theorem works_std_int {v : List UInt64} {e k st : Nat}
    (h : (Reader.switch c ⟨.std_int v, e, k, st⟩
      ⟨off, below ++ ⟨.std_int v, e, k, st⟩ :: above, below.length + 1⟩).Moves r') :
    Works below ⟨.std_int v, e, k, st⟩ r' := by
  rw [Reader.switch] at h
  simp only at h
  split at h
  · exact absurd h moves_faults
  · next m off' v' hr =>
      cases moves_again.mp h
      have hle := readInts_le hr
      split
      · exact works_complete rfl
      · refine works_put rfl fun hp => ⟨?_, fun idx a ha => by cases ha⟩
        have := hp.1
        show e - m < e
        simp only at this
        omega

theorem works_chars {v : Val} {e k st : Nat} {join : List UInt8 → Val}
    (hj : ∀ t idx a, join t ≠ .zts idx a)
    (h : (Reader.readChars c ⟨v, e, k, st⟩ join
      ⟨off, below ++ ⟨v, e, k, st⟩ :: above, below.length + 1⟩).Moves r') :
    Works below ⟨v, e, k, st⟩ r' := by
  rw [Reader.readChars] at h
  generalize (if off ≤ c.length then min e (c.length - off) else e) = w at h
  simp only at h
  split at h
  · exact absurd h moves_faults
  · cases moves_again.mp h
    split
    · exact works_complete rfl
    · next hlt =>
        exact works_put rfl fun _ => ⟨Nat.not_le.mp hlt, fun idx a ha => absurd ha (hj _ idx a)⟩

theorem works_endArray {vs' : ValState} {a : VArray} (hc : above ≠ [])
    (h : (Reader.endArray vs' ⟨off, below ++ vs :: above, below.length + 1⟩).Moves r')
    (he : vs'.exp = vs.exp) (hv : vs'.val = .array a) (hn : vs.Pending → vs'.n ≤ vs'.exp) :
    Works below vs r' := by
  rw [Reader.endArray] at h
  split at h
  · cases moves_again.mp h
    refine works_pop_complete he ?_
    rw [List.length_append, List.length_cons]
    have := List.length_pos_of_ne_nil hc
    omega
  · next hne =>
      cases moves_again.mp h
      refine works_put he fun hp => ⟨Nat.lt_of_le_of_ne (hn hp) hne, fun idx a ha => ?_⟩
      rw [hv] at ha
      cases ha

theorem works_array {a : VArray} {e k st : Nat} (hc : above ≠ [])
    (h : (Reader.switch c ⟨.array a, e, k, st⟩
      ⟨off, below ++ ⟨.array a, e, k, st⟩ :: above, below.length + 1⟩).Moves r') :
    Works below ⟨.array a, e, k, st⟩ r' := by
  rw [Reader.switch] at h
  simp only [Reader.readArray] at h
  split at h
  · split at h
    · exact absurd h moves_faults
    · split at h
      · exact absurd h moves_throws
      · split at h
        · exact absurd h moves_throws
        · exact works_endArray hc h rfl rfl fun hp => Nat.le_of_lt hp.1
  · split at h
    · split at h
      · exact absurd h moves_throws
      · exact absurd h moves_faults
      · exact absurd h moves_spins
      · next off' n' a' hr =>
          split at h
          · next hend =>
              cases moves_leaves.mp h
              exact works_put rfl fun _ => ⟨hend.2, fun idx a ha => by cases ha⟩
          · exact works_endArray hc h rfl rfl fun hp => readElts_le_exp hr (Nat.le_of_lt hp.1)
    · exact absurd h moves_throws

theorem works_list {l : List (List UInt8 × Val)} {e k st : Nat}
    (h : (Reader.switch c ⟨.list l, e, k, st⟩
      ⟨off, below ++ ⟨.list l, e, k, st⟩ :: above, below.length + 1⟩).Moves r') :
    Works below ⟨.list l, e, k, st⟩ r' := by
  rw [Reader.switch] at h
  simp only [Reader.readList] at h
  split at h
  · next hlt =>
      split at h
      · exact absurd h moves_throws
      · next child hchild =>
          split at h
          · exact absurd h moves_throws
          · next x hx =>
              cases moves_again.mp h
              have hl := child_lt hchild
              split
              · exact works_pop_complete rfl hl
              · next hne =>
                  refine Works.pop (works_put rfl fun _ => ⟨?_, fun idx a ha => by cases ha⟩) ?_
                  · exact Nat.lt_of_le_of_ne hlt hne
                  · rw [length_put]
                    exact hl
  · next hlt =>
      cases moves_again.mp h
      split
      · exact ⟨_, _, rfl, rfl, .inl rfl⟩
      · exact ⟨_, _, rfl, rfl, .inr ⟨rfl, id⟩⟩

theorem works_zts {idx a : VArray} {e k st : Nat}
    (h : (Reader.switch c ⟨.zts idx a, e, k, st⟩
      ⟨off, below ++ ⟨.zts idx a, e, k, st⟩ :: above, below.length + 1⟩).Moves r') :
    Works below ⟨.zts idx a, e, k, st⟩ r' := by
  rw [Reader.switch] at h
  simp only [Reader.readZts] at h
  split at h
  · exact absurd h moves_faults
  · next child hchild =>
      split at h
      · split at h
        · cases moves_again.mp h
          refine Works.pop (works_put rfl fun hp => ?_) ((length_put ..).symm ▸ child_lt hchild)
          obtain ⟨h2, h0⟩ := hp.2 idx a rfl
          simp only at h2 h0
          subst h2 h0
          exact ⟨Nat.one_lt_two, fun _ _ _ => ⟨rfl, rfl⟩⟩
        · exact absurd h moves_throws
      · exact absurd h moves_throws
  · exact absurd h moves_faults
  · next child hchild =>
      split at h
      · split at h
        · cases moves_again.mp h
          exact works_pop_complete rfl (child_lt hchild)
        · exact absurd h moves_throws
      · exact absurd h moves_throws
  · cases moves_again.mp h
    exact ⟨_, _, rfl, rfl, .inr ⟨rfl, id⟩⟩

theorem works_named {name v : Val} {e k st : Nat}
    (h : (Reader.switch c ⟨.named name v, e, k, st⟩
      ⟨off, below ++ ⟨.named name v, e, k, st⟩ :: above, below.length + 1⟩).Moves r') :
    Works below ⟨.named name v, e, k, st⟩ r' := by
  rw [Reader.switch] at h
  simp only [Reader.readNamed] at h
  split at h
  · exact absurd h moves_throws
  · next he =>
      split at h
      · exact absurd h moves_faults
      · next child hk hchild =>
          cases moves_again.mp h
          refine Works.pop (works_put rfl fun _ => ⟨?_, fun idx a ha => by cases ha⟩)
            ((length_put ..).symm ▸ child_lt hchild)
          rw [Classical.not_not.mp he]
          exact Nat.one_lt_two
      · exact absurd h moves_faults
      · next child hk hchild =>
          cases moves_again.mp h
          exact works_pop_complete rfl (child_lt hchild)
      · exact absurd h moves_throws

/-- What is done by the kind of a value. An array is read only with its list above it. -/
theorem switch_works (hc : ∀ a, vs.val = .array a → above ≠ [])
    (h : (Reader.switch c vs ⟨off, below ++ vs :: above, below.length + 1⟩).Moves r') :
    Works below vs r' := by
  obtain ⟨v, e, k, st⟩ := vs
  cases v with
  | std_string s =>
      rw [Reader.switch] at h
      refine works_chars ?_ h
      rintro t idx a ⟨⟩
  | std_int v => exact works_std_int h
  | array a => exact works_array (hc a rfl) h
  | zts idx a => exact works_zts h
  | list l => exact works_list h
  | null =>
      cases moves_again.mp h
      exact ⟨_, _, rfl, rfl, .inl rfl⟩
  | named name v => exact works_named h
  | error what =>
      rw [Reader.switch] at h
      refine works_chars ?_ h
      rintro t idx a ⟨⟩

/-! ## Turns -/

/-- The rest of a turn. -/
theorem body_works (h : (Reader.body c r).Moves r')
    (hc : ∀ vs a, r.ss[r.idx - 1]? = some vs → vs.val = .array a → r.idx < r.ss.length) :
    ∃ below vs above, r.ss = below ++ vs :: above ∧ r.idx = below.length + 1 ∧ Works below vs r' := by
  obtain ⟨off, ss, idx⟩ := r
  rw [Reader.body] at h
  simp only at h hc
  split at h
  · exact absurd h moves_faults
  · next h0 =>
      split at h
      · exact absurd h moves_faults
      · next vs hget =>
          obtain ⟨hlt, hvs⟩ := List.getElem?_eq_some_iff.mp hget
          have hsplit : ss = ss.take (idx - 1) ++ vs :: ss.drop idx := by
            have hd := List.drop_eq_getElem_cons hlt
            rw [hvs, Nat.sub_add_cancel (Nat.pos_of_ne_zero h0)] at hd
            rw [← hd, List.take_append_drop]
          have hlen : (ss.take (idx - 1)).length = idx - 1 := by
            rw [List.length_take]
            omega
          refine ⟨ss.take (idx - 1), vs, ss.drop idx, hsplit, by simp only; omega, ?_⟩
          split at h
          · cases moves_leaves.mp h
            exact ⟨vs, ss.drop idx, hsplit, rfl, .inr ⟨by simp only; omega, id⟩⟩
          · have hi : idx = (ss.take (idx - 1)).length + 1 := by omega
            have hr : (⟨off, ss, idx⟩ : Reader) =
                ⟨off, ss.take (idx - 1) ++ vs :: ss.drop idx, (ss.take (idx - 1)).length + 1⟩ := by
              rw [← hsplit, ← hi]
            rw [hr] at h
            refine switch_works (fun a ha hnil => ?_) h
            have hlt' := hc vs a hget ha
            rw [List.drop_eq_nil_iff] at hnil
            omega

/-- Values whose list stays on the stack. -/
theorem make_value_array {vt : ValType} {v : Val} {a : VArray} (h : make_value vt = .ok v)
    (hv : v = .array a) : isArray vt = true := by
  subst hv
  cases vt <;> first | rfl | cases h

theorem make_value_zts {vt : ValType} {v : Val} {idx a : VArray} (h : make_value vt = .ok v)
    (hv : v = .zts idx a) : vt = .zts := by
  subst hv
  cases vt <;> first | rfl | cases h

/-- A turn at a head. -/
theorem turn_push (hi : r.idx = r.ss.length) (h : (r.turn c).Moves r') :
    ∃ w off vtlen off' vt v, readWord 8 c r.off = some (w, off) ∧
      readWord 8 c off = some (vtlen, off') ∧ ValType.ofNumber w = some vt ∧
      make_value vt = .ok v ∧ Works r.ss ⟨v, vtlen, 0, 0⟩ r' := by
  rw [Reader.turn, if_pos hi] at h
  split at h
  · exact absurd h moves_faults
  · next w off hw =>
      split at h
      · exact absurd h moves_faults
      · next vtlen off' hlen =>
          split at h
          · exact absurd h moves_throws
          · next vt hvt =>
              split at h
              · exact absurd h moves_throws
              · next v hv =>
                  refine ⟨w, off, vtlen, off', vt, v, hw, hlen, hvt, hv, ?_⟩
                  have hagain : Works r.ss ⟨v, vtlen, 0, 0⟩
                      ⟨off', r.ss ++ [⟨v, vtlen, 0, 0⟩], r.idx + 1⟩ :=
                    ⟨_, [], rfl, rfl, .inr ⟨by rw [hi], id⟩⟩
                  have hget : (r.ss ++ [(⟨v, vtlen, 0, 0⟩ : ValState)])[r.idx]? = some ⟨v, vtlen, 0, 0⟩ := by
                    rw [hi, List.getElem?_concat_length]
                  -- the rest of the turn works on the value that was put there
                  have hbody (hna : isArray vt ≠ true)
                      (hb : (Reader.body c ⟨off', r.ss ++ [⟨v, vtlen, 0, 0⟩], r.idx + 1⟩).Moves r') :
                      Works r.ss ⟨v, vtlen, 0, 0⟩ r' := by
                    obtain ⟨below, vs, above, hss, hidx, hworks⟩ := body_works hb fun vs a hvs ha => by
                      simp only [Nat.add_sub_cancel, hget, Option.some.injEq] at hvs
                      subst hvs
                      exact absurd (make_value_array hv ha) hna
                    have hlen := Nat.succ.inj hidx
                    obtain ⟨rfl, hvs⟩ := List.append_inj hss (hi.symm.trans hlen)
                    obtain ⟨rfl, -⟩ := List.cons.inj hvs
                    exact hworks
                  simp only at h
                  split at h
                  · cases moves_again.mp h
                    exact hagain
                  · next hna =>
                      split at h
                      · exact hbody hna h
                      · split at h
                        · exact absurd h moves_throws
                        · exact hbody hna h
                        · cases moves_again.mp h
                          exact hagain

/-! ## Whole runs -/

/-- The first value of the stack expects so much, and lacks something as long as there is
something left to do. -/
def Waits (e : Nat) (r : Reader) : Prop :=
  ∃ vs above, r.ss = vs :: above ∧ vs.exp = e ∧ (e ≠ 0 → 0 < r.idx → vs.Pending)

theorem Works.waits (h : Works [] vs r) (hp : vs.exp ≠ 0 → vs.Pending) : Waits vs.exp r := by
  obtain ⟨vs', above, hss, he, hi⟩ := h
  refine ⟨vs', above, hss, he, fun h0 hpos => ?_⟩
  rcases hi with hi | ⟨-, hi⟩
  · rw [hi] at hpos
    exact absurd hpos (Nat.lt_irrefl 0)
  · exact hi (hp h0)

/-- A turn. -/
theorem Waits.turn {e : Nat} (hr : Waits e r) (h : (r.turn c).Moves r') : Waits e r' := by
  obtain ⟨vs, above, hss, he, hp⟩ := hr
  -- work above the first value leaves it as it is
  have habove {below : List ValState} {f : ValState} (hi : 0 < r.idx) (hw : Works (vs :: below) f r') :
      Waits e r' := by
    obtain ⟨f', above', hss', -, -⟩ := hw
    exact ⟨vs, below ++ f' :: above', hss', he, fun h0 _ => hp h0 hi⟩
  by_cases hi : r.idx = r.ss.length
  · obtain ⟨-, -, vtlen, -, -, v, -, -, -, -, hw⟩ := turn_push hi h
    rw [hss] at hw
    refine habove ?_ hw
    rw [hi, hss]
    exact Nat.succ_pos _
  · rw [Reader.turn, if_neg hi] at h
    obtain ⟨below, f, above', hss', hidx, hw⟩ := body_works h fun f a hf _ => by
      have := (List.getElem?_eq_some_iff.mp hf).1
      omega
    rw [hss] at hss'
    cases below with
    | nil =>
        obtain ⟨rfl, -⟩ := List.cons.inj hss'
        rw [← he]
        exact hw.waits fun h0 => hp (he ▸ h0) (hidx ▸ Nat.succ_pos _)
    | cons g below =>
        obtain ⟨rfl, -⟩ := List.cons.inj hss'
        exact habove (hidx ▸ Nat.succ_pos _) hw

/-- A call of `readValue`. -/
theorem Waits.ends {e : Nat} (hr : Waits e r) (h : Ends c r (.returns r')) : Waits e r' := by
  obtain ⟨k, hk⟩ := h
  induction k generalizing r with
  | zero => cases hk
  | succ k ih =>
      rw [readValue] at hk
      split at hk
      · split at hk
        · next r₁ ht => exact ih (hr.turn (.inl ht)) hk
        · next r₁ ht =>
            cases hk
            exact hr.turn (.inr ht)
        · cases hk
        · cases hk
        · cases hk
      · cases hk
        exact hr

/-- The first turn, at the head of a value. -/
theorem waits_head {vt : ValType} {e : Nat} (h : (Reader.turn c ⟨off, [], 0⟩).Moves r')
    (hat : At c off (leBytes 8 vt.number ++ leBytes 8 e)) (he : e < 2 ^ 64)
    (hz : vt = .zts → e = 2) : Waits e r' := by
  obtain ⟨w, off₁, vtlen, off₂, vt', v, hw, hlen, hvt, hv, hworks⟩ := turn_push rfl h
  have h1 := readWord_at hat.left vt.number_lt
  have h2 := readWord_at hat.right (by norm_num at he ⊢; exact he)
  rw [length_leBytes] at h2
  rw [h1] at hw
  cases hw
  rw [h2] at hlen
  cases hlen
  rw [ValType.ofNumber_number] at hvt
  cases hvt
  exact hworks.waits fun h0 => ⟨Nat.pos_of_ne_zero h0, fun idx a ha =>
    ⟨hz (make_value_zts hv ha), rfl⟩⟩

/-- A reader whose first value is complete has no more to read: what follows is no head. -/
theorem Waits.not_ends {e : Nat} {d : List UInt8} (hr : Waits e r) (h0 : e ≠ 0)
    (hdone : ∃ vs ∈ r.ss[0]?, vs.exp ≤ vs.n) (hd : r.off < d.length) :
    ¬ ∃ r', Ends d r (.returns r') := by
  obtain ⟨vs, above, hss, he, hp⟩ := hr
  obtain ⟨vs', hvs, hle⟩ := hdone
  rw [hss] at hvs
  cases hvs
  have hi : r.idx = 0 := by
    by_contra hne
    exact absurd (hp h0 (Nat.pos_of_ne_zero hne)).1 (Nat.not_lt.mpr hle)
  have hturn : r.turn d = .faults := by
    rw [Reader.turn, if_neg (by rw [hi, hss]; exact (Nat.succ_ne_zero _).symm), Reader.body, if_pos hi]
  rintro ⟨r', hends⟩
  have hf := (@ends_turn d _ (some .faults) (fun k => by rw [readValue, if_pos (.inl hd), hturn]) _).mp
    hends
  cases hf

end Ztsdb.Net
