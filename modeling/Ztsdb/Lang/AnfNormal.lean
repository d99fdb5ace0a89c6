import Mathlib
import Ztsdb.Lang.Anf

/-!
# What normalisation leaves in place

An operand that is no atom is hoisted, and what is left can be evaluated in one go; so is
what is hoisted, for it was walked first. Four things go wrong. A special assignment among
the operands is hoisted without being walked, and its left side is left in place. `next`
and `break` are taken for atoms. The left side of an assignment is never walked. And a
special assignment of a call is taken for a unary operator in the end.
-/

namespace Ztsdb.Lang

open Anf E

/-- The condition on what is stripped: what is hoisted as it is has to be normal; `converted`
is the condition on anything else. -/
def named (e : E) (converted : Bool) : Bool :=
  match e with
  | etspecialassign e1 e2 => e1.normal && e2.normal
  | _ => converted

/-- Whether what is left in place can be evaluated, the operands of operators aside. -/
def leavesAtom : E → Bool
  | etspecialassign e1 _ => e1.canEval
  | etnext => false
  | etbreak => false
  | etellipsis => false
  | ettaggedexpr _ _ _ => false
  | etarg _ _ => false
  | _ => true

def operand (e : E) (converted : Bool) : Bool := named e.strip converted && leavesAtom e.strip

section Converts

variable (doBndVar : Bool)

mutual

/-- The condition on an expression that is walked. -/
def converts : E → Bool
  | etfuncall e el => operand e (converts e) && convertsArgs el
  | etleftassign e1 e2 => e1.normal && named e2.strip (converts e2)
  | etspecialassign e1 e2 => !e2.isFuncall && (e1.normal && named e2.strip (converts e2))
  | etunop _ e => operand e (converts e)
  | etbinop _ left right attrib =>
    operand left (converts left) && (operand right (converts right) &&
      operand attrib (converts attrib))
  | etexprlist el => convertsAll el
  | etfunction formlist body => convertsFormals formlist && converts body
  | etifelse e1 e2 e3 => operand e1 (converts e1) && (converts e2 && converts e3)
  | etwhile e1 e2 => converts e1 && converts e2
  | etfor forloop => converts forloop
  | etrequest e1 e2 => operand e1 (converts e1) && converts e2
  | etescape e => !doBndVar || converts e
  | ettaggedexpr _ _ e => e.normal
  | etarg _ e => e.normal
  | etnull => true
  | etnext => true
  | etbreak => true
  | etellipsis => true
  | literal _ => true
  | etsymbol _ _ => true
  | etboundvar _ => true

def convertsAll : List E → Bool
  | [] => true
  | e :: el => converts e && convertsAll el

def convertsArgs : List E → Bool
  | [] => true
  | ettaggedexpr _ _ e :: el => converts e && convertsArgs el
  | etarg _ e :: el => converts e && convertsArgs el
  | _ :: _ => false

def convertsFormals : List E → Bool
  | [] => true
  | ettaggedexpr _ _ e :: el => converts e && convertsFormals el
  | etsymbol _ _ :: el => convertsFormals el
  | etellipsis :: el => convertsFormals el
  | _ :: _ => false

end

end Converts

/-! ## Walks that meet a condition -/

section Meets

variable {α β : Type} {m : Anf α} {n : Nat} {Q : α → Prop}

/-- A walk that ends in a result with `Q`, and inserts normal statements only. -/
def Meets (m : Anf α) (n : Nat) (Q : α → Prop) : Prop :=
  match m n with
  | .ok (a, h, _) => Q a ∧ ∀ x ∈ h, x.2.normal = true
  | .error _ => False

theorem meets_pure {a : α} : Meets (pure a) n Q ↔ Q a := by
  show (Q a ∧ ∀ x ∈ [], _) ↔ Q a
  simp

theorem meets_fail {f : Fail} : ¬Meets (fail f : Anf α) n Q := id

theorem meets_addafter {w : Into} {e : E} {Q : Unit → Prop} :
    Meets (addafter w e) n Q ↔ Q () ∧ e.normal = true := by
  show (Q () ∧ ∀ x ∈ [(w, e)], _) ↔ _
  simp

theorem meets_gensym {s : String} {P : Prop} : Meets (gensym s) n (fun _ => P) ↔ P := by
  show (P ∧ ∀ x ∈ [], _) ↔ P
  simp

/-- The condition on the rest of a walk does not depend on the new symbols. -/
theorem meets_bind {k : α → Anf β} {Q : β → Prop} {C : α → Prop}
    (hk : ∀ a n, Meets (k a) n Q ↔ C a) : Meets (m >>= k) n Q ↔ Meets m n C := by
  have hbind : (m >>= k) n = Anf.bind m k n := rfl
  rw [Meets, hbind, Anf.bind, Meets]
  cases hm : m n with
  | error f => simp only
  | ok r =>
      obtain ⟨a, h, n'⟩ := r
      have hka := hk a n'
      rw [Meets] at hka
      simp only
      cases hr : k a n' with
      | error f =>
          rw [hr] at hka
          simp only at hka ⊢
          rw [← hka, false_and]
      | ok r =>
          obtain ⟨b, h', n''⟩ := r
          rw [hr] at hka
          simp only [List.forall_mem_append] at hka ⊢
          rw [← hka]
          tauto

theorem meets_and {P : Prop} : Meets m n (fun a => Q a ∧ P) ↔ Meets m n Q ∧ P := by
  rw [Meets, Meets]
  split
  · tauto
  · exact (false_and P).symm ▸ Iff.rfl

theorem forall_mem_of {w : Into} {h : List (Into × E)} :
    (∀ e ∈ of w h, e.normal = true) ↔ ∀ x ∈ h, x.1 = w → x.2.normal = true := by
  simp only [of, List.mem_map, List.mem_filter, decide_eq_true_eq, forall_exists_index, and_imp]
  constructor
  · intro hall x hx hw
    exact hall x.2 x hx hw rfl
  · intro hall e x hx hw heq
    rw [← heq]
    exact hall x hx hw

/-- What a statement of an own list inserts stays normal, in either list. -/
theorem meets_statement {m : Anf E} :
    Meets (statement m) n (fun el => ∀ e ∈ el, e.normal = true) ↔
      Meets m n (fun e => e.normal = true) := by
  rw [Meets, Meets, statement]
  cases m n with
  | error f => exact Iff.rfl
  | ok r =>
      obtain ⟨e, h, n'⟩ := r
      have htop : (∀ x ∈ (of .top h).map fun e => (Into.top, e), x.2.normal = true) ↔
          ∀ e ∈ of .top h, e.normal = true := by
        simp only [List.forall_mem_map]
      have hboth : (∀ x ∈ h, x.2.normal = true) ↔
          (∀ x ∈ h, x.1 = .el → x.2.normal = true) ∧
            ∀ x ∈ h, x.1 = .top → x.2.normal = true := by
        refine ⟨fun hall => ⟨fun x hx _ => hall x hx, fun x hx _ => hall x hx⟩, ?_⟩
        intro ⟨hel, htop⟩ x hx
        cases hw : x.1 with
        | el => exact hel x hx hw
        | top => exact htop x hx hw
      simp only [List.forall_mem_append, List.forall_mem_singleton]
      rw [htop, forall_mem_of, forall_mem_of, hboth]
      tauto

theorem meets_within {m : Anf E} {Q : E → Prop} : Meets (within m) n Q ↔ Meets m n Q := by
  rw [Meets, Meets, within]
  cases m n with
  | error f => exact Iff.rfl
  | ok r => simp only [List.forall_mem_map]

theorem meets_outermost {m : Anf E} :
    Meets (outermost m) n (fun el => ∀ e ∈ el, e.normal = true) ↔
      Meets m n (fun e => e.normal = true) := by
  rw [Meets, Meets, outermost]
  cases m n with
  | error f => exact Iff.rfl
  | ok r =>
      simp only [List.forall_mem_append, List.forall_mem_map, List.forall_mem_singleton,
        List.not_mem_nil, false_implies, implies_true, and_true]
      tauto

end Meets

/-- Only the results that a walk can have count. -/
theorem meets_of_range {α : Type} {m : Anf α} {n : Nat} {Q Q' : α → Prop}
    (h : ∀ a hs n', m n = .ok (a, hs, n') → (Q a ↔ Q' a)) : Meets m n Q ↔ Meets m n Q' := by
  rw [Meets, Meets]
  cases hm : m n with
  | error f => exact Iff.rfl
  | ok r =>
      obtain ⟨a, hs, n'⟩ := r
      simp only
      rw [h a hs n' hm]

theorem bind_eq_ok {α β : Type} {m : Anf α} {k : α → Anf β} {n n' : Nat} {b : β}
    {hs : List (Into × E)} (h : (m >>= k) n = .ok (b, hs, n')) :
    ∃ a hs₁ n₁ hs₂, m n = .ok (a, hs₁, n₁) ∧ k a n₁ = .ok (b, hs₂, n') ∧
      hs = hs₁ ++ hs₂ := by
  have hbind : (m >>= k) n = Anf.bind m k n := rfl
  rw [hbind, Anf.bind] at h
  split at h
  · cases h
  · next a hs₁ n₁ hm =>
      split at h
      · cases h
      · next b' hs₂ n₂ hk =>
          cases h
          exact ⟨a, hs₁, n₁, hs₂, hm, hk, rfl⟩

/-! Sequences of walks, the conditions of which add up. -/

section Sequence

variable {α β : Type} {m : Anf α} {k : α → Anf β} {n : Nat} {R : α → Prop} {Q : β → Prop}
  {P c d : Prop}

theorem meets_only (hm : ∀ n, Meets m n R ↔ d) (hk : ∀ a n, Meets (k a) n Q ↔ R a) :
    Meets (m >>= k) n Q ↔ d :=
  (meets_bind hk).trans (hm n)

theorem meets_first (hm : ∀ n, Meets m n R ↔ d) (hk : ∀ a n, Meets (k a) n Q ↔ R a ∧ c) :
    Meets (m >>= k) n Q ↔ d ∧ c :=
  (meets_bind hk).trans (meets_and.trans (and_congr_left' (hm n)))

theorem meets_last (hm : ∀ n, Meets m n R ↔ d) (hk : ∀ a n, Meets (k a) n Q ↔ P ∧ R a) :
    Meets (m >>= k) n Q ↔ P ∧ d := by
  have hswap := fun a n => (hk a n).trans and_comm
  exact (meets_first hm hswap).trans and_comm

theorem meets_next (hm : ∀ n, Meets m n R ↔ d)
    (hk : ∀ a n, Meets (k a) n Q ↔ P ∧ (R a ∧ c)) : Meets (m >>= k) n Q ↔ P ∧ (d ∧ c) := by
  have hswap := fun a n => (hk a n).trans and_left_comm
  exact (meets_first hm hswap).trans and_left_comm

end Sequence

/-! ## The walks -/

section Walk

variable {doBndVar : Bool} {e : E} {el : List E} {n : Nat}

/-- What is to be shown of every expression. -/
def Converts (doBndVar : Bool) (e : E) : Prop :=
  ∀ n, Meets (norm doBndVar e) n (fun x => x.normal = true) ↔ converts doBndVar e = true

theorem normStatements_meets (ih : ∀ y, sizeOf y < sizeOf el → Converts doBndVar y) :
    Meets (normStatements doBndVar el) n (fun el => ∀ x ∈ el, x.normal = true) ↔
      convertsAll doBndVar el = true := by
  induction el generalizing n with
  | nil =>
      rw [normStatements, meets_pure, convertsAll]
      simp
  | cons e el hel =>
      rw [normStatements, convertsAll, Bool.and_eq_true]
      refine meets_first
        (fun n => meets_statement.trans (ih e (by simp; omega) n)) fun s n => ?_
      refine meets_last (fun n => hel fun y hy => ih y (by simp; omega)) fun rest n => ?_
      rw [meets_pure, List.forall_mem_append]

theorem normTerm_meets (ih : ∀ y, sizeOf y ≤ sizeOf e → Converts doBndVar y) :
    Meets (normTerm doBndVar e) n (fun x => x.normal = true) ↔ converts doBndVar e = true := by
  by_cases hlist : ∃ el, e = etexprlist el
  · obtain ⟨el, rfl⟩ := hlist
    rw [normTerm, converts]
    refine meets_only (fun n => normStatements_meets fun y hy => ih y ?_) fun el n => ?_
    · simp
      omega
    · rw [meets_pure, normal_strip, normal, normals_iff]
  · have heq : normTerm doBndVar e =
        statement (norm doBndVar e) >>= fun el => pure (etexprlist el).strip := by
      rw [normTerm]
      intro el hel
      exact hlist ⟨el, hel⟩
    rw [heq]
    refine meets_only (fun n => meets_statement.trans (ih e le_rfl n)) fun el n => ?_
    rw [meets_pure, normal_strip, normal, normals_iff]

theorem normTerms_meets (ih : ∀ y, sizeOf y < sizeOf el → Converts doBndVar y) :
    Meets (normTerms doBndVar el) n (fun el => ∀ x ∈ el, x.normal = true) ↔
      convertsAll doBndVar el = true := by
  induction el generalizing n with
  | nil =>
      rw [normTerms, meets_pure, convertsAll]
      simp
  | cons e el hel =>
      rw [normTerms, convertsAll, Bool.and_eq_true]
      refine meets_first (fun n => normTerm_meets fun y hy => ih y (by simp; omega))
        fun e n => ?_
      refine meets_last (fun n => hel fun y hy => ih y (by simp; omega)) fun rest n => ?_
      rw [meets_pure, List.forall_mem_cons]

theorem normArgs_meets (ih : ∀ y, sizeOf y < sizeOf el → Converts doBndVar y) :
    Meets (normArgs doBndVar el) n (fun el => ∀ x ∈ el, x.normal = true) ↔
      convertsArgs doBndVar el = true := by
  induction el generalizing n with
  | nil =>
      rw [normArgs, meets_pure, convertsArgs]
      simp
  | cons e el hel =>
      have hrest := fun n => @hel n fun y hy => ih y (by simp; omega)
      cases e with
      | ettaggedexpr symb ref e =>
          rw [normArgs, convertsArgs, Bool.and_eq_true]
          refine meets_first (fun n => normTerm_meets fun y hy => ih y (by simp; omega))
            fun e n => ?_
          refine meets_last hrest fun rest n => ?_
          rw [meets_pure, List.forall_mem_cons, normal]
      | etarg ref e =>
          rw [normArgs, convertsArgs, Bool.and_eq_true]
          refine meets_first (fun n => normTerm_meets fun y hy => ih y (by simp; omega))
            fun e n => ?_
          refine meets_last hrest fun rest n => ?_
          rw [meets_pure, List.forall_mem_cons, normal]
      | _ => simp [normArgs, convertsArgs, meets_fail]

theorem normFormals_meets (ih : ∀ y, sizeOf y < sizeOf el → Converts doBndVar y) :
    Meets (normFormals doBndVar el) n (fun el => ∀ x ∈ el, x.normal = true) ↔
      convertsFormals doBndVar el = true := by
  induction el generalizing n with
  | nil =>
      rw [normFormals, meets_pure, convertsFormals]
      simp
  | cons e el hel =>
      have hrest := fun n => @hel n fun y hy => ih y (by simp; omega)
      cases e with
      | ettaggedexpr symb ref e =>
          rw [normFormals, convertsFormals, Bool.and_eq_true]
          refine meets_first (fun n => normTerm_meets fun y hy => ih y (by simp; omega))
            fun e n => ?_
          refine meets_last hrest fun rest n => ?_
          rw [meets_pure, List.forall_mem_cons, normal, normal_strip]
      | etsymbol data ref =>
          rw [normFormals, convertsFormals]
          refine meets_only hrest fun rest n => ?_
          rw [meets_pure, List.forall_mem_cons, normal]
          exact and_iff_right rfl
      | etellipsis =>
          rw [normFormals, convertsFormals]
          refine meets_only hrest fun rest n => ?_
          rw [meets_pure, List.forall_mem_cons, normal]
          exact and_iff_right rfl
      | _ => simp [normFormals, convertsFormals, meets_fail]

theorem norm_binop_ok {op n' : Nat} {left right attrib x : E} {hs : List (Into × E)}
    (h : norm doBndVar (etbinop op left right attrib) n = .ok (x, hs, n')) :
    ∃ left right attrib, x = etbinop op left right attrib := by
  rw [norm] at h
  obtain ⟨left, _, _, _, -, h, -⟩ := bind_eq_ok h
  obtain ⟨right, _, _, _, -, h, -⟩ := bind_eq_ok h
  obtain ⟨attrib, _, _, _, -, h, -⟩ := bind_eq_ok h
  cases h
  exact ⟨left, right, attrib, rfl⟩

/-- Something that is assigned to a new symbol. -/
theorem hoisted_meets {Q : E → Prop} (he : Converts doBndVar e)
    (hQ : ∀ s, Q (etsymbol s false)) :
    Meets (do
      let s ← gensym "?anf"
      let e ← norm doBndVar e
      addafter .el (etleftassign (etsymbol s false) e)
      pure (etsymbol s false)) n Q ↔ converts doBndVar e = true := by
  refine (meets_bind fun s n => ?_).trans meets_gensym
  refine meets_only he fun e n => ?_
  refine (meets_bind fun _ n => meets_pure).trans ?_
  rw [meets_addafter, normal, normal, Bool.true_and]
  exact and_iff_right (hQ s)

/-- An assignment that is hoisted, and its left side after it. -/
theorem assigned_meets {Q : E → Prop} {e1 e2 : E}
    (he : Converts doBndVar (etleftassign e1 e2)) (hQ : ∀ s, Q (etsymbol s false)) :
    Meets (normStripped doBndVar (etleftassign e1 e2)) n Q ↔
      converts doBndVar (etleftassign e1 e2) = true := by
  have hleft : converts doBndVar (etleftassign e1 e2) = true → e1.normal = true := by
    rw [converts, Bool.and_eq_true]
    exact And.left
  rw [normStripped]
  refine Iff.trans ?_ (and_iff_left_of_imp hleft)
  refine meets_first he fun la n => ?_
  refine (meets_bind (C := fun _ => e1.normal = true) fun _ n => ?_).trans
    (meets_addafter.trans and_comm)
  refine (meets_bind fun s n => ?_).trans meets_gensym
  refine (meets_bind fun _ n => meets_pure).trans ?_
  rw [meets_addafter, normal, normal, Bool.true_and]
  exact and_iff_right (hQ s)

theorem special_meets {Q : E → Prop} {e1 e2 : E} :
    Meets (normStripped doBndVar (etspecialassign e1 e2)) n Q ↔
      Q e1 ∧ (e1.normal && e2.normal) = true := by
  rw [normStripped]
  refine (meets_bind fun _ n => meets_pure).trans ?_
  rw [meets_addafter, normal]

theorem named_of_ne (h : ∀ e1 e2, e ≠ etspecialassign e1 e2) (c : Bool) : named e c = c := by
  unfold named
  split
  · next e1 e2 => exact absurd rfl (h e1 e2)
  · rfl

theorem leavesAtom_of_not_atomic (h : ∀ e1 e2, e ≠ etspecialassign e1 e2)
    (hatom : ¬isAtomic e = true) : leavesAtom e = true := by
  unfold leavesAtom
  split
  · next e1 e2 => exact absurd rfl (h e1 _)
  all_goals first | rfl | exact absurd rfl hatom

/-- An atom can be evaluated, unless it is none for the interpreter. -/
theorem atom_meets (hatom : isAtomic e = true) :
    Meets (norm doBndVar e) n (fun x => (x.canEval && x.normal) = true) ↔
      Meets (norm doBndVar e) n (fun x => x.normal = true) ∧ leavesAtom e = true := by
  cases e with
  | etbinop op left right attrib =>
      refine Iff.trans ?_ (and_iff_left rfl).symm
      refine meets_of_range fun x hs n' hok => ?_
      obtain ⟨left, right, attrib, rfl⟩ := norm_binop_ok hok
      rw [canEval, normal]
      simp only [Bool.and_eq_true]
      tauto
  | etnull | literal | etsymbol | etboundvar | etnext | etbreak | etellipsis | ettaggedexpr
  | etarg => simp [norm, meets_pure, canEval, normal, leavesAtom]
  | _ => cases hatom

theorem normStripped_eq (h1 : ∀ e1 e2, e ≠ etleftassign e1 e2)
    (h2 : ∀ e1 e2, e ≠ etspecialassign e1 e2) :
    normStripped doBndVar e =
      if isAtomic e then norm doBndVar e
      else (do
        let s ← gensym "?anf"
        let e ← norm doBndVar e
        addafter .el (etleftassign (etsymbol s false) e)
        pure (etsymbol s false)) := by
  rw [normStripped]
  · exact h1
  · exact h2

theorem normStripped_normal (he : Converts doBndVar e) :
    Meets (normStripped doBndVar e) n (fun x => x.normal = true) ↔
      named e (converts doBndVar e) = true := by
  by_cases h1 : ∃ e1 e2, e = etleftassign e1 e2
  · obtain ⟨e1, e2, rfl⟩ := h1
    refine assigned_meets he ?_
    exact fun s => rfl
  by_cases h2 : ∃ e1 e2, e = etspecialassign e1 e2
  · obtain ⟨e1, e2, rfl⟩ := h2
    rw [special_meets, named, Bool.and_eq_true]
    tauto
  have h2' : ∀ e1 e2, e ≠ etspecialassign e1 e2 := fun e1 e2 heq => h2 ⟨e1, e2, heq⟩
  rw [normStripped_eq (fun e1 e2 heq => h1 ⟨e1, e2, heq⟩) h2', named_of_ne h2']
  split
  · exact he n
  · refine hoisted_meets he ?_
    exact fun s => rfl

theorem normStripped_operand (he : Converts doBndVar e) :
    Meets (normStripped doBndVar e) n (fun x => (x.canEval && x.normal) = true) ↔
      (named e (converts doBndVar e) && leavesAtom e) = true := by
  by_cases h1 : ∃ e1 e2, e = etleftassign e1 e2
  · obtain ⟨e1, e2, rfl⟩ := h1
    refine (assigned_meets he ?_).trans ?_
    · exact fun s => rfl
    · exact (Bool.and_true _).symm ▸ Iff.rfl
  by_cases h2 : ∃ e1 e2, e = etspecialassign e1 e2
  · obtain ⟨e1, e2, rfl⟩ := h2
    rw [special_meets, named, leavesAtom]
    simp only [Bool.and_eq_true]
    tauto
  have h2' : ∀ e1 e2, e ≠ etspecialassign e1 e2 := fun e1 e2 heq => h2 ⟨e1, e2, heq⟩
  rw [normStripped_eq (fun e1 e2 heq => h1 ⟨e1, e2, heq⟩) h2', named_of_ne h2']
  split
  · next hatom =>
      rw [atom_meets hatom, Bool.and_eq_true]
      exact and_congr_left' (he n)
  · next hatom =>
      rw [leavesAtom_of_not_atomic h2' hatom, Bool.and_true]
      refine hoisted_meets he ?_
      exact fun s => rfl

/-- A one-element list is taken for its element. -/
theorem normName_eq : normName doBndVar e = normStripped doBndVar e.strip := by
  by_cases h : ∃ x, e = etexprlist [x]
  · obtain ⟨x, rfl⟩ := h
    rw [normName]
    rfl
  · have hstrip : e.strip = e := by
      unfold strip
      split
      · next x => exact absurd ⟨x, rfl⟩ h
      · rfl
    rw [hstrip, normName]
    intro x hx
    exact h ⟨x, hx⟩

theorem converts_strip : converts doBndVar e.strip = converts doBndVar e := by
  unfold strip
  split
  · rw [converts, convertsAll, convertsAll, Bool.and_true]
  · rfl

theorem sizeOf_strip_le : sizeOf e.strip ≤ sizeOf e := by
  unfold strip
  split
  · simp
    omega
  · exact le_rfl

theorem normName_normal (ih : ∀ y, sizeOf y ≤ sizeOf e → Converts doBndVar y) :
    Meets (normName doBndVar e) n (fun x => x.normal = true) ↔
      named e.strip (converts doBndVar e) = true := by
  rw [normName_eq, normStripped_normal (ih _ sizeOf_strip_le), converts_strip]

theorem normName_operand (ih : ∀ y, sizeOf y ≤ sizeOf e → Converts doBndVar y) :
    Meets (normName doBndVar e) n (fun x => (x.canEval && x.normal) = true) ↔
      operand e (converts doBndVar e) = true := by
  rw [normName_eq, normStripped_operand (ih _ sizeOf_strip_le), converts_strip, operand]

/-- The right side of an assignment that is a call. -/
theorem call_meets (hcall : e.isFuncall = true) (he : Converts doBndVar e) :
    Meets (norm doBndVar e) n (fun x => x.normal = true) ↔
      named e.strip (converts doBndVar e) = true := by
  cases e with
  | etfuncall e el => exact he n
  | _ => cases hcall

/-- One case for each kind of node: the conditions on its parts add up. -/
theorem converts_of_lt (ih : ∀ y, sizeOf y < sizeOf e → Converts doBndVar y) :
    Converts doBndVar e := by
  intro n
  cases e with
  | etfuncall e el =>
      rw [norm, converts, Bool.and_eq_true]
      refine meets_first (fun n => normName_operand fun y hy => ih y (by simp; omega))
        fun e n => ?_
      refine meets_last (fun n => normArgs_meets fun y hy => ih y (by simp; omega))
        fun el n => ?_
      rw [meets_pure, normal, Bool.and_eq_true, normals_iff]
  | etleftassign e1 e2 =>
      rw [norm, converts, Bool.and_eq_true]
      split
      · next hcall =>
          refine meets_last (fun n => call_meets hcall (ih e2 (by simp))) fun e2 n => ?_
          rw [meets_pure, normal, Bool.and_eq_true]
      · refine meets_last (fun n => normName_normal fun y hy => ih y (by simp; omega))
          fun e2 n => ?_
        rw [meets_pure, normal, Bool.and_eq_true]
  | etspecialassign e1 e2 =>
      rw [norm, converts, Bool.and_eq_true, Bool.and_eq_true]
      split
      · next hcall =>
          have hfail : ∀ (a : E) n, Meets (fail .undefined : Anf E) n
              (fun x => x.normal = true) ↔ False := fun a n => iff_of_false meets_fail id
          refine (meets_bind hfail).trans (iff_of_false ?_ fun h => ?_)
          · rw [Meets]
            split
            · exact fun h => h.1
            · exact id
          · rw [hcall] at h
            cases h.1
      · next hcall =>
          refine Iff.trans ?_ (and_iff_right (by rw [Bool.not_eq_true] at hcall; rw [hcall]; rfl)).symm
          refine meets_last (fun n => normName_normal fun y hy => ih y (by simp; omega))
            fun e2 n => ?_
          rw [meets_pure, normal, Bool.and_eq_true]
  | etunop op e =>
      rw [norm, converts]
      refine meets_only (fun n => normName_operand fun y hy => ih y (by simp; omega))
        fun e n => ?_
      rw [meets_pure, normal]
  | etbinop op left right attrib =>
      rw [norm, converts, Bool.and_eq_true, Bool.and_eq_true]
      refine meets_first (fun n => normName_operand fun y hy => ih y (by simp; omega))
        fun left n => ?_
      refine meets_next (fun n => normName_operand fun y hy => ih y (by simp; omega))
        fun right n => ?_
      rw [← and_assoc]
      refine meets_last (fun n => normName_operand fun y hy => ih y (by simp; omega))
        fun attrib n => ?_
      rw [meets_pure, normal, and_assoc, ← Bool.and_eq_true, ← Bool.and_eq_true]
  | etexprlist el =>
      rw [norm, converts]
      refine meets_only (fun n => normTerms_meets fun y hy => ih y (by simp; omega))
        fun el n => ?_
      rw [meets_pure, normal, normals_iff]
  | etfunction formlist body =>
      rw [norm, converts, Bool.and_eq_true]
      refine meets_first (fun n => normFormals_meets fun y hy => ih y (by simp; omega))
        fun formlist n => ?_
      refine meets_last (fun n => normTerm_meets fun y hy => ih y (by simp; omega))
        fun body n => ?_
      rw [meets_pure, normal, Bool.and_eq_true, normals_iff]
  | etifelse e1 e2 e3 =>
      rw [norm, converts, Bool.and_eq_true, Bool.and_eq_true]
      refine meets_first (fun n => normName_operand fun y hy => ih y (by simp; omega))
        fun e1 n => ?_
      refine meets_next (fun n => normTerm_meets fun y hy => ih y (by simp; omega))
        fun e2 n => ?_
      rw [← and_assoc]
      refine meets_last (fun n => normTerm_meets fun y hy => ih y (by simp; omega))
        fun e3 n => ?_
      rw [meets_pure, normal, and_assoc, ← Bool.and_eq_true, ← Bool.and_eq_true]
  | etwhile e1 e2 =>
      rw [norm, converts, Bool.and_eq_true]
      refine meets_first (fun n => normTerm_meets fun y hy => ih y (by simp; omega))
        fun e1 n => ?_
      refine meets_last (fun n => normTerm_meets fun y hy => ih y (by simp; omega))
        fun e2 n => ?_
      rw [meets_pure, normal, Bool.and_eq_true]
  | etfor forloop =>
      rw [norm, converts]
      refine meets_only (fun n => normTerm_meets fun y hy => ih y (by simp; omega))
        fun forloop n => ?_
      rw [meets_pure, normal]
  | etrequest e1 e2 =>
      rw [norm, converts, Bool.and_eq_true]
      refine meets_first (fun n => normName_operand fun y hy => ih y (by simp; omega))
        fun e1 n => ?_
      refine meets_last (fun n => meets_within.trans
        (normTerm_meets fun y hy => ih y (by simp; omega))) fun e2 n => ?_
      rw [meets_pure, normal, Bool.and_eq_true]
  | etescape e =>
      rw [norm, converts]
      cases doBndVar with
      | true =>
          rw [if_pos rfl, Bool.not_true, Bool.false_or]
          refine meets_only (fun n => normTerm_meets fun y hy => ih y (by simp; omega))
            fun e n => ?_
          refine (meets_bind fun s n => ?_).trans meets_gensym
          refine (meets_bind fun _ n => meets_pure).trans ?_
          rw [meets_addafter, normal, normal, normal, Bool.true_and]
          exact and_iff_right rfl
      | false =>
          rw [if_neg Bool.false_ne_true, Bool.not_false, Bool.true_or]
          refine (meets_bind fun s n => meets_pure).trans ?_
          exact meets_gensym.trans Iff.rfl
  | etnull | etnext | etbreak | etellipsis | literal | etsymbol | etboundvar | ettaggedexpr
  | etarg => simp [norm, meets_pure, normal, converts]

theorem converts_iff (doBndVar : Bool) (e : E) : Converts doBndVar e := by
  induction hk : sizeOf e using Nat.strong_induction_on generalizing e with
  | _ k ih => exact converts_of_lt fun y hy => ih (sizeOf y) (hk ▸ hy) y rfl

theorem convertStatements_meets :
    Meets (convertStatements doBndVar el) n (fun el => ∀ x ∈ el, x.normal = true) ↔
      convertsAll doBndVar el = true := by
  induction el generalizing n with
  | nil =>
      rw [convertStatements, meets_pure, convertsAll]
      simp
  | cons e el ih =>
      rw [convertStatements, convertsAll, Bool.and_eq_true]
      refine meets_first
        (fun n => meets_outermost.trans (converts_iff doBndVar e n)) fun s n => ?_
      refine meets_last (fun n => ih) fun rest n => ?_
      rw [meets_pure, List.forall_mem_append]

/-- What is inserted ends in the list itself. -/
theorem convertStatements_nil {r : List E} {hs : List (Into × E)} {n' : Nat}
    (h : convertStatements doBndVar el n = .ok (r, hs, n')) : hs = [] := by
  induction el generalizing n r hs with
  | nil =>
      cases h
      rfl
  | cons e el ih =>
      rw [convertStatements] at h
      obtain ⟨s, hs₁, n₁, hs₂, hs, h₂, rfl⟩ := bind_eq_ok h
      obtain ⟨rest, hs₃, n₂, hs₄, hrest, h₃, rfl⟩ := bind_eq_ok h₂
      cases h₃
      have hnil : hs₁ = [] := by
        unfold outermost at hs
        split at hs
        · cases hs
        · cases hs
          rfl
      rw [hnil, ih hrest]
      rfl

theorem exists_normal_iff {doBndVar : Bool} {el : List E} {n : Nat} :
    (∃ out n', convertToANF doBndVar el n = .ok (out, n') ∧ ∀ e ∈ out, e.normal = true) ↔
      convertsAll doBndVar el = true := by
  rw [← @convertStatements_meets doBndVar el n, Meets, convertToANF]
  cases hr : convertStatements doBndVar el n with
  | error f =>
      simp only
      exact iff_of_false (fun ⟨_, _, h, _⟩ => nomatch h) id
  | ok r =>
      obtain ⟨out, hs, n'⟩ := r
      rw [convertStatements_nil hr]
      simp only
      refine ⟨fun ⟨_, _, h, hnormal⟩ => ?_, fun h => ⟨out, n', rfl, h.1⟩⟩
      cases h
      exact ⟨hnormal, nofun⟩

end Walk

/-- Normalisation leaves nothing in place that cannot be evaluated in one go, exactly when
its condition holds of every statement. -/
theorem convertToANF_normal (doBndVar : Bool) (el : List E) (n : Nat) :
    (∃ out n', convertToANF doBndVar el n = .ok (out, n') ∧ ∀ e ∈ out, e.normal = true) ↔
      convertsAll doBndVar el = true :=
  exists_normal_iff

/-- `1 + (x <<- f(2) + 3)`: the special assignment is hoisted with the call still an
operand. -/
theorem not_normal_special :
    ¬∃ out n', convertToANF true [etbinop 0 (literal (.double 1))
        (etspecialassign (etsymbol "x" false)
          (etbinop 0 (etfuncall (etsymbol "f" false) [etarg false (literal (.double 2))])
            (literal (.double 3)) etnull)) etnull] 0 = .ok (out, n') ∧
      ∀ e ∈ out, e.normal = true := by
  rw [exists_normal_iff]
  decide

/-- `g <- f(x) + f(y)` is normalised. -/
example : convertsAll true [etleftassign (etsymbol "g" false)
    (etbinop 0 (etfuncall (etsymbol "f" false) [etarg false (etsymbol "x" false)])
      (etfuncall (etsymbol "f" false) [etarg false (etsymbol "y" false)]) etnull)] = true := by
  decide

end Ztsdb.Lang
