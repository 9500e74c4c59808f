import SelfLambda.Proofs.Index.Unbounded
import SelfLambda.Term.Erasure

/-! Index arithmetic on words against the arithmetic on numbers. As long as no sum that an operation forms reaches
`2 ^ 64`, shifting and substitution on words are renaming and substitution on numbers. -/

namespace SelfLambda

theorem ofNat_add_one (depth : Nat) : UInt64.ofNat depth + 1 = UInt64.ofNat (depth + 1) :=
  (UInt64.ofNat_add depth 1).symm

theorem ofNat_add_two (depth : Nat) : UInt64.ofNat depth + 2 = UInt64.ofNat (depth + 2) :=
  (UInt64.ofNat_add depth 2).symm

theorem toNat_sub_sub_one {opened depth : UInt64} (below : opened < depth) :
    (depth - opened - 1).toNat = depth.toNat - opened.toNat - 1 := by
  have difference : (depth - opened).toNat = depth.toNat - opened.toNat :=
    UInt64.toNat_sub_of_le _ _ (UInt64.le_of_lt below)
  have positive : (1 : UInt64) ≤ depth - opened := by
    rw [UInt64.le_iff_toNat_le, difference]
    exact Nat.sub_pos_of_lt (UInt64.lt_iff_toNat_lt.mp below)
  rw [UInt64.toNat_sub_of_le _ _ positive, difference]
  rfl

namespace Term

/-- `P depth index` holds at every variable, where `depth` counts binders as a number. -/
def EachVar (P : Nat → UInt64 → Prop) : Nat → Term → Prop
  | depth, var index => P depth index
  | _, ref _ => True
  | _, typ => True
  | depth, all _ _ _ domain codomain => domain.EachVar P (depth + 1) ∧ codomain.EachVar P (depth + 2)
  | depth, lam _ _ body => body.EachVar P (depth + 1)
  | depth, app _ fn arg => fn.EachVar P depth ∧ arg.EachVar P depth
  | depth, ann _ type term => type.EachVar P depth ∧ term.EachVar P depth

/-- No sum formed by `shift` wraps: neither the cutoff at a variable nor an index that grows. -/
def ShiftFits (t : Term) (inc cutoff : UInt64) : Prop :=
  inc = 0 ∨ t.EachVar (fun depth index => cutoff.toNat + depth < UInt64.size ∧
    (cutoff.toNat + depth ≤ index.toNat → index.toNat + inc.toNat < UInt64.size)) 0

/-- No sum formed by `subst` wraps: neither the cutoff at a variable nor a sum of a shift of the value. -/
def SubstFits (t value : Term) (cutoff : UInt64) : Prop :=
  t.EachVar (fun depth index => cutoff.toNat + depth < UInt64.size ∧
    (index.toNat = cutoff.toNat + depth → value.ShiftFits (UInt64.ofNat depth) 0)) 0

theorem EachVar.imp {P Q : Nat → UInt64 → Prop} (weaker : ∀ depth index, P depth index → Q depth index) {t : Term}
    {depth : Nat} (holds : t.EachVar P depth) : t.EachVar Q depth := by
  induction t generalizing depth with
  | var index => exact weaker depth index holds
  | ref name => trivial
  | typ => trivial
  | all erased self param domain codomain domainLaw codomainLaw =>
    exact ⟨domainLaw holds.1, codomainLaw holds.2⟩
  | lam erased param body bodyLaw =>
    change body.EachVar P (depth + 1) at holds
    exact bodyLaw holds
  | app erased fn arg fnLaw argLaw => exact ⟨fnLaw holds.1, argLaw holds.2⟩
  | ann checked type term typeLaw termLaw => exact ⟨typeLaw holds.1, termLaw holds.2⟩

/-- A traversal that agrees with a substitution at every variable is that substitution. -/
theorem unbounded_mapVars (f : UInt64 → UInt64 → Term) (σ : Nat → Unbounded) (t : Term) (depth : Nat)
    (agrees : t.EachVar (fun depth index =>
      (f (UInt64.ofNat depth) index).unbounded = Unbounded.liftBy depth σ index.toNat) depth) :
    (t.mapVars f (UInt64.ofNat depth)).unbounded = t.unbounded.subst (Unbounded.liftBy depth σ) := by
  induction t generalizing depth with
  | var index => exact agrees
  | ref name => rfl
  | typ => rfl
  | all erased self param domain codomain domainLaw codomainLaw =>
    simp only [mapVars, unbounded, Unbounded.subst, ofNat_add_one, ofNat_add_two, domainLaw _ agrees.1, codomainLaw _ agrees.2]
    rfl
  | lam erased param body bodyLaw =>
    simp only [mapVars, unbounded, Unbounded.subst, ofNat_add_one, bodyLaw _ agrees]
    rfl
  | app erased fn arg fnLaw argLaw =>
    simp only [mapVars, unbounded, Unbounded.subst, fnLaw _ agrees.1, argLaw _ agrees.2]
  | ann checked type term typeLaw termLaw =>
    simp only [mapVars, unbounded, Unbounded.subst, typeLaw _ agrees.1, termLaw _ agrees.2]

theorem toNat_add_of_fits {a b : UInt64} (fits : a.toNat + b.toNat < UInt64.size) :
    (a + b).toNat = a.toNat + b.toNat := by
  rw [UInt64.toNat_add]
  exact Nat.mod_eq_of_lt fits

theorem toNat_ofNat_of_fits {n : Nat} (fits : n < UInt64.size) : (UInt64.ofNat n).toNat = n :=
  UInt64.toNat_ofNat_of_lt' fits

theorem toNat_cutoff {cutoff : UInt64} {depth : Nat} (fits : cutoff.toNat + depth < UInt64.size) :
    (cutoff + UInt64.ofNat depth).toNat = cutoff.toNat + depth := by
  have depthValue : (UInt64.ofNat depth).toNat = depth := toNat_ofNat_of_fits (by omega)
  rw [toNat_add_of_fits (by omega), depthValue]

theorem unbounded_shift {t : Term} {inc cutoff : UInt64} (fits : t.ShiftFits inc cutoff) :
    (t.shift inc cutoff).unbounded = t.unbounded.rename (Unbounded.shiftIndex inc.toNat cutoff.toNat) := by
  by_cases none : inc = 0
  · have still : Unbounded.shiftIndex inc.toNat cutoff.toNat = fun index => index := by
      funext index
      rw [none, Unbounded.shiftIndex]
      split <;> rfl
    rw [still, Unbounded.rename_id, shift, if_pos none]
  · rw [shift, if_neg none, Unbounded.rename_eq_subst]
    apply unbounded_mapVars _ (fun index => .var (Unbounded.shiftIndex inc.toNat cutoff.toNat index)) t 0
    apply (fits.resolve_left none).imp
    rintro depth index ⟨cutoffFits, indexFits⟩
    have cutoffValue := toNat_cutoff cutoffFits
    rw [Unbounded.liftBy_apply]
    by_cases moved : cutoff + UInt64.ofNat depth ≤ index
    · have beyond : cutoff.toNat + depth ≤ index.toNat := by rwa [UInt64.le_iff_toNat_le, cutoffValue] at moved
      have notBound : ¬index.toNat < depth := by omega
      have atCutoff : cutoff.toNat ≤ index.toNat - depth := by omega
      have sum : index.toNat + inc.toNat = index.toNat - depth + inc.toNat + depth := by omega
      rw [if_pos moved, if_neg notBound, Unbounded.shiftIndex, if_pos atCutoff, unbounded,
        toNat_add_of_fits (indexFits beyond), sum]
      rfl
    · have before : index.toNat < cutoff.toNat + depth := by rw [UInt64.le_iff_toNat_le, cutoffValue] at moved; omega
      rw [if_neg moved, unbounded]
      split
      next => rfl
      next notBound =>
        have belowCutoff : ¬cutoff.toNat ≤ index.toNat - depth := by omega
        have index_eq : index.toNat = index.toNat - depth + depth := by omega
        rw [Unbounded.shiftIndex, if_neg belowCutoff, Unbounded.rename, ← index_eq]

theorem unbounded_shift_zero {t : Term} {depth : Nat} (depthFits : depth < UInt64.size)
    (fits : t.ShiftFits (UInt64.ofNat depth) 0) :
    (t.shift (UInt64.ofNat depth) 0).unbounded = t.unbounded.rename (· + depth) := by
  rw [unbounded_shift fits, toNat_ofNat_of_fits depthFits]
  rfl

theorem unbounded_subst {t value : Term} {cutoff : UInt64} (fits : t.SubstFits value cutoff) :
    (t.subst value cutoff).unbounded = t.unbounded.subst (Unbounded.point value.unbounded cutoff.toNat) := by
  rw [subst]
  apply unbounded_mapVars _ (Unbounded.point value.unbounded cutoff.toNat) t 0
  apply EachVar.imp _ fits
  rintro depth index ⟨cutoffFits, valueFits⟩
  have cutoffValue := toNat_cutoff cutoffFits
  have depthFits : depth < UInt64.size := by omega
  rw [Unbounded.liftBy_apply]
  by_cases here : index = cutoff + UInt64.ofNat depth
  · have atCutoff : index.toNat = cutoff.toNat + depth := by rw [here, cutoffValue]
    have notBound : ¬index.toNat < depth := by omega
    have position : index.toNat - depth = cutoff.toNat := by omega
    rw [if_pos here, if_neg notBound, Unbounded.point, if_pos position,
      unbounded_shift_zero depthFits (valueFits atCutoff)]
  · have elsewhere : index.toNat ≠ cutoff.toNat + depth := by rwa [← cutoffValue, Ne, UInt64.toNat_inj]
    rw [if_neg here]
    by_cases larger : cutoff + UInt64.ofNat depth < index
    · have beyond : cutoff.toNat + depth < index.toNat := by rwa [UInt64.lt_iff_toNat_lt, cutoffValue] at larger
      have notBound : ¬index.toNat < depth := by omega
      have notHere : index.toNat - depth ≠ cutoff.toNat := by omega
      have after : cutoff.toNat < index.toNat - depth := by omega
      have one : (1 : UInt64) ≤ index := by rw [UInt64.le_iff_toNat_le]; exact Nat.lt_of_le_of_lt (Nat.zero_le _) beyond
      rw [if_pos larger, if_neg notBound, Unbounded.point, if_neg notHere, if_pos after, unbounded,
        UInt64.toNat_sub_of_le _ _ one, Unbounded.rename]
      congr 1
      change index.toNat - 1 = index.toNat - depth - 1 + depth
      omega
    · have notBeyond : ¬cutoff.toNat + depth < index.toNat := by rwa [UInt64.lt_iff_toNat_lt, cutoffValue] at larger
      rw [if_neg larger, unbounded]
      split
      next => rfl
      next notBound =>
        have notHere : index.toNat - depth ≠ cutoff.toNat := by omega
        have before : ¬cutoff.toNat < index.toNat - depth := by omega
        have index_eq : index.toNat = index.toNat - depth + depth := by omega
        rw [Unbounded.point, if_neg notHere, if_neg before, Unbounded.rename, ← index_eq]

theorem unbounded_subst_zero {t value : Term} (fits : t.SubstFits value 0) :
    (t.subst value 0).unbounded = t.unbounded.subst (Unbounded.cons value.unbounded .var) := by
  rw [unbounded_subst fits, ← Unbounded.point_zero]
  rfl

def FreeBelow (bound : Nat) (t : Term) : Prop := t.EachVar (fun depth index => index.toNat < bound + depth) 0

def Closed (t : Term) : Prop := t.FreeBelow 0

theorem rename_of_bound {t : Term} {depth : Nat} {ρ : Nat → Nat}
    (bound : t.EachVar (fun depth index => index.toNat < 0 + depth) depth) (still : ∀ index < depth, ρ index = index) :
    t.unbounded.rename ρ = t.unbounded := by
  have lifted {depth : Nat} {ρ : Nat → Nat} (still : ∀ index < depth, ρ index = index) :
      ∀ index < depth + 1, Unbounded.liftIndex ρ index = index := by
    intro index below
    cases index with
    | zero => rfl
    | succ index => rw [Unbounded.liftIndex, still index (by omega)]
  induction t generalizing depth ρ with
  | var index =>
    have below : index.toNat < 0 + depth := bound
    rw [unbounded, Unbounded.rename, still index.toNat (by omega)]
  | ref name => rfl
  | typ => rfl
  | all erased self param domain codomain domainLaw codomainLaw =>
    rw [unbounded, Unbounded.rename, domainLaw bound.1 (lifted still), codomainLaw bound.2 (lifted (lifted still))]
  | lam erased param body bodyLaw =>
    rw [unbounded, Unbounded.rename, bodyLaw bound (lifted still)]
  | app erased fn arg fnLaw argLaw =>
    rw [unbounded, Unbounded.rename, fnLaw bound.1 still, argLaw bound.2 still]
  | ann checked type term typeLaw termLaw =>
    rw [unbounded, Unbounded.rename, typeLaw bound.1 still, termLaw bound.2 still]

/-- A closed term means the same under any binders. -/
theorem Closed.rename {t : Term} (closed : t.Closed) (ρ : Nat → Nat) : t.unbounded.rename ρ = t.unbounded :=
  rename_of_bound closed (fun _ below => absurd below (Nat.not_lt_zero _))

end Term

end SelfLambda
