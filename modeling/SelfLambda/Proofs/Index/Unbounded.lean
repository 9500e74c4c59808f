import SelfLambda.Term.Basic

/-! Terms over natural indices. Sums of indices and depths cannot wrap here, so the laws of renaming and substitution
hold without side conditions. A term over words is read into this form by `Term.unbounded`, which loses nothing. -/

namespace SelfLambda

inductive Unbounded where
  | var (index : Nat)
  | ref (name : Name)
  | typ
  | all (erased : Bool) (self param : Name) (domain codomain : Unbounded)
  | lam (erased : Bool) (param : Name) (body : Unbounded)
  | app (erased : Bool) (fn arg : Unbounded)
  | ann (checked : Bool) (type term : Unbounded)
  deriving DecidableEq, Repr

namespace Unbounded

def size : Unbounded → Nat
  | var _ => 1
  | ref _ => 1
  | typ => 1
  | all _ _ _ domain codomain => 1 + domain.size + codomain.size
  | lam _ _ body => 1 + body.size
  | app _ fn arg => 1 + fn.size + arg.size
  | ann _ type term => 1 + type.size + term.size

theorem size_pos (t : Unbounded) : 0 < t.size := by
  cases t <;> simp only [size] <;> omega

def liftIndex (ρ : Nat → Nat) : Nat → Nat
  | 0 => 0
  | index + 1 => ρ index + 1

def rename (ρ : Nat → Nat) : Unbounded → Unbounded
  | var index => var (ρ index)
  | ref name => ref name
  | typ => typ
  | all erased self param domain codomain =>
    all erased self param (domain.rename (liftIndex ρ)) (codomain.rename (liftIndex (liftIndex ρ)))
  | lam erased param body => lam erased param (body.rename (liftIndex ρ))
  | app erased fn arg => app erased (fn.rename ρ) (arg.rename ρ)
  | ann checked type term => ann checked (type.rename ρ) (term.rename ρ)

def lift (σ : Nat → Unbounded) : Nat → Unbounded
  | 0 => var 0
  | index + 1 => (σ index).rename Nat.succ

def subst (σ : Nat → Unbounded) : Unbounded → Unbounded
  | var index => σ index
  | ref name => ref name
  | typ => typ
  | all erased self param domain codomain =>
    all erased self param (domain.subst (lift σ)) (codomain.subst (lift (lift σ)))
  | lam erased param body => lam erased param (body.subst (lift σ))
  | app erased fn arg => app erased (fn.subst σ) (arg.subst σ)
  | ann checked type term => ann checked (type.subst σ) (term.subst σ)

def cons (value : Unbounded) (σ : Nat → Unbounded) : Nat → Unbounded
  | 0 => value
  | index + 1 => σ index

theorem liftIndex_comp (ρ τ : Nat → Nat) : liftIndex τ ∘ liftIndex ρ = liftIndex (τ ∘ ρ) := by
  funext index
  cases index <;> rfl

theorem rename_rename (t : Unbounded) (ρ τ : Nat → Nat) : (t.rename ρ).rename τ = t.rename (τ ∘ ρ) := by
  induction t generalizing ρ τ with
  | var index => rfl
  | ref name => rfl
  | typ => rfl
  | all erased self param domain codomain domainLaw codomainLaw =>
    simp only [rename, domainLaw, codomainLaw, liftIndex_comp]
  | lam erased param body bodyLaw => simp only [rename, bodyLaw, liftIndex_comp]
  | app erased fn arg fnLaw argLaw => simp only [rename, fnLaw, argLaw]
  | ann checked type term typeLaw termLaw => simp only [rename, typeLaw, termLaw]

theorem lift_comp_liftIndex (σ : Nat → Unbounded) (ρ : Nat → Nat) : lift σ ∘ liftIndex ρ = lift (σ ∘ ρ) := by
  funext index
  cases index <;> rfl

theorem subst_rename (t : Unbounded) (ρ : Nat → Nat) (σ : Nat → Unbounded) :
    (t.rename ρ).subst σ = t.subst (σ ∘ ρ) := by
  induction t generalizing ρ σ with
  | var index => rfl
  | ref name => rfl
  | typ => rfl
  | all erased self param domain codomain domainLaw codomainLaw =>
    simp only [rename, subst, domainLaw, codomainLaw, lift_comp_liftIndex]
  | lam erased param body bodyLaw => simp only [rename, subst, bodyLaw, lift_comp_liftIndex]
  | app erased fn arg fnLaw argLaw => simp only [rename, subst, fnLaw, argLaw]
  | ann checked type term typeLaw termLaw => simp only [rename, subst, typeLaw, termLaw]

theorem rename_lift (σ : Nat → Unbounded) (ρ : Nat → Nat) :
    (fun index => (lift σ index).rename (liftIndex ρ)) = lift (fun index => (σ index).rename ρ) := by
  funext index
  cases index with
  | zero => rfl
  | succ index =>
    simp only [lift, rename_rename]
    rfl

theorem rename_subst (t : Unbounded) (σ : Nat → Unbounded) (ρ : Nat → Nat) :
    (t.subst σ).rename ρ = t.subst (fun index => (σ index).rename ρ) := by
  induction t generalizing σ ρ with
  | var index => rfl
  | ref name => rfl
  | typ => rfl
  | all erased self param domain codomain domainLaw codomainLaw =>
    simp only [subst, rename, domainLaw, codomainLaw, rename_lift]
  | lam erased param body bodyLaw => simp only [subst, rename, bodyLaw, rename_lift]
  | app erased fn arg fnLaw argLaw => simp only [subst, rename, fnLaw, argLaw]
  | ann checked type term typeLaw termLaw => simp only [subst, rename, typeLaw, termLaw]

theorem subst_lift (σ τ : Nat → Unbounded) :
    (fun index => (lift σ index).subst (lift τ)) = lift (fun index => (σ index).subst τ) := by
  funext index
  cases index with
  | zero => rfl
  | succ index =>
    simp only [lift, subst_rename, rename_subst]
    rfl

theorem subst_subst (t : Unbounded) (σ τ : Nat → Unbounded) :
    (t.subst σ).subst τ = t.subst (fun index => (σ index).subst τ) := by
  induction t generalizing σ τ with
  | var index => rfl
  | ref name => rfl
  | typ => rfl
  | all erased self param domain codomain domainLaw codomainLaw =>
    simp only [subst, domainLaw, codomainLaw, subst_lift]
  | lam erased param body bodyLaw => simp only [subst, bodyLaw, subst_lift]
  | app erased fn arg fnLaw argLaw => simp only [subst, fnLaw, argLaw]
  | ann checked type term typeLaw termLaw => simp only [subst, typeLaw, termLaw]

theorem lift_var : lift var = var := by
  funext index
  cases index <;> rfl

theorem subst_var (t : Unbounded) : t.subst var = t := by
  induction t with
  | var index => rfl
  | ref name => rfl
  | typ => rfl
  | all erased self param domain codomain domainLaw codomainLaw =>
    simp only [subst, lift_var, domainLaw, codomainLaw]
  | lam erased param body bodyLaw => simp only [subst, lift_var, bodyLaw]
  | app erased fn arg fnLaw argLaw => simp only [subst, fnLaw, argLaw]
  | ann checked type term typeLaw termLaw => simp only [subst, typeLaw, termLaw]

theorem rename_eq_subst (t : Unbounded) (ρ : Nat → Nat) : t.rename ρ = t.subst (fun index => var (ρ index)) := by
  calc
    t.rename ρ = (t.subst var).rename ρ := by rw [subst_var]
    _ = t.subst (fun index => var (ρ index)) := rename_subst t var ρ

theorem rename_id (t : Unbounded) : t.rename (fun index => index) = t := by
  rw [rename_eq_subst, subst_var]

/-- What is put under a binder by `lift` does not see the value put for that binder. -/
theorem subst_lift_cons (σ : Nat → Unbounded) (value : Unbounded) :
    (fun index => (lift σ index).subst (cons value var)) = cons value σ := by
  funext index
  cases index with
  | zero => rfl
  | succ index =>
    simp only [lift, subst_rename]
    exact subst_var (σ index)

theorem subst_lift_subst_cons (t : Unbounded) (σ : Nat → Unbounded) (value : Unbounded) :
    (t.subst (lift σ)).subst (cons value var) = t.subst (cons value σ) := by
  rw [subst_subst, subst_lift_cons]

def liftBy : Nat → (Nat → Unbounded) → Nat → Unbounded
  | 0, σ => σ
  | depth + 1, σ => lift (liftBy depth σ)

theorem liftBy_apply (depth : Nat) (σ : Nat → Unbounded) (index : Nat) :
    liftBy depth σ index = if index < depth then var index else (σ (index - depth)).rename (· + depth) := by
  induction depth generalizing index with
  | zero =>
    simp only [liftBy, Nat.not_lt_zero, if_false, Nat.sub_zero, Nat.add_zero, rename_id]
  | succ depth ih =>
    cases index with
    | zero => simp only [liftBy, lift, Nat.zero_lt_succ, if_true]
    | succ index =>
      simp only [liftBy, lift, ih, Nat.add_lt_add_iff_right, Nat.add_sub_add_right]
      split
      next => rfl
      next =>
        rw [rename_rename]
        rfl

def shiftIndex (inc cutoff index : Nat) : Nat := if cutoff ≤ index then index + inc else index

/-- Puts `value` for the variable at `cutoff` and moves those beyond it down by one. -/
def point (value : Unbounded) (cutoff index : Nat) : Unbounded :=
  if index = cutoff then value else if cutoff < index then var (index - 1) else var index

theorem point_zero (value : Unbounded) : point value 0 = cons value var := by
  funext index
  cases index <;> rfl

end Unbounded

def Term.unbounded : Term → Unbounded
  | var index => .var index.toNat
  | ref name => .ref name
  | typ => .typ
  | all erased self param domain codomain => .all erased self param domain.unbounded codomain.unbounded
  | lam erased param body => .lam erased param body.unbounded
  | app erased fn arg => .app erased fn.unbounded arg.unbounded
  | ann checked type term => .ann checked type.unbounded term.unbounded

theorem Term.unbounded_injective {t u : Term} (same : t.unbounded = u.unbounded) : t = u := by
  induction t generalizing u with
  | var index =>
    cases u <;> simp only [unbounded, Unbounded.var.injEq, reduceCtorEq] at same
    rw [UInt64.toNat_inj.mp same]
  | ref name =>
    cases u <;> simp only [unbounded, Unbounded.ref.injEq, reduceCtorEq] at same
    rw [same]
  | typ => cases u <;> simp only [unbounded, reduceCtorEq] at same ⊢
  | all erased self param domain codomain domainLaw codomainLaw =>
    cases u <;> simp only [unbounded, Unbounded.all.injEq, reduceCtorEq] at same
    obtain ⟨rfl, rfl, rfl, sameDomain, sameCodomain⟩ := same
    rw [domainLaw sameDomain, codomainLaw sameCodomain]
  | lam erased param body bodyLaw =>
    cases u <;> simp only [unbounded, Unbounded.lam.injEq, reduceCtorEq] at same
    obtain ⟨rfl, rfl, sameBody⟩ := same
    rw [bodyLaw sameBody]
  | app erased fn arg fnLaw argLaw =>
    cases u <;> simp only [unbounded, Unbounded.app.injEq, reduceCtorEq] at same
    obtain ⟨rfl, sameFn, sameArg⟩ := same
    rw [fnLaw sameFn, argLaw sameArg]
  | ann checked type term typeLaw termLaw =>
    cases u <;> simp only [unbounded, Unbounded.ann.injEq, reduceCtorEq] at same
    obtain ⟨rfl, sameType, sameTerm⟩ := same
    rw [typeLaw sameType, termLaw sameTerm]

end SelfLambda
