import SelfLambda.Proofs.Index.Words
import SelfLambda.Term.Printer

/-! Free variables. Substitution and erasure bring in no variable that was not there: whatever the depths are, and even
where a sum wraps, no index gets larger than the binders it comes under allow. A term whose free variables lie in a scope
prints by their names. -/

namespace SelfLambda

namespace Term

variable {bound bound' : Nat} {t value : Term}

/-- Binders passed on the way to a variable count like more room for it. -/
theorem eachVar_lt_iff (bound depth : Nat) (t : Term) :
    t.EachVar (fun depth index => index.toNat < bound + depth) depth ↔ t.FreeBelow (bound + depth) := by
  induction t generalizing bound depth with
  | var index => exact Iff.rfl
  | ref name => exact Iff.rfl
  | typ => exact Iff.rfl
  | all erased self param domain codomain domainLaw codomainLaw =>
    have ofDomain := (domainLaw bound (depth + 1)).trans (domainLaw (bound + depth) 1).symm
    have ofCodomain := (codomainLaw bound (depth + 2)).trans (codomainLaw (bound + depth) 2).symm
    exact and_congr ofDomain ofCodomain
  | lam erased param body bodyLaw => exact (bodyLaw bound (depth + 1)).trans (bodyLaw (bound + depth) 1).symm
  | app erased fn arg fnLaw argLaw => exact and_congr (fnLaw bound depth) (argLaw bound depth)
  | ann checked type term typeLaw termLaw => exact and_congr (typeLaw bound depth) (termLaw bound depth)

@[simp] theorem freeBelow_var {index : UInt64} : (var index).FreeBelow bound ↔ index.toNat < bound := Iff.rfl

@[simp] theorem freeBelow_ref {name : Name} : (ref name).FreeBelow bound ↔ True := Iff.rfl

@[simp] theorem freeBelow_typ : typ.FreeBelow bound ↔ True := Iff.rfl

@[simp] theorem freeBelow_all {erased : Bool} {self param : Name} {domain codomain : Term} :
    (all erased self param domain codomain).FreeBelow bound ↔
      domain.FreeBelow (bound + 1) ∧ codomain.FreeBelow (bound + 2) :=
  and_congr (eachVar_lt_iff bound 1 domain) (eachVar_lt_iff bound 2 codomain)

@[simp] theorem freeBelow_lam {erased : Bool} {param : Name} {body : Term} :
    (lam erased param body).FreeBelow bound ↔ body.FreeBelow (bound + 1) :=
  eachVar_lt_iff bound 1 body

@[simp] theorem freeBelow_app {erased : Bool} {fn arg : Term} :
    (app erased fn arg).FreeBelow bound ↔ fn.FreeBelow bound ∧ arg.FreeBelow bound :=
  Iff.rfl

@[simp] theorem freeBelow_ann {checked : Bool} {type term : Term} :
    (ann checked type term).FreeBelow bound ↔ type.FreeBelow bound ∧ term.FreeBelow bound :=
  Iff.rfl

theorem freeBelow_placeholder (bound : Nat) : placeholder.FreeBelow bound := trivial

theorem FreeBelow.mono (below : t.FreeBelow bound) (more : bound ≤ bound') : t.FreeBelow bound' := by
  apply EachVar.imp _ below
  intro depth index inside
  omega

theorem FreeBelow.mapVars {f : UInt64 → UInt64 → Term} (depth : Nat) (below : t.FreeBelow (bound + depth))
    (leaf : ∀ depth index, index.toNat < bound + depth → (f (UInt64.ofNat depth) index).FreeBelow (bound' + depth)) :
    (t.mapVars f (UInt64.ofNat depth)).FreeBelow (bound' + depth) := by
  induction t generalizing depth with
  | var index => exact leaf depth index below
  | ref name => trivial
  | typ => trivial
  | all erased self param domain codomain domainLaw codomainLaw =>
    rw [freeBelow_all] at below
    rw [Term.mapVars, ofNat_add_one, ofNat_add_two, freeBelow_all]
    exact ⟨domainLaw (depth + 1) below.1, codomainLaw (depth + 2) below.2⟩
  | lam erased param body bodyLaw =>
    rw [freeBelow_lam] at below
    rw [Term.mapVars, ofNat_add_one, freeBelow_lam]
    exact bodyLaw (depth + 1) below
  | app erased fn arg fnLaw argLaw => exact ⟨fnLaw depth below.1, argLaw depth below.2⟩
  | ann checked type term typeLaw termLaw => exact ⟨typeLaw depth below.1, termLaw depth below.2⟩

theorem toNat_ofNat_le (n : Nat) : (UInt64.ofNat n).toNat ≤ n := Nat.mod_le _ _

theorem FreeBelow.shift (below : value.FreeBelow bound) (depth : Nat) :
    (value.shift (UInt64.ofNat depth) 0).FreeBelow (bound + depth) := by
  unfold Term.shift
  split
  · exact below.mono (Nat.le_add_right bound depth)
  · apply FreeBelow.mapVars 0 below
    intro inner index inside
    have moved : (index + UInt64.ofNat depth).toNat ≤ index.toNat + depth := by
      rw [UInt64.toNat_add]
      exact Nat.le_trans (Nat.mod_le _ _) (Nat.add_le_add_left (toNat_ofNat_le depth) _)
    change Term.FreeBelow (bound + depth + inner) _
    split
    · rw [freeBelow_var]
      omega
    · rw [freeBelow_var]
      omega

theorem FreeBelow.subst (below : t.FreeBelow (bound + 1)) (ofValue : value.FreeBelow bound) :
    (t.subst value 0).FreeBelow bound := by
  apply FreeBelow.mapVars 0 below
  intro depth index inside
  -- the depth as a word is at most the depth, which is all that the three cases need, wrapped or not
  have atMost := toNat_ofNat_le depth
  simp only [UInt64.zero_add]
  split
  · exact ofValue.shift depth
  · split
    next other larger =>
      rw [UInt64.lt_iff_toNat_lt] at larger
      have positive : (1 : UInt64) ≤ index := by
        rw [UInt64.le_iff_toNat_le]
        exact Nat.lt_of_le_of_lt (Nat.zero_le _) larger
      rw [freeBelow_var, UInt64.toNat_sub_of_le _ _ positive]
      change index.toNat - 1 < bound + depth
      omega
    next other notLarger =>
      have smaller : index.toNat < (UInt64.ofNat depth).toNat := by
        rw [UInt64.lt_iff_toNat_lt] at notLarger
        have different : index.toNat ≠ (UInt64.ofNat depth).toNat := mt UInt64.toNat_inj.mp other
        omega
      rw [freeBelow_var]
      omega

theorem FreeBelow.erase (below : t.FreeBelow bound) : t.erase.FreeBelow bound := by
  fun_induction Term.erase t generalizing bound with
  | case1 index => exact below
  | case2 name => trivial
  | case3 => trivial
  | case4 erased self param domain codomain domainLaw codomainLaw =>
    rw [freeBelow_all] at below ⊢
    exact ⟨domainLaw below.1, codomainLaw below.2⟩
  | case5 param body bodyLaw =>
    rw [freeBelow_lam] at below
    exact bodyLaw (below.subst (freeBelow_placeholder bound))
  | case6 param body bodyLaw =>
    rw [freeBelow_lam] at below ⊢
    exact bodyLaw below
  | case7 fn arg fnLaw => exact fnLaw below.1
  | case8 fn arg fnLaw argLaw => exact ⟨fnLaw below.1, argLaw below.2⟩
  | case9 checked type term termLaw => exact termLaw below.2

open Text

/-- Printed form of a term, with `beyond` for each variable that points beyond the scope. -/
def printWith (beyond : Scope → UInt64 → Text) : Scope → Term → Text
  | scope, var index => (scope.name? index).getD (beyond scope index)
  | _, ref name => name
  | _, typ => ascii "Type"
  | scope, all erased self param domain codomain =>
    self ++ ascii "(" ++ param ++ ascii " : " ++ domain.printWith beyond (self :: scope) ++ erasureMark erased ++
      ascii ") -> " ++ codomain.printWith beyond (param :: self :: scope)
  | scope, lam erased param body =>
    ascii "(" ++ param ++ erasureMark erased ++ ascii ") => " ++ body.printWith beyond (param :: scope)
  | scope, app erased fn arg =>
    grouped fn.groupedAsFunction (fn.printWith beyond scope) ++ ascii "(" ++ arg.printWith beyond scope ++
      erasureMark erased ++ ascii ")"
  | scope, ann _ type term =>
    grouped term.groupedAsAnnotated (term.printWith beyond scope) ++ ascii " :: " ++ type.printWith beyond scope

theorem printWith_distance (scope : Scope) (t : Term) :
    t.printWith (fun scope index => ascii "?b" ++ decimal (index.toNat - scope.length)) scope = t.print scope := by
  induction t generalizing scope with
  | var index =>
    rw [printWith, print, printVar]
    cases scope.name? index <;> rfl
  | ref name => rfl
  | typ => rfl
  | all erased self param domain codomain domainLaw codomainLaw => rw [printWith, print, domainLaw, codomainLaw]
  | lam erased param body bodyLaw => rw [printWith, print, bodyLaw]
  | app erased fn arg fnLaw argLaw => rw [printWith, print, fnLaw, argLaw]
  | ann checked type term typeLaw termLaw => rw [printWith, print, typeLaw, termLaw]

theorem FreeBelow.printWith_eq (scope : Scope) (below : t.FreeBelow scope.length)
    (beyond beyond' : Scope → UInt64 → Text) : t.printWith beyond scope = t.printWith beyond' scope := by
  induction t generalizing scope with
  | var index =>
    have found : scope.name? index = some scope[index.toNat] := List.getElem?_eq_getElem below
    rw [printWith, printWith, found]
    rfl
  | ref name => rfl
  | typ => rfl
  | all erased self param domain codomain domainLaw codomainLaw =>
    rw [freeBelow_all] at below
    rw [printWith, printWith, domainLaw (self :: scope) below.1, codomainLaw (param :: self :: scope) below.2]
  | lam erased param body bodyLaw =>
    rw [freeBelow_lam] at below
    rw [printWith, printWith, bodyLaw (param :: scope) below]
  | app erased fn arg fnLaw argLaw => rw [printWith, printWith, fnLaw scope below.1, argLaw scope below.2]
  | ann checked type term typeLaw termLaw => rw [printWith, printWith, typeLaw scope below.1, termLaw scope below.2]

theorem Closed.printWith_eq (closed : t.Closed) (beyond : Scope → UInt64 → Text) : t.printWith beyond [] = t.print [] := by
  rw [← printWith_distance]
  exact FreeBelow.printWith_eq [] closed _ _

end Term

end SelfLambda
