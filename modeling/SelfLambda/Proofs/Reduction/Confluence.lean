import Mathlib.Logic.Relation
import SelfLambda.Proofs.Index.Words

/-! Reduction over numbers, one step at a time and at any position, and its confluence. A parallel step contracts any
set of the redexes of a term at once; contracting all of them, the development of the term, is where every parallel step
can still arrive, so parallel steps have the diamond property and reductions are confluent. No rule overlaps another: an
application is contracted only if it is erased or its function is kept, and an erased function never meets its argument. -/

namespace SelfLambda

open Relation

namespace Unbounded

def placeholder : Unbounded := ref (Text.ascii "<erased>")

/-- The term means the same under any binders. -/
def Closed (t : Unbounded) : Prop := ∀ ρ, t.rename ρ = t

theorem Closed.subst {t : Unbounded} (closed : t.Closed) (σ : Nat → Unbounded) : t.subst σ = t := by
  have constant (value : Unbounded) : t.subst (fun _ => value) = t := by
    calc
      t.subst (fun _ => value) = (t.rename (fun _ => 0)).subst (cons value var) :=
        (subst_rename t (fun _ => 0) (cons value var)).symm
      _ = (t.rename Nat.succ).subst (cons value var) := by rw [closed, closed]
      _ = t.subst var := subst_rename t _ _
      _ = t := subst_var t
  calc
    t.subst σ = (t.rename (fun _ => 0)).subst σ := by rw [closed]
    _ = t.subst (fun _ => σ 0) := subst_rename t _ _
    _ = t := constant (σ 0)

theorem rename_subst_cons (body value : Unbounded) (ρ : Nat → Nat) :
    (body.subst (cons value var)).rename ρ = (body.rename (liftIndex ρ)).subst (cons (value.rename ρ) var) := by
  rw [rename_subst, subst_rename]
  congr 1
  funext index
  cases index <;> rfl

theorem subst_subst_cons (body value : Unbounded) (σ : Nat → Unbounded) :
    (body.subst (cons value var)).subst σ = (body.subst (lift σ)).subst (cons (value.subst σ) var) := by
  rw [subst_lift_subst_cons, subst_subst]
  congr 1
  funext index
  cases index <;> rfl

def StoresClosed (stored : Name → Option Unbounded) : Prop := ∀ name t, stored name = some t → t.Closed

/-- One step of reduction, where `stored` gives what a name unfolds to. -/
inductive Step (stored : Name → Option Unbounded) : Unbounded → Unbounded → Prop
  | beta (param : Name) (body arg : Unbounded) :
      Step stored (.app false (.lam false param body) arg) (body.subst (cons arg var))
  | drop (fn arg : Unbounded) : Step stored (.app true fn arg) fn
  | instantiate (param : Name) (body : Unbounded) :
      Step stored (.lam true param body) (body.subst (cons placeholder var))
  | strip (checked : Bool) (type term : Unbounded) : Step stored (.ann checked type term) term
  | unfold {name : Name} {t : Unbounded} (found : stored name = some t) : Step stored (.ref name) t
  | domain {erased : Bool} {self param : Name} {domain domain' codomain : Unbounded} (step : Step stored domain domain') :
      Step stored (.all erased self param domain codomain) (.all erased self param domain' codomain)
  | codomain {erased : Bool} {self param : Name} {domain codomain codomain' : Unbounded}
      (step : Step stored codomain codomain') :
      Step stored (.all erased self param domain codomain) (.all erased self param domain codomain')
  | body {erased : Bool} {param : Name} {body body' : Unbounded} (step : Step stored body body') :
      Step stored (.lam erased param body) (.lam erased param body')
  | fn {erased : Bool} {fn fn' arg : Unbounded} (step : Step stored fn fn') :
      Step stored (.app erased fn arg) (.app erased fn' arg)
  | arg {erased : Bool} {fn arg arg' : Unbounded} (step : Step stored arg arg') :
      Step stored (.app erased fn arg) (.app erased fn arg')
  | type {checked : Bool} {type type' term : Unbounded} (step : Step stored type type') :
      Step stored (.ann checked type term) (.ann checked type' term)
  | term {checked : Bool} {type term term' : Unbounded} (step : Step stored term term') :
      Step stored (.ann checked type term) (.ann checked type term')

abbrev Reduces (stored : Name → Option Unbounded) : Unbounded → Unbounded → Prop := ReflTransGen (Step stored)

namespace Reduces

variable {stored : Name → Option Unbounded}

theorem all {erased : Bool} {self param : Name} {domain domain' codomain codomain' : Unbounded}
    (ofDomain : Reduces stored domain domain') (ofCodomain : Reduces stored codomain codomain') :
    Reduces stored (.all erased self param domain codomain) (.all erased self param domain' codomain') := by
  have first : Reduces stored (.all erased self param domain codomain) (.all erased self param domain' codomain) :=
    ReflTransGen.lift (Unbounded.all erased self param · codomain) (fun _ _ step => Step.domain step) _ _ ofDomain
  exact first.trans (ReflTransGen.lift _ (fun _ _ step => Step.codomain step) _ _ ofCodomain)

theorem lam {erased : Bool} {param : Name} {body body' : Unbounded} (ofBody : Reduces stored body body') :
    Reduces stored (.lam erased param body) (.lam erased param body') :=
  ReflTransGen.lift _ (fun _ _ step => Step.body step) _ _ ofBody

theorem app {erased : Bool} {fn fn' arg arg' : Unbounded} (ofFn : Reduces stored fn fn')
    (ofArg : Reduces stored arg arg') : Reduces stored (.app erased fn arg) (.app erased fn' arg') := by
  have first : Reduces stored (.app erased fn arg) (.app erased fn' arg) :=
    ReflTransGen.lift (Unbounded.app erased · arg) (fun _ _ step => Step.fn step) _ _ ofFn
  exact first.trans (ReflTransGen.lift _ (fun _ _ step => Step.arg step) _ _ ofArg)

theorem ann {checked : Bool} {type type' term term' : Unbounded} (ofType : Reduces stored type type')
    (ofTerm : Reduces stored term term') : Reduces stored (.ann checked type term) (.ann checked type' term') := by
  have first : Reduces stored (.ann checked type term) (.ann checked type' term) :=
    ReflTransGen.lift (Unbounded.ann checked · term) (fun _ _ step => Step.type step) _ _ ofType
  exact first.trans (ReflTransGen.lift _ (fun _ _ step => Step.term step) _ _ ofTerm)

end Reduces

/-- Any set of redexes contracted at once. -/
inductive Parallel (stored : Name → Option Unbounded) : Unbounded → Unbounded → Prop
  | var (index : Nat) : Parallel stored (.var index) (.var index)
  | ref (name : Name) : Parallel stored (.ref name) (.ref name)
  | typ : Parallel stored .typ .typ
  | all {erased : Bool} {self param : Name} {domain domain' codomain codomain' : Unbounded}
      (ofDomain : Parallel stored domain domain') (ofCodomain : Parallel stored codomain codomain') :
      Parallel stored (.all erased self param domain codomain) (.all erased self param domain' codomain')
  | lam {erased : Bool} {param : Name} {body body' : Unbounded} (ofBody : Parallel stored body body') :
      Parallel stored (.lam erased param body) (.lam erased param body')
  | app {erased : Bool} {fn fn' arg arg' : Unbounded} (ofFn : Parallel stored fn fn')
      (ofArg : Parallel stored arg arg') : Parallel stored (.app erased fn arg) (.app erased fn' arg')
  | ann {checked : Bool} {type type' term term' : Unbounded} (ofType : Parallel stored type type')
      (ofTerm : Parallel stored term term') : Parallel stored (.ann checked type term) (.ann checked type' term')
  | beta {param : Name} {body body' arg arg' : Unbounded} (ofBody : Parallel stored body body')
      (ofArg : Parallel stored arg arg') :
      Parallel stored (.app false (.lam false param body) arg) (body'.subst (cons arg' .var))
  | drop {fn fn' : Unbounded} (arg : Unbounded) (ofFn : Parallel stored fn fn') : Parallel stored (.app true fn arg) fn'
  | instantiate {param : Name} {body body' : Unbounded} (ofBody : Parallel stored body body') :
      Parallel stored (.lam true param body) (body'.subst (cons placeholder .var))
  | strip {checked : Bool} {term term' : Unbounded} (type : Unbounded) (ofTerm : Parallel stored term term') :
      Parallel stored (.ann checked type term) term'
  | unfold {name : Name} {t : Unbounded} (found : stored name = some t) : Parallel stored (.ref name) t

namespace Parallel

variable {stored : Name → Option Unbounded} {t u : Unbounded}

theorem refl (t : Unbounded) : Parallel stored t t := by
  induction t with
  | var index => exact .var index
  | ref name => exact .ref name
  | typ => exact .typ
  | all erased self param domain codomain ofDomain ofCodomain => exact .all ofDomain ofCodomain
  | lam erased param body ofBody => exact .lam ofBody
  | app erased fn arg ofFn ofArg => exact .app ofFn ofArg
  | ann checked type term ofType ofTerm => exact .ann ofType ofTerm

theorem of_step (step : Step stored t u) : Parallel stored t u := by
  induction step with
  | beta param body arg => exact .beta (.refl body) (.refl arg)
  | drop fn arg => exact .drop arg (.refl fn)
  | instantiate param body => exact .instantiate (.refl body)
  | strip checked type term => exact .strip type (.refl term)
  | unfold found => exact .unfold found
  | domain _ ih => exact .all ih (.refl _)
  | codomain _ ih => exact .all (.refl _) ih
  | body _ ih => exact .lam ih
  | fn _ ih => exact .app ih (.refl _)
  | arg _ ih => exact .app (.refl _) ih
  | type _ ih => exact .ann ih (.refl _)
  | term _ ih => exact .ann (.refl _) ih

theorem reduces (parallel : Parallel stored t u) : Reduces stored t u := by
  induction parallel with
  | var index => exact .refl
  | ref name => exact .refl
  | typ => exact .refl
  | all _ _ ofDomain ofCodomain => exact .all ofDomain ofCodomain
  | lam _ ofBody => exact .lam ofBody
  | app _ _ ofFn ofArg => exact .app ofFn ofArg
  | ann _ _ ofType ofTerm => exact .ann ofType ofTerm
  | beta _ _ ofBody ofArg => exact (Reduces.app (.lam ofBody) ofArg).tail (.beta _ _ _)
  | drop arg _ ofFn => exact ofFn.head (.drop _ arg)
  | instantiate _ ofBody => exact (Reduces.lam ofBody).tail (.instantiate _ _)
  | strip type _ ofTerm => exact ofTerm.head (.strip _ type _)
  | unfold found => exact .single (.unfold found)

theorem rename (closed : StoresClosed stored) (parallel : Parallel stored t u) (ρ : Nat → Nat) :
    Parallel stored (t.rename ρ) (u.rename ρ) := by
  induction parallel generalizing ρ with
  | var index => exact .var _
  | ref name => exact .ref name
  | typ => exact .typ
  | all _ _ ofDomain ofCodomain => exact .all (ofDomain _) (ofCodomain _)
  | lam _ ofBody => exact .lam (ofBody _)
  | app _ _ ofFn ofArg => exact .app (ofFn _) (ofArg _)
  | ann _ _ ofType ofTerm => exact .ann (ofType _) (ofTerm _)
  | beta _ _ ofBody ofArg =>
    rw [rename_subst_cons]
    exact .beta (ofBody _) (ofArg _)
  | drop arg _ ofFn => exact .drop _ (ofFn _)
  | instantiate _ ofBody =>
    rw [rename_subst_cons]
    exact .instantiate (ofBody _)
  | strip type _ ofTerm => exact .strip _ (ofTerm _)
  | unfold found =>
    rw [closed _ _ found]
    exact .unfold found

theorem lift (closed : StoresClosed stored) {σ τ : Nat → Unbounded}
    (pointwise : ∀ index, Parallel stored (σ index) (τ index)) (index : Nat) :
    Parallel stored (lift σ index) (lift τ index) := by
  cases index with
  | zero => exact .var 0
  | succ index => exact (pointwise index).rename closed Nat.succ

theorem subst (closed : StoresClosed stored) (parallel : Parallel stored t u)
    {σ τ : Nat → Unbounded} (pointwise : ∀ index, Parallel stored (σ index) (τ index)) :
    Parallel stored (t.subst σ) (u.subst τ) := by
  induction parallel generalizing σ τ with
  | var index => exact pointwise index
  | ref name => exact .ref name
  | typ => exact .typ
  | all _ _ ofDomain ofCodomain =>
    exact .all (ofDomain (lift closed pointwise)) (ofCodomain (lift closed (lift closed pointwise)))
  | lam _ ofBody => exact .lam (ofBody (lift closed pointwise))
  | app _ _ ofFn ofArg => exact .app (ofFn pointwise) (ofArg pointwise)
  | ann _ _ ofType ofTerm => exact .ann (ofType pointwise) (ofTerm pointwise)
  | beta _ _ ofBody ofArg =>
    rw [subst_subst_cons]
    exact .beta (ofBody (lift closed pointwise)) (ofArg pointwise)
  | drop arg _ ofFn => exact .drop _ (ofFn pointwise)
  | instantiate _ ofBody =>
    rw [subst_subst_cons]
    exact .instantiate (ofBody (lift closed pointwise))
  | strip type _ ofTerm => exact .strip _ (ofTerm pointwise)
  | unfold found =>
    rw [(closed _ _ found).subst]
    exact .unfold found

theorem subst_cons (closed : StoresClosed stored) {body body' value value' : Unbounded}
    (ofBody : Parallel stored body body') (ofValue : Parallel stored value value') :
    Parallel stored (body.subst (cons value .var)) (body'.subst (cons value' .var)) := by
  apply ofBody.subst closed
  intro index
  cases index with
  | zero => exact ofValue
  | succ index => exact .var index

end Parallel

def development (stored : Name → Option Unbounded) : Unbounded → Unbounded
  | .var index => .var index
  | .ref name => (stored name).getD (.ref name)
  | .typ => .typ
  | .all erased self param domain codomain =>
    .all erased self param (domain.development stored) (codomain.development stored)
  | .lam true _ body => (body.development stored).subst (cons placeholder .var)
  | .lam false param body => .lam false param (body.development stored)
  | .app true fn _ => fn.development stored
  | .app false (.lam false _ body) arg => (body.development stored).subst (cons (arg.development stored) .var)
  | .app false fn arg => .app false (fn.development stored) (arg.development stored)
  | .ann _ _ term => term.development stored

theorem development_app {stored : Name → Option Unbounded} {fn : Unbounded} (arg : Unbounded)
    (stuck : ∀ param body, fn ≠ .lam false param body) :
    (Unbounded.app false fn arg).development stored = .app false (fn.development stored) (arg.development stored) := by
  cases fn with
  | lam erased param body =>
    cases erased with
    | false => exact absurd rfl (stuck param body)
    | true => rfl
  | _ => rfl

/-- Every parallel step can still arrive at the development. -/
theorem Parallel.triangle {stored : Name → Option Unbounded} (closed : StoresClosed stored)
    {t u : Unbounded} (parallel : Parallel stored t u) : Parallel stored u (t.development stored) := by
  induction parallel with
  | var index => exact .var index
  | ref name =>
    rw [development]
    cases found : stored name with
    | none => exact .ref name
    | some t => exact .unfold found
  | typ => exact .typ
  | all _ _ ofDomain ofCodomain => exact .all ofDomain ofCodomain
  | @lam erased param body body' _ ofBody =>
    cases erased with
    | false => exact .lam ofBody
    | true => exact .instantiate ofBody
  | @app erased fn fn' arg arg' reachesFn reachesArg ofFn ofArg =>
    cases erased with
    | true => exact .drop _ ofFn
    | false =>
      by_cases function : ∃ param body, fn = .lam false param body
      · -- the function is still one after its step, and its body can still arrive at the development of the body
        obtain ⟨param, body, rfl⟩ := function
        cases reachesFn with
        | lam _ =>
          cases ofFn with
          | lam ofBody => exact .beta ofBody ofArg
      · rw [development_app arg (fun param body same => function ⟨param, body, same⟩)]
        exact .app ofFn ofArg
  | ann _ _ _ ofTerm => exact .strip _ ofTerm
  | beta _ _ ofBody ofArg => exact .subst_cons closed ofBody ofArg
  | drop arg _ ofFn => exact ofFn
  | instantiate _ ofBody => exact .subst_cons closed ofBody (.refl _)
  | strip type _ ofTerm => exact ofTerm
  | @unfold name t found =>
    rw [development, found]
    exact .refl t

theorem Reduces.confluent {stored : Name → Option Unbounded} (closed : StoresClosed stored)
    {t u v : Unbounded} (first : Reduces stored t u) (second : Reduces stored t v) :
    ∃ w, Reduces stored u w ∧ Reduces stored v w := by
  have parallel {t u : Unbounded} (reduces : Reduces stored t u) : ReflTransGen (Parallel stored) t u :=
    ReflTransGen.mono (fun _ _ step => Parallel.of_step step) _ _ reduces
  have sequential {t u : Unbounded} (reduces : ReflTransGen (Parallel stored) t u) : Reduces stored t u := by
    induction reduces with
    | refl => exact .refl
    | tail _ step ih => exact ih.trans step.reduces
  obtain ⟨w, ofFirst, ofSecond⟩ := Relation.church_rosser
    (fun t u v left right => ⟨t.development stored, .single (left.triangle closed), .single (right.triangle closed)⟩)
    (parallel first) (parallel second)
  exact ⟨w, sequential ofFirst, sequential ofSecond⟩

theorem Reduces.eq_of_irreducible {stored : Name → Option Unbounded} {t u : Unbounded}
    (irreducible : ∀ u, ¬ Step stored t u) (reduces : Reduces stored t u) : u = t := by
  rcases ReflTransGen.cases_head reduces with same | ⟨_, step, -⟩
  · exact same.symm
  · exact absurd step (irreducible _)

theorem Reduces.unique {stored : Name → Option Unbounded} (closed : StoresClosed stored)
    {t u v : Unbounded} (first : Reduces stored t u) (second : Reduces stored t v) (noStep : ∀ w, ¬ Step stored u w)
    (noStep' : ∀ w, ¬ Step stored v w) : u = v := by
  obtain ⟨w, ofFirst, ofSecond⟩ := first.confluent closed second
  exact (ofFirst.eq_of_irreducible noStep).symm.trans (ofSecond.eq_of_irreducible noStep')

end Unbounded

end SelfLambda
