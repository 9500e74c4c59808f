import SelfLambda.Proofs.Reduction.Confluence
import SelfLambda.Proofs.Reduction.NormalForm

/-! One step of reduction on terms over words, at any position, under the condition that the substitution it makes forms
no sum that wraps. A step is a step over numbers, and what the reducers by substitution do is a sequence of steps. -/

namespace SelfLambda

open Relation

/-- What the names unfold to, over numbers. -/
def Definitions.stored (defs : Definitions) (name : Name) : Option Unbounded := (unfolding defs name).map Term.unbounded

variable {defs : Definitions}

theorem Definitions.stored_eq_none {name : Name} : defs.stored name = none ↔ unfolding defs name = none :=
  Option.map_eq_none_iff

theorem Definitions.stored_of_unfolding {name : Name} {t : Term} (unfolds : unfolding defs name = some t) :
    defs.stored name = some t.unbounded := by
  rw [Definitions.stored, unfolds, Option.map_some]

theorem Definitions.closed_of_single {name : Name} {d : Definition} (closed : d.term.Closed) (other : Name)
    (e : Definition) (found : (if other = name then some d else none) = some e) : e.term.Closed := by
  split at found
  next =>
    cases found
    exact closed
  next => cases found

theorem Definitions.storesClosed (closed : ∀ name d, defs name = some d → d.term.Closed) :
    Unbounded.StoresClosed defs.stored := by
  intro name u found ρ
  obtain ⟨t, unfolds, rfl⟩ := Option.map_eq_some_iff.mp found
  obtain ⟨d, stored, rfl⟩ := exists_of_unfolding unfolds
  exact (closed name d stored).rename ρ

namespace Term

inductive Step (defs : Definitions) : Term → Term → Prop
  | beta (param : Name) {body arg : Term} (fits : body.SubstFits arg 0) :
      Step defs (.app false (.lam false param body) arg) (body.subst arg 0)
  | drop (fn arg : Term) : Step defs (.app true fn arg) fn
  | instantiate (param : Name) {body : Term} (fits : body.SubstFits placeholder 0) :
      Step defs (.lam true param body) (body.subst placeholder 0)
  | strip (checked : Bool) (type term : Term) : Step defs (.ann checked type term) term
  | unfold {name : Name} {t : Term} (unfolds : unfolding defs name = some t) : Step defs (.ref name) t
  | domain {erased : Bool} {self param : Name} {domain domain' codomain : Term} (step : Step defs domain domain') :
      Step defs (.all erased self param domain codomain) (.all erased self param domain' codomain)
  | codomain {erased : Bool} {self param : Name} {domain codomain codomain' : Term}
      (step : Step defs codomain codomain') :
      Step defs (.all erased self param domain codomain) (.all erased self param domain codomain')
  | body {erased : Bool} {param : Name} {body body' : Term} (step : Step defs body body') :
      Step defs (.lam erased param body) (.lam erased param body')
  | fn {erased : Bool} {fn fn' arg : Term} (step : Step defs fn fn') :
      Step defs (.app erased fn arg) (.app erased fn' arg)
  | arg {erased : Bool} {fn arg arg' : Term} (step : Step defs arg arg') :
      Step defs (.app erased fn arg) (.app erased fn arg')
  | type {checked : Bool} {type type' term : Term} (step : Step defs type type') :
      Step defs (.ann checked type term) (.ann checked type' term)
  | term {checked : Bool} {type term term' : Term} (step : Step defs term term') :
      Step defs (.ann checked type term) (.ann checked type term')

abbrev Reduces (defs : Definitions) : Term → Term → Prop := ReflTransGen (Step defs)

variable {trace asked : Trace} {t u w n : Term}

theorem Step.unbounded (step : Step defs t u) : Unbounded.Step defs.stored t.unbounded u.unbounded := by
  induction step with
  | beta param fits =>
    rw [unbounded_subst_zero fits]
    exact .beta param _ _
  | drop fn arg => exact .drop _ _
  | instantiate param fits =>
    rw [unbounded_subst_zero fits]
    exact .instantiate param _
  | strip checked type term => exact .strip _ _ _
  | unfold unfolds => exact .unfold (Definitions.stored_of_unfolding unfolds)
  | domain _ ih => exact .domain ih
  | codomain _ ih => exact .codomain ih
  | body _ ih => exact .body ih
  | fn _ ih => exact .fn ih
  | arg _ ih => exact .arg ih
  | type _ ih => exact .type ih
  | term _ ih => exact .term ih

namespace Reduces

theorem unbounded (reduces : Reduces defs t u) : Unbounded.Reduces defs.stored t.unbounded u.unbounded :=
  ReflTransGen.lift Term.unbounded (fun _ _ step => Step.unbounded step) _ _ reduces

theorem all {erased : Bool} {self param : Name} {domain domain' codomain codomain' : Term}
    (ofDomain : Reduces defs domain domain') (ofCodomain : Reduces defs codomain codomain') :
    Reduces defs (.all erased self param domain codomain) (.all erased self param domain' codomain') := by
  have first : Reduces defs (.all erased self param domain codomain) (.all erased self param domain' codomain) :=
    ReflTransGen.lift (Term.all erased self param · codomain) (fun _ _ step => Step.domain step) _ _ ofDomain
  exact first.trans (ReflTransGen.lift _ (fun _ _ step => Step.codomain step) _ _ ofCodomain)

theorem lam {erased : Bool} {param : Name} {body body' : Term} (ofBody : Reduces defs body body') :
    Reduces defs (.lam erased param body) (.lam erased param body') :=
  ReflTransGen.lift _ (fun _ _ step => Step.body step) _ _ ofBody

theorem app {erased : Bool} {fn fn' arg arg' : Term} (ofFn : Reduces defs fn fn') (ofArg : Reduces defs arg arg') :
    Reduces defs (.app erased fn arg) (.app erased fn' arg') := by
  have first : Reduces defs (.app erased fn arg) (.app erased fn' arg) :=
    ReflTransGen.lift (Term.app erased · arg) (fun _ _ step => Step.fn step) _ _ ofFn
  exact first.trans (ReflTransGen.lift _ (fun _ _ step => Step.arg step) _ _ ofArg)

end Reduces

theorem kept_of_weakHead {fuel : Nat} {erased : Bool} {param : Name} {body : Term}
    (done : t.weakHead defs fuel trace = .ok (.lam erased param body, asked)) : erased = false := by
  induction fuel generalizing t trace with
  | zero => cases done
  | succ fuel ih =>
    cases t with
    | ref name =>
      rw [weakHead, consult] at done
      cases unfolds : unfolding defs name with
      | none =>
        rw [unfolds] at done
        cases done
      | some u =>
        rw [unfolds] at done
        exact ih done
    | lam erased param body =>
      cases erased with
      | false =>
        cases done
        rfl
      | true => exact ih done
    | app erased fn arg =>
      cases erased with
      | true => exact ih done
      | false =>
        obtain ⟨head, _, _, rest⟩ := Run.andThen_eq_ok_iff.mp done
        cases head with
        | lam erased param body => exact ih rest
        | _ =>
          obtain ⟨_, _, _, rest⟩ := Run.andThen_eq_ok_iff.mp rest
          cases rest
    | ann checked type term => exact ih done
    | _ => cases done

theorem reduces_of_weakHead {fuel : Nat} (fits : t.WeakHeadFits defs fuel trace)
    (done : t.weakHead defs fuel trace = .ok (w, asked)) : Reduces defs t w := by
  induction fuel generalizing t w trace asked with
  | zero => cases done
  | succ fuel ih =>
    cases t with
    | ref name =>
      rw [weakHead, consult] at done
      rw [WeakHeadFits, consult] at fits
      cases unfolds : unfolding defs name with
      | none =>
        rw [unfolds] at done
        cases done
        exact .refl
      | some u =>
        rw [unfolds] at done fits
        exact (ih fits done).head (.unfold unfolds)
    | lam erased param body =>
      cases erased with
      | false =>
        cases done
        exact .refl
      | true => exact (ih fits.2 done).head (.instantiate param fits.1)
    | app erased fn arg =>
      cases erased with
      | true => exact (ih fits done).head (.drop fn arg)
      | false =>
        obtain ⟨head, _, reduced, rest⟩ := Run.andThen_eq_ok_iff.mp done
        have ofFn := ih fits.1 reduced
        have fits := fits.2.apply reduced
        cases head with
        | lam erased param body =>
          obtain rfl := kept_of_weakHead reduced
          exact (Reduces.app ofFn .refl).trans ((ih fits.2 rest).head (.beta param fits.1))
        | _ =>
          obtain ⟨_, _, reducedArg, rest⟩ := Run.andThen_eq_ok_iff.mp rest
          cases rest
          exact .app ofFn (ih fits reducedArg)
    | ann checked type term => exact (ih fits done).head (.strip checked type term)
    | _ =>
      cases done
      exact .refl

theorem reduces_of_rebuild {fuel : Nat} (fits : t.RebuildFits defs fuel trace)
    (done : t.rebuild defs fuel trace = .ok (n, asked)) : Reduces defs t n := by
  induction fuel generalizing t n trace asked with
  | zero => cases done
  | succ fuel ih =>
    obtain ⟨w, _, evaluated, rest⟩ := Run.andThen_eq_ok_iff.mp done
    have head := reduces_of_weakHead fits.1 evaluated
    have fits := fits.2.apply evaluated
    cases w with
    | all erased self param domain codomain =>
      obtain ⟨_, _, rebuilt, rest⟩ := Run.andThen_eq_ok_iff.mp rest
      obtain ⟨_, _, rebuilt', rest⟩ := Run.andThen_eq_ok_iff.mp rest
      cases rest
      exact head.trans (Reduces.all (ih fits.1 rebuilt) (ih (fits.2.apply rebuilt) rebuilt'))
    | lam erased param body =>
      obtain ⟨_, _, rebuilt, rest⟩ := Run.andThen_eq_ok_iff.mp rest
      cases rest
      exact head.trans (Reduces.lam (ih fits rebuilt))
    | app erased fn arg =>
      obtain ⟨_, _, rebuilt, rest⟩ := Run.andThen_eq_ok_iff.mp rest
      obtain ⟨_, _, rebuilt', rest⟩ := Run.andThen_eq_ok_iff.mp rest
      cases rest
      exact head.trans (Reduces.app (ih fits.1 rebuilt) (ih (fits.2.apply rebuilt) rebuilt'))
    | _ =>
      cases rest
      exact head

end Term

end SelfLambda
