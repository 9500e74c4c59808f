import SelfLambda.Proofs.Reduction.Limit

/-! Weak-head forms of terms. Evaluation ends in one, whatever the definitions are, and has nothing to do in one. -/

namespace SelfLambda

open Run

namespace Term

def IsFunction : Term → Prop
  | .lam .. => True
  | _ => False

/-- A term that evaluation leaves as it is. A stuck application has a weak-head form for its function, but no function to
call, and a weak-head form for its argument. -/
inductive Weak (defs : Definitions) : Term → Prop
  | var (index : UInt64) : Weak defs (.var index)
  | ref {name : Name} (kept : unfolding defs name = none) : Weak defs (.ref name)
  | typ : Weak defs .typ
  | all (erased : Bool) (self param : Name) (domain codomain : Term) :
      Weak defs (.all erased self param domain codomain)
  | lam (param : Name) (body : Term) : Weak defs (.lam false param body)
  | app {fn arg : Term} (ofFn : Weak defs fn) (stuck : ¬ fn.IsFunction) (ofArg : Weak defs arg) :
      Weak defs (.app false fn arg)

variable {defs : Definitions} {trace asked : Trace} {t u : Term}

theorem weak_of_weakHead {fuel : Nat} (done : t.weakHead defs fuel trace = .ok (u, asked)) : u.Weak defs := by
  induction fuel generalizing t u trace asked with
  | zero => cases done
  | succ fuel ih =>
    cases t with
    | var index =>
      cases done
      exact .var index
    | ref name =>
      rw [weakHead, consult] at done
      cases unfolds : unfolding defs name with
      | none =>
        rw [unfolds] at done
        cases done
        exact .ref unfolds
      | some stored =>
        rw [unfolds] at done
        exact ih done
    | typ =>
      cases done
      exact .typ
    | all erased self param domain codomain =>
      cases done
      exact .all erased self param domain codomain
    | lam erased param body =>
      cases erased with
      | false =>
        cases done
        exact .lam param body
      | true => exact ih done
    | app erased fn arg =>
      cases erased with
      | true => exact ih done
      | false =>
        rw [weakHead] at done
        obtain ⟨head, _, evaluated, rest⟩ := Run.andThen_eq_ok_iff.mp done
        cases head with
        | lam erased param body => exact ih rest
        | _ =>
          obtain ⟨_, _, evaluatedArg, rest⟩ := Run.andThen_eq_ok_iff.mp rest
          cases rest
          exact .app (ih evaluated) id (ih evaluatedArg)
    | ann checked type term => exact ih done

theorem Weak.ends_weakHead (weak : t.Weak defs) (trace : Trace) : ∃ asked, Ends (t.weakHead defs · trace) t asked := by
  induction weak generalizing trace with
  | @ref name kept =>
    refine ⟨name :: trace, ends_of_succ ?_⟩
    simp only [weakHead, consult, kept]
    exact .const _ _
  | @app fn arg _ stuck _ fnLaw argLaw =>
    obtain ⟨askedFn, endsFn⟩ := fnLaw trace
    obtain ⟨askedArg, endsArg⟩ := argLaw askedFn
    refine ⟨askedArg, ends_of_succ ?_⟩
    simp only [weakHead]
    apply endsFn.andThen
    cases fn with
    | lam erased param body => exact absurd trivial stuck
    | _ => exact endsArg.andThen (.const _ _)
  | _ => exact ⟨trace, ends_of_succ (.const _ _)⟩

end Term

end SelfLambda
