import SelfLambda.Proofs.Reduction.Fuel
import SelfLambda.Proofs.Reduction.WrapFree

/-! Normal forms by substitution alone: a term is brought to weak-head form and the parts of that form are treated
alike, under binders too. No closures and no levels take part, so this is the plain reading of what normalization is to
compute. -/

namespace SelfLambda

open Run

namespace Term

def rebuild (defs : Definitions) : Nat → Trace → Term → Run Term
  | 0, trace, _ => .error ⟨.outOfFuel, trace⟩
  | fuel + 1, trace, t =>
    Run.andThen (t.weakHead defs fuel trace) fun
      | all erased self param domain codomain, trace =>
        Run.andThen (domain.rebuild defs fuel trace) fun domain trace =>
        Run.andThen (codomain.rebuild defs fuel trace) fun codomain trace =>
          .ok (all erased self param domain codomain, trace)
      | lam erased param body, trace =>
        Run.andThen (body.rebuild defs fuel trace) fun body trace => .ok (lam erased param body, trace)
      | app erased fn arg, trace =>
        Run.andThen (fn.rebuild defs fuel trace) fun fn trace =>
        Run.andThen (arg.rebuild defs fuel trace) fun arg trace => .ok (app erased fn arg, trace)
      | other, trace => .ok (other, trace)

/-- Normal form of a term, with the names asked for on the way. -/
def normalForm (defs : Definitions) (fuel : Nat) (t : Term) : Run Term := t.rebuild defs fuel []

def RebuildFits (defs : Definitions) : Nat → Trace → Term → Prop
  | 0, _, _ => True
  | fuel + 1, trace, t =>
    t.WeakHeadFits defs fuel trace ∧ (t.weakHead defs fuel trace).Ensures fun
      | all _ _ _ domain codomain, trace =>
        domain.RebuildFits defs fuel trace ∧ (domain.rebuild defs fuel trace).Ensures fun _ trace =>
          codomain.RebuildFits defs fuel trace
      | lam _ _ body, trace => body.RebuildFits defs fuel trace
      | app _ fn arg, trace =>
        fn.RebuildFits defs fuel trace ∧ (fn.rebuild defs fuel trace).Ensures fun _ trace =>
          arg.RebuildFits defs fuel trace
      | _, _ => True

def NormalFormFits (defs : Definitions) (t : Term) : Prop := ∀ fuel, t.RebuildFits defs fuel []

theorem rebuild_settles {defs : Definitions} {fuel fuel' : Nat} (more : fuel ≤ fuel')
    (ih : ∀ trace (t : Term), Settles trace (t.rebuild defs fuel trace) (t.rebuild defs fuel' trace)) (trace : Trace)
    (t : Term) : Settles trace (t.rebuild defs (fuel + 1) trace) (t.rebuild defs (fuel' + 1) trace) := by
  rw [rebuild, rebuild]
  apply Settles.andThen (weakHead_steady defs trace t more)
  intro w trace
  cases w with
  | all erased self param domain codomain =>
    apply Settles.andThen (ih trace domain)
    intro domain trace
    exact .andThen (ih trace codomain) (fun _ _ => .ok _ _)
  | lam erased param body => exact .andThen (ih trace body) (fun _ _ => .ok _ _)
  | app erased fn arg =>
    apply Settles.andThen (ih trace fn)
    intro fn trace
    exact .andThen (ih trace arg) (fun _ _ => .ok _ _)
  | _ => exact .ok _ _

theorem rebuild_steady (defs : Definitions) (trace : Trace) (t : Term) :
    Steady trace (fun fuel => t.rebuild defs fuel trace) := by
  intro fuel fuel' more
  refine settle_of_succ (P := fun fuel fuel' => ∀ trace (t : Term),
    Settles trace (t.rebuild defs fuel trace) (t.rebuild defs fuel' trace)) ?_ ?_ ?_ more trace t
  · exact fun _ _ => .refl List.suffix_rfl
  · exact fun fuel same trace t => .outOfFuel (same trace t).begun
  · exact fun fuel fuel' more ih => rebuild_settles more ih

end Term

end SelfLambda
