import SelfLambda.Proofs.Index.Words
import SelfLambda.Closure.Quotation

/-! Runs in which no sum of words wraps. Each predicate goes through a run exactly as the run goes and collects a
condition wherever it forms a sum: the substitutions of reduction on terms, the length of the environment at the call of
a closure, the depth at a binder that is opened and the index of a free variable that is read back. A run that does not
end is covered too, because the conditions are asked for at every amount of fuel. -/

namespace SelfLambda

def Run.Ensures {α : Type} (run : Run α) (P : α → Trace → Prop) : Prop :=
  match run with
  | .error _ => True
  | .ok (result, trace) => P result trace

theorem Run.Ensures.apply {α : Type} {run : Run α} {P : α → Trace → Prop} (ensures : run.Ensures P) {result : α}
    {trace : Trace} (done : run = .ok (result, trace)) : P result trace := by
  rw [done] at ensures
  exact ensures

def Term.WeakHeadFits (defs : Definitions) : Nat → Trace → Term → Prop
  | fuel + 1, trace, ref name =>
    match consult defs trace name with
    | (some t, trace) => t.WeakHeadFits defs fuel trace
    | (none, _) => True
  | fuel + 1, trace, lam true _ body =>
    body.SubstFits placeholder 0 ∧ (body.subst placeholder 0).WeakHeadFits defs fuel trace
  | fuel + 1, trace, app true fn _ => fn.WeakHeadFits defs fuel trace
  | fuel + 1, trace, app false fn arg =>
    fn.WeakHeadFits defs fuel trace ∧ (fn.weakHead defs fuel trace).Ensures fun
      | lam _ _ body, trace => body.SubstFits arg 0 ∧ (body.subst arg 0).WeakHeadFits defs fuel trace
      | _, trace => arg.WeakHeadFits defs fuel trace
  | fuel + 1, trace, ann _ _ term => term.WeakHeadFits defs fuel trace
  | _, _, _ => True

mutual

def Closure.CallFits (defs : Definitions) : Nat → Trace → Closure Value → List Value → Prop
  | _, _, ⟨env, _, 0⟩, args => env.length + args.length < UInt64.size
  | 0, _, ⟨_, _, _ + 1⟩, _ => True
  | fuel + 1, trace, ⟨env, body, passes + 1⟩, args =>
    Closure.CallFits defs fuel trace ⟨env, body, passes⟩ args ∧
      (Closure.call defs fuel trace ⟨env, body, passes⟩ args).Ensures fun v trace =>
        Value.NormalizeFits defs fuel trace v

def Value.WeakHeadFits (defs : Definitions) : Nat → Trace → Value → Prop
  | fuel + 1, trace, .ref name =>
    match consult defs trace name with
    | (some t, trace) => Value.WeakHeadFits defs fuel trace (Value.ofTerm [] t)
    | (none, _) => True
  | fuel + 1, trace, .lam true _ body =>
    Closure.CallFits defs fuel trace body [Value.ofTerm [] Term.placeholder] ∧
      (Closure.call defs fuel trace body [Value.ofTerm [] Term.placeholder]).Ensures fun v trace =>
        Value.WeakHeadFits defs fuel trace v
  | fuel + 1, trace, .app true fn _ => Value.WeakHeadFits defs fuel trace fn
  | fuel + 1, trace, .app false fn arg =>
    Value.WeakHeadFits defs fuel trace fn ∧ (Value.weakHead defs fuel trace fn).Ensures fun
      | .lam _ _ body, trace =>
        Closure.CallFits defs fuel trace body [arg] ∧
          (Closure.call defs fuel trace body [arg]).Ensures fun v trace => Value.WeakHeadFits defs fuel trace v
      | _, trace => Value.WeakHeadFits defs fuel trace arg
  | fuel + 1, trace, .ann _ _ term => Value.WeakHeadFits defs fuel trace term
  | _, _, _ => True

def Value.NormalizeFits (defs : Definitions) : Nat → Trace → Value → Prop
  | 0, _, _ => True
  | fuel + 1, trace, v =>
    Value.WeakHeadFits defs fuel trace v ∧ (Value.weakHead defs fuel trace v).Ensures fun
      | .app _ fn arg, trace =>
        Value.NormalizeFits defs fuel trace fn ∧ (Value.normalize defs fuel trace fn).Ensures fun _ trace =>
          Value.NormalizeFits defs fuel trace arg
      | _, _ => True

end

def Value.QuoteFits (defs : Definitions) : Nat → Trace → UInt64 → Value → Prop
  | _ + 1, _, depth, .free index => index.toNat + depth.toNat < UInt64.size
  | fuel + 1, trace, depth, .all _ _ _ domain codomain =>
    depth.toNat + 2 < UInt64.size ∧
      domain.CallFits defs fuel trace [.level depth] ∧
      (domain.call defs fuel trace [.level depth]).Ensures fun domain trace =>
      domain.QuoteFits defs fuel trace (depth + 1) ∧
      (domain.quote defs fuel trace (depth + 1)).Ensures fun _ trace =>
      codomain.CallFits defs fuel trace [.level (depth + 1), .level depth] ∧
      (codomain.call defs fuel trace [.level (depth + 1), .level depth]).Ensures fun codomain trace =>
      codomain.QuoteFits defs fuel trace (depth + 2)
  | fuel + 1, trace, depth, .lam _ _ body =>
    depth.toNat + 1 < UInt64.size ∧
      body.CallFits defs fuel trace [.level depth] ∧
      (body.call defs fuel trace [.level depth]).Ensures fun body trace => body.QuoteFits defs fuel trace (depth + 1)
  | fuel + 1, trace, depth, .app _ fn arg =>
    fn.QuoteFits defs fuel trace depth ∧
      (fn.quote defs fuel trace depth).Ensures fun _ trace => arg.QuoteFits defs fuel trace depth
  | fuel + 1, trace, depth, .ann _ type term =>
    type.QuoteFits defs fuel trace depth ∧
      (type.quote defs fuel trace depth).Ensures fun _ trace => term.QuoteFits defs fuel trace depth
  | _, _, _, _ => True

/-- No sum wraps in the evaluation of a term, however far it goes. -/
def Term.EvaluateFits (defs : Definitions) (t : Term) : Prop := ∀ fuel, t.WeakHeadFits defs fuel []

def Term.ReduceFits (defs : Definitions) (t : Term) : Prop :=
  ∀ fuel, (Value.ofTerm [] t).WeakHeadFits defs fuel [] ∧
    ((Value.ofTerm [] t).weakHead defs fuel []).Ensures fun v trace => v.QuoteFits defs fuel trace 0

def Term.NormalizeFits (defs : Definitions) (t : Term) : Prop :=
  ∀ fuel, (Value.ofTerm [] t).NormalizeFits defs fuel [] ∧
    ((Value.ofTerm [] t).normalize defs fuel []).Ensures fun v trace => v.QuoteFits defs fuel trace 0

end SelfLambda
