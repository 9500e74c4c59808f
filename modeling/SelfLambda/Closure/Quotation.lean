import SelfLambda.Closure.Evaluation

/-! Reading values back. Every binder is opened with the level at which it stands; a level met at a greater depth is
the variable that many binders out. -/

namespace SelfLambda

/-- The term of a value that stands under `depth` binders. -/
def Value.quote (defs : Definitions) : Nat → Trace → UInt64 → Value → Run Term
  | 0, trace, _, _ => .error ⟨.outOfFuel, trace⟩
  | _ + 1, trace, depth, .free index => .ok (.var (index + depth), trace)
  | _ + 1, trace, depth, .level opened =>
    if opened < depth then .ok (.var (depth - opened - 1), trace) else .error ⟨.levelOutOfScope, trace⟩
  | _ + 1, trace, _, .ref name => .ok (.ref name, trace)
  | _ + 1, trace, _, .typ => .ok (.typ, trace)
  | fuel + 1, trace, depth, .all erased self param domain codomain =>
    Run.andThen (domain.call defs fuel trace [.level depth]) fun domain trace =>
    Run.andThen (domain.quote defs fuel trace (depth + 1)) fun domain trace =>
    Run.andThen (codomain.call defs fuel trace [.level (depth + 1), .level depth]) fun codomain trace =>
    Run.andThen (codomain.quote defs fuel trace (depth + 2)) fun codomain trace =>
      .ok (.all erased self param domain codomain, trace)
  | fuel + 1, trace, depth, .lam erased param body =>
    Run.andThen (body.call defs fuel trace [.level depth]) fun body trace =>
    Run.andThen (body.quote defs fuel trace (depth + 1)) fun body trace => .ok (.lam erased param body, trace)
  | fuel + 1, trace, depth, .app erased fn arg =>
    Run.andThen (fn.quote defs fuel trace depth) fun fn trace =>
    Run.andThen (arg.quote defs fuel trace depth) fun arg trace => .ok (.app erased fn arg, trace)
  | fuel + 1, trace, depth, .ann checked type term =>
    Run.andThen (type.quote defs fuel trace depth) fun type trace =>
    Run.andThen (term.quote defs fuel trace depth) fun term trace => .ok (.ann checked type term, trace)

def Term.reduce (defs : Definitions) (fuel : Nat) (t : Term) : Run Term :=
  Run.andThen ((Value.ofTerm [] t).weakHead defs fuel []) fun v trace => v.quote defs fuel trace 0

def Term.normalize (defs : Definitions) (fuel : Nat) (t : Term) : Run Term :=
  Run.andThen ((Value.ofTerm [] t).normalize defs fuel []) fun v trace => v.quote defs fuel trace 0

end SelfLambda
