import SelfLambda.Reduction.Run
import SelfLambda.Term.Erasure

/-! Weak-head reduction by substitution, call by name. An argument that a function takes goes in as it is; the argument
of a stuck application is reduced too. Nothing happens under binders. -/

namespace SelfLambda

namespace Term

def weakHead (defs : Definitions) : Nat → Trace → Term → Run Term
  | 0, trace, _ => .error ⟨.outOfFuel, trace⟩
  | _ + 1, trace, var index => .ok (var index, trace)
  | fuel + 1, trace, ref name =>
    match consult defs trace name with
    | (some t, trace) => t.weakHead defs fuel trace
    | (none, trace) => .ok (ref name, trace)
  | _ + 1, trace, typ => .ok (typ, trace)
  | _ + 1, trace, all erased self param domain codomain => .ok (all erased self param domain codomain, trace)
  | _ + 1, trace, lam false param body => .ok (lam false param body, trace)
  | fuel + 1, trace, lam true _ body => (body.subst placeholder 0).weakHead defs fuel trace
  | fuel + 1, trace, app true fn _ => fn.weakHead defs fuel trace
  | fuel + 1, trace, app false fn arg =>
    Run.andThen (fn.weakHead defs fuel trace) fun
      | lam _ _ body, trace => (body.subst arg 0).weakHead defs fuel trace
      | head, trace =>
        Run.andThen (arg.weakHead defs fuel trace) fun arg trace => .ok (app false head arg, trace)
  | fuel + 1, trace, ann _ _ term => term.weakHead defs fuel trace

/-- Weak-head form of a term, with the names asked for on the way. -/
def evaluate (defs : Definitions) (fuel : Nat) (t : Term) : Run Term := t.weakHead defs fuel []

end Term

end SelfLambda
