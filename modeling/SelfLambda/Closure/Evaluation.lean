import SelfLambda.Closure.Value
import SelfLambda.Reduction.WeakHead

/-! Reduction of values. `weakHead` follows the same rules as reduction by substitution, with a call in place of each
substitution. `normalize` goes on into the parts of a weak-head form; binders become closures that normalize when they
are called. -/

namespace SelfLambda

mutual

/-- Calls a closure on values for its own binders, the nearest first. -/
def Closure.call (defs : Definitions) : Nat → Trace → Closure Value → List Value → Run Value
  | _, trace, ⟨env, body, 0⟩, args => .ok (Value.ofTerm (args ++ env) body, trace)
  | 0, trace, ⟨_, _, _ + 1⟩, _ => .error ⟨.outOfFuel, trace⟩
  | fuel + 1, trace, ⟨env, body, passes + 1⟩, args =>
    Run.andThen (Closure.call defs fuel trace ⟨env, body, passes⟩ args) fun v trace =>
      Value.normalize defs fuel trace v

def Value.weakHead (defs : Definitions) : Nat → Trace → Value → Run Value
  | 0, trace, _ => .error ⟨.outOfFuel, trace⟩
  | _ + 1, trace, .free index => .ok (.free index, trace)
  | _ + 1, trace, .level depth => .ok (.level depth, trace)
  | fuel + 1, trace, .ref name =>
    match consult defs trace name with
    | (some t, trace) => Value.weakHead defs fuel trace (Value.ofTerm [] t)
    | (none, trace) => .ok (.ref name, trace)
  | _ + 1, trace, .typ => .ok (.typ, trace)
  | _ + 1, trace, .all erased self param domain codomain => .ok (.all erased self param domain codomain, trace)
  | _ + 1, trace, .lam false param body => .ok (.lam false param body, trace)
  | fuel + 1, trace, .lam true _ body =>
    Run.andThen (Closure.call defs fuel trace body [Value.ofTerm [] Term.placeholder]) fun v trace =>
      Value.weakHead defs fuel trace v
  | fuel + 1, trace, .app true fn _ => Value.weakHead defs fuel trace fn
  | fuel + 1, trace, .app false fn arg =>
    Run.andThen (Value.weakHead defs fuel trace fn) fun
      | .lam _ _ body, trace =>
        Run.andThen (Closure.call defs fuel trace body [arg]) fun v trace => Value.weakHead defs fuel trace v
      | head, trace =>
        Run.andThen (Value.weakHead defs fuel trace arg) fun arg trace => .ok (.app false head arg, trace)
  | fuel + 1, trace, .ann _ _ term => Value.weakHead defs fuel trace term

def Value.normalize (defs : Definitions) : Nat → Trace → Value → Run Value
  | 0, trace, _ => .error ⟨.outOfFuel, trace⟩
  | fuel + 1, trace, v =>
    Run.andThen (Value.weakHead defs fuel trace v) fun
      | .all erased self param domain codomain, trace =>
        .ok (.all erased self param domain.normalized codomain.normalized, trace)
      | .lam erased param body, trace => .ok (.lam erased param body.normalized, trace)
      | .app erased fn arg, trace =>
        Run.andThen (Value.normalize defs fuel trace fn) fun fn trace =>
        Run.andThen (Value.normalize defs fuel trace arg) fun arg trace => .ok (.app erased fn arg, trace)
      | other, trace => .ok (other, trace)

end

end SelfLambda
