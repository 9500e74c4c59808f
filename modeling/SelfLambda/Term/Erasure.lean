import SelfLambda.Term.Substitution

/-! Erasure. What is marked erased has no part in computation: erased parameters get an opaque placeholder, erased
arguments and annotations go. -/

namespace SelfLambda

namespace Term

/-- The opaque reference that stands for an erased parameter. -/
def placeholder : Term := ref (Text.ascii "<erased>")

theorem size_subst_placeholder (t : Term) (cutoff : UInt64) : (t.subst placeholder cutoff).size = t.size :=
  size_subst_ref t _ cutoff

/-- Strips erased content. An erased function is its body with the placeholder put in, which has fewer nodes than
the function. -/
def erase : Term → Term
  | var index => var index
  | ref name => ref name
  | typ => typ
  | all erased self param domain codomain => all erased self param domain.erase codomain.erase
  | lam true _ body => (body.subst placeholder 0).erase
  | lam false param body => lam false param body.erase
  | app true fn _ => fn.erase
  | app false fn arg => app false fn.erase arg.erase
  | ann _ _ term => term.erase
termination_by t => t.size
decreasing_by all_goals simp only [size_subst_placeholder, size]; omega

end Term

end SelfLambda
