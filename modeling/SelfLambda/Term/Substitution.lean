import SelfLambda.Term.Basic

/-! The index calculus. One traversal, `mapVars`, knows how many binders each position lies under; shifting and
substitution only say what happens at a variable. -/

namespace SelfLambda

namespace Term

/-- Replaces every variable by `f depth index`, where `depth` grows by one into a domain or a function body and by
two into a codomain. -/
def mapVars (f : UInt64 → UInt64 → Term) : UInt64 → Term → Term
  | depth, var index => f depth index
  | _, ref name => ref name
  | _, typ => typ
  | depth, all erased self param domain codomain =>
    all erased self param (domain.mapVars f (depth + 1)) (codomain.mapVars f (depth + 2))
  | depth, lam erased param body => lam erased param (body.mapVars f (depth + 1))
  | depth, app erased fn arg => app erased (fn.mapVars f depth) (arg.mapVars f depth)
  | depth, ann checked type term => ann checked (type.mapVars f depth) (term.mapVars f depth)

def occurrences : UInt64 → Term → List (UInt64 × UInt64)
  | depth, var index => [(depth, index)]
  | _, ref _ => []
  | _, typ => []
  | depth, all _ _ _ domain codomain => domain.occurrences (depth + 1) ++ codomain.occurrences (depth + 2)
  | depth, lam _ _ body => body.occurrences (depth + 1)
  | depth, app _ fn arg => fn.occurrences depth ++ arg.occurrences depth
  | depth, ann _ type term => type.occurrences depth ++ term.occurrences depth

/-- Adds `inc` to every variable that points at or beyond `cutoff`, seen from the root. -/
def shift (t : Term) (inc cutoff : UInt64) : Term :=
  if inc = 0 then t
  else t.mapVars (fun depth index => if cutoff + depth ≤ index then var (index + inc) else var index) 0

/-- Puts `value` for the variable at `cutoff` and removes its binder: larger indices drop by one, and under `depth`
more binders the value is shifted by `depth`, so none of its variables is captured. -/
def subst (t value : Term) (cutoff : UInt64) : Term :=
  t.mapVars (fun depth index =>
    if index = cutoff + depth then value.shift depth 0
    else if cutoff + depth < index then var (index - 1)
    else var index) 0

theorem size_mapVars (f : UInt64 → UInt64 → Term) (leaf : ∀ depth index, (f depth index).size = 1)
    (t : Term) (depth : UInt64) : (t.mapVars f depth).size = t.size := by
  induction t generalizing depth with
  | var index => simp only [mapVars, leaf, size]
  | ref name => rfl
  | typ => rfl
  | all erased self param domain codomain domainSize codomainSize =>
    simp only [mapVars, size, domainSize, codomainSize]
  | lam erased param body bodySize => simp only [mapVars, size, bodySize]
  | app erased fn arg fnSize argSize => simp only [mapVars, size, fnSize, argSize]
  | ann checked type term typeSize termSize => simp only [mapVars, size, typeSize, termSize]

@[simp] theorem shift_ref (name : Name) (inc cutoff : UInt64) : (ref name).shift inc cutoff = ref name := by
  simp only [shift, mapVars, ite_self]

theorem size_subst_ref (t : Term) (name : Name) (cutoff : UInt64) : (t.subst (ref name) cutoff).size = t.size := by
  apply size_mapVars
  intro depth index
  split
  · rw [shift_ref, size]
  · split <;> rfl

end Term

end SelfLambda
