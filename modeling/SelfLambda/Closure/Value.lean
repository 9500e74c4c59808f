import SelfLambda.Term.Basic

/-! Values are terms whose binders are closures: a body together with values for the variables around it. Applying a
function is then one call, without any index arithmetic.

A variable that no environment covers is `free` and counts from outside the whole term; `level` stands for a binder
that was opened at a given depth while a value is read back. -/

namespace SelfLambda

/-- A body that waits for the values of its own binders. The environment lists values for the variables beyond those,
the nearest first, and `passes` counts the normalizations that what comes out still goes through. -/
structure Closure (V : Type) where
  env : List V
  body : Term
  passes : Nat

inductive Value where
  | free (index : UInt64)
  | level (depth : UInt64)
  | ref (name : Name)
  | typ
  | all (erased : Bool) (self param : Name) (domain codomain : Closure Value)
  | lam (erased : Bool) (param : Name) (body : Closure Value)
  | app (erased : Bool) (fn arg : Value)
  | ann (checked : Bool) (type term : Value)
  deriving Inhabited

namespace Closure

def constant {V : Type} (arity : UInt64) (v : V) : Closure V := ⟨[v], .var arity, 0⟩

def normalized {V : Type} (c : Closure V) : Closure V := { c with passes := c.passes + 1 }

end Closure

namespace Value

def ofVar (env : List Value) (count index : UInt64) : Value :=
  match (if index < count then env[index.toNat]? else none) with
  | some v => v
  | none => free (index - count)

def ofTermIn (env : List Value) (count : UInt64) : Term → Value
  | .var index => ofVar env count index
  | .ref name => ref name
  | .typ => typ
  | .all erased self param domain codomain => all erased self param ⟨env, domain, 0⟩ ⟨env, codomain, 0⟩
  | .lam erased param body => lam erased param ⟨env, body, 0⟩
  | .app erased fn arg => app erased (ofTermIn env count fn) (ofTermIn env count arg)
  | .ann checked type term => ann checked (ofTermIn env count type) (ofTermIn env count term)

/-- Value of a term in an environment, the nearest variable first. The length of the environment is a word, like the
indices that are compared with it. -/
def ofTerm (env : List Value) (t : Term) : Value := ofTermIn env (UInt64.ofNat env.length) t

end Value

end SelfLambda
