import SelfLambda.Term.Basic

/-! Scopes list the names of the enclosing binders, the nearest first, so that a variable's index is its position. -/

namespace SelfLambda

abbrev Scope := List Name

namespace Scope

def name? (scope : Scope) (index : UInt64) : Option Name := scope[index.toNat]?

/-- A name is the nearest binder of that name, or else a reference. -/
def resolve (scope : Scope) (name : Name) : Term :=
  match scope.idxOf? name with
  | some index => .var (UInt64.ofNat index)
  | none => .ref name

end Scope

end SelfLambda
