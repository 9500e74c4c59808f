import SelfLambda.Term.Scope

/-! Printed form of terms. Parentheses stand only where the grammar needs them: around the function of an application
and around an annotated term. -/

namespace SelfLambda

namespace Text

def grouped (wanted : Bool) (s : Text) : Text := if wanted then ascii "(" ++ s ++ ascii ")" else s

def erasureMark (erased : Bool) : Text := if erased then ascii ";" else []

end Text

namespace Term

open Text

/-- A function position takes variables, references and applications as they are. -/
def groupedAsFunction : Term → Bool
  | var _ | ref _ | app .. => false
  | _ => true

def groupedAsAnnotated : Term → Bool
  | all .. | lam .. | ann .. => true
  | _ => false

/-- A variable is printed by its name; one beyond the scope as `?b` and how far beyond it lies. -/
def printVar (scope : Scope) (index : UInt64) : Text :=
  match scope.name? index with
  | some name => name
  | none => ascii "?b" ++ decimal (index.toNat - scope.length)

def print : Scope → Term → Text
  | scope, var index => printVar scope index
  | _, ref name => name
  | _, typ => ascii "Type"
  | scope, all erased self param domain codomain =>
    self ++ ascii "(" ++ param ++ ascii " : " ++ domain.print (self :: scope) ++ erasureMark erased ++ ascii ") -> " ++
      codomain.print (param :: self :: scope)
  | scope, lam erased param body =>
    ascii "(" ++ param ++ erasureMark erased ++ ascii ") => " ++ body.print (param :: scope)
  | scope, app erased fn arg =>
    grouped fn.groupedAsFunction (fn.print scope) ++ ascii "(" ++ arg.print scope ++ erasureMark erased ++ ascii ")"
  | scope, ann _ type term =>
    grouped term.groupedAsAnnotated (term.print scope) ++ ascii " :: " ++ type.print scope

end Term

end SelfLambda
