import SelfLambda.Proofs.Parser.Completeness

/-! Printed terms as derivations. A term can be printed and read back when each of its names can be written in a source
and means the same binder there; its printed form then derives it, parentheses and all. -/

namespace SelfLambda

open Text

/-- Every name in the term can be written in a source, and means there what it means in the term. -/
def Term.Printable : Scope → Term → Prop
  | scope, .var index => ∃ n : Name, scope[index.toNat]? = some n ∧ n.Valid ∧ n ≠ ascii "Type" ∧
    ∀ nearer, nearer < index.toNat → scope[nearer]? ≠ some n
  | scope, .ref n => n.Valid ∧ n ≠ ascii "Type" ∧ n ∉ scope
  | _, .typ => True
  | scope, .all _ self param domain codomain => (self = [] ∨ self.Valid) ∧ param.Valid ∧
    domain.Printable (self :: scope) ∧ codomain.Printable (param :: self :: scope)
  | scope, .lam _ param body => param.Valid ∧ body.Printable (param :: scope)
  | scope, .app _ fn arg => fn.Printable scope ∧ arg.Printable scope
  | scope, .ann checked type term => checked = false ∧ type.Printable scope ∧ term.Printable scope

namespace Scope

theorem resolve_var {scope : Scope} {index : UInt64} {n : Name} (found : scope[index.toNat]? = some n)
    (nearest : ∀ nearer, nearer < index.toNat → scope[nearer]? ≠ some n) : scope.resolve n = .var index := by
  obtain ⟨bound, same⟩ := List.getElem?_eq_some_iff.mp found
  have position : scope.idxOf? n = some index.toNat := by
    refine List.idxOf?_eq_some_iff.mpr ⟨bound, same, fun nearer before equal => nearest nearer before ?_⟩
    rw [List.getElem?_eq_getElem (Nat.lt_trans before bound), equal]
  rw [resolve, position]
  exact congrArg Term.var UInt64.ofNat_toNat

theorem resolve_ref {scope : Scope} {n : Name} (free : n ∉ scope) : scope.resolve n = .ref n := by
  rw [resolve, List.idxOf?_eq_none_iff.mpr free]

end Scope

namespace Parser

theorem blank_one (s : Text) : Blank (32 :: s) s := .space (by decide) (.none s)

theorem mark_erasureMark (erased : Bool) (s : Text) : Mark erased (erasureMark erased ++ s) s := by
  cases erased with
  | false => exact .none s
  | true => exact ⟨s, .none _, .none s⟩

theorem head_erasureMark (erased : Bool) (s : Text) :
    (erasureMark erased ++ (41 :: s)).head?.any isNameByte = false := by
  cases erased with
  | false => rfl
  | true => rfl

def phrase (t : Term) : Phrase := if t.groupedAsAnnotated then .term else .spine

theorem derives_term {scope : Scope} {t : Term} {s rest : Text} (derives : Derives (phrase t) scope t s rest) :
    Derives .term scope t s rest := by
  unfold phrase at derives
  by_cases binder : t.groupedAsAnnotated = true
  · rwa [if_pos binder] at derives
  · rw [if_neg binder] at derives
    exact .plain derives

theorem derives_grouped {scope : Scope} {t : Term} {wanted : Bool}
    (enough : t.groupedAsAnnotated = true → wanted = true)
    (derives : ∀ rest, rest.head?.any isNameByte = false → Derives (phrase t) scope t (t.print scope ++ rest) rest)
    {rest : Text} (ended : rest.head?.any isNameByte = false) :
    Derives .spine scope t (grouped wanted (t.print scope) ++ rest) rest := by
  cases wanted with
  | true =>
    have inside := derives_term (derives (ascii ")" ++ rest) rfl)
    simp only [grouped, if_true, List.append_assoc]
    exact .group ⟨_, rfl, .none _⟩ inside (.none _)
  | false =>
    have spine : ¬ t.groupedAsAnnotated = true := fun binder => absurd (enough binder) (by decide)
    have bare := derives rest ended
    rw [phrase, if_neg spine] at bare
    exact bare

theorem derives_print {t : Term} : ∀ {scope : Scope}, t.Printable scope → ∀ rest, rest.head?.any isNameByte = false →
    Derives (phrase t) scope t (t.print scope ++ rest) rest := by
  induction t with
  | var index =>
    rintro scope ⟨n, found, valid, other, nearest⟩ rest ended
    have printed : (Term.var index).print scope = n := by rw [Term.print, Term.printVar, Scope.name?, found]
    have read : Derives .spine scope (scope.resolve n) (n ++ rest) rest := .name ⟨valid, rfl, ended⟩ other
    rw [Scope.resolve_var found nearest] at read
    rw [printed]
    exact read
  | ref n =>
    rintro scope ⟨valid, other, free⟩ rest ended
    have read : Derives .spine scope (scope.resolve n) (n ++ rest) rest := .name ⟨valid, rfl, ended⟩ other
    rw [Scope.resolve_ref free] at read
    exact read
  | typ =>
    intro scope _ rest ended
    exact .typ ended
  | all erased self param domain codomain domainIh codomainIh =>
    rintro scope ⟨selfName, valid, domainPrintable, codomainPrintable⟩ rest ended
    have domainAt := derives_term (domainIh domainPrintable
      (erasureMark erased ++ (ascii ") -> " ++ (codomain.print (param :: self :: scope) ++ rest)))
      (head_erasureMark erased _))
    have codomainAt := derives_term (codomainIh codomainPrintable rest ended)
    simp only [Term.print, List.append_assoc]
    exact .all selfName ⟨_, rfl, .none _⟩ ⟨valid, rfl, rfl⟩ (blank_one _) ⟨_, rfl, blank_one _⟩ domainAt
      (mark_erasureMark erased _) ⟨_, rfl, blank_one _⟩ ⟨_, rfl, blank_one _⟩ codomainAt
  | lam erased param body bodyIh =>
    rintro scope ⟨valid, bodyPrintable⟩ rest ended
    have bodyAt := derives_term (bodyIh bodyPrintable rest ended)
    simp only [Term.print, List.append_assoc]
    exact .lam ⟨_, rfl, .none _⟩ ⟨valid, rfl, head_erasureMark erased _⟩ (mark_erasureMark erased _)
      ⟨_, rfl, blank_one _⟩ ⟨_, rfl, blank_one _⟩ bodyAt
  | app erased fn arg fnIh argIh =>
    rintro scope ⟨fnPrintable, argPrintable⟩ rest ended
    have bare : fn.groupedAsAnnotated = true → fn.groupedAsFunction = true := by
      cases fn <;> simp [Term.groupedAsAnnotated, Term.groupedAsFunction]
    have argAt := derives_term (argIh argPrintable _ (head_erasureMark erased rest))
    simp only [Term.print, List.append_assoc]
    exact .app (derives_grouped bare (fnIh fnPrintable) rfl) ⟨_, rfl, .none _⟩ argAt (mark_erasureMark erased _)
  | ann checked type term typeIh termIh =>
    rintro scope ⟨rfl, typePrintable, termPrintable⟩ rest ended
    have typeAt := derives_term (typeIh typePrintable rest ended)
    simp only [Term.print, List.append_assoc]
    exact .ann (derives_grouped id (termIh termPrintable) rfl) (blank_one _) ⟨_, rfl, blank_one _⟩ typeAt

end Parser

end SelfLambda
