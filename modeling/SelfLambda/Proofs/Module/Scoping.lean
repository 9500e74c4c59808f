import SelfLambda.Proofs.Closure.Scoping
import SelfLambda.Proofs.Module.Loading

/-! Scoping from source to output. What is read as a whole term is closed, loaded modules store closed terms only, and no
operation on a closed term over a loaded module lets a variable escape; so every variable that is printed has a name. -/

namespace SelfLambda

open Text

theorem Scope.freeBelow_resolve (scope : Scope) (n : Name) : (scope.resolve n).FreeBelow scope.length := by
  obtain ⟨index, found, -, resolved⟩ | ⟨-, resolved⟩ := scope.resolve_cases n
  · obtain ⟨inside, -⟩ := List.getElem?_eq_some_iff.mp found
    rw [resolved, Term.freeBelow_var]
    exact Nat.lt_of_le_of_lt (Term.toNat_ofNat_le index) inside
  · rw [resolved]
    trivial

/-- The tree of a phrase has its free variables in the scope. -/
theorem Parser.Derives.freeBelow {phrase : Phrase} {scope : Scope} {t : Term} {s rest : Text}
    (derives : Derives phrase scope t s rest) : t.FreeBelow scope.length := by
  induction derives with
  | all _ _ _ _ _ _ _ _ _ _ ofDomain ofCodomain => exact Term.freeBelow_all.mpr ⟨ofDomain, ofCodomain⟩
  | lam _ _ _ _ _ _ ofBody => exact Term.freeBelow_lam.mpr ofBody
  | plain _ ofSpine => exact ofSpine
  | ann _ _ _ _ ofTerm ofType => exact ⟨ofType, ofTerm⟩
  | typ => trivial
  | @name scope n => exact scope.freeBelow_resolve n
  | group _ _ _ ofTerm => exact ofTerm
  | app _ _ _ _ ofFn ofArg => exact ⟨ofFn, ofArg⟩

theorem Term.closed_of_parse? {s : Text} {t : Term} (read : Term.parse? [] s = some t) : t.Closed := by
  obtain ⟨start, rest, -, derives, -⟩ := Parser.spelt_of_parse? read
  exact derives.freeBelow

theorem Definition.StandsIn.closed {d : Definition} {s : Text} (stands : d.StandsIn s) :
    d.type.Closed ∧ d.term.Closed := by
  obtain ⟨start, rest, -, read⟩ := stands
  obtain ⟨s1, s2, s3, -, -, typeRead, termRead⟩ := Parser.definition_eq_some_iff.mp read
  exact ⟨(Parser.derives_of_term typeRead).freeBelow, (Parser.derives_of_term termRead).freeBelow⟩

namespace Module

variable {sources : List Text}

theorem closed_of_mem_loadAll {d : Definition} (member : d ∈ (loadAll {} sources).entries) :
    d.type.Closed ∧ d.term.Closed := by
  obtain ⟨s, -, stands⟩ := standsIn_of_mem_loadAll member
  exact stands.closed

theorem closed_of_find?_loadAll (name : Name) (d : Definition) (found : (loadAll {} sources).find? name = some d) :
    d.term.Closed :=
  (closed_of_mem_loadAll (List.mem_of_find?_eq_some found)).2

/-- Terms that are read and terms that are stored are closed; over any closed definitions, those of a loaded module
among them, every operation keeps the bound of the free variables and finds every level in scope; and where there are no
free variables, the printed text does not depend on what stands for a variable beyond the scope. -/
theorem no_variable_escapes :
    (∀ s t, Term.parse? [] s = some t → t.Closed) ∧
      (∀ sources, ∀ d ∈ (loadAll {} sources).entries, d.type.Closed ∧ d.term.Closed) ∧
      (∀ sources (op : Operation) fuel (t : Term), t.Closed → op.DepthsFit (loadAll {} sources).find? fuel t →
        (∀ asked, op.run (loadAll {} sources).find? fuel t ≠ .error ⟨.levelOutOfScope, asked⟩) ∧
          ∀ u asked, op.run (loadAll {} sources).find? fuel t = .ok (u, asked) →
            u.Closed ∧ ∀ beyond, u.printWith beyond [] = u.print []) ∧
      ∀ defs : Definitions, (∀ name d, defs name = some d → d.term.Closed) →
        ∀ (op : Operation) fuel bound (t : Term), t.FreeBelow bound → op.DepthsFit defs fuel t →
          (∀ asked, op.run defs fuel t ≠ .error ⟨.levelOutOfScope, asked⟩) ∧
            ∀ u asked, op.run defs fuel t = .ok (u, asked) → u.FreeBelow bound := by
  refine ⟨fun s t => Term.closed_of_parse?, fun sources d => closed_of_mem_loadAll, ?_, ?_⟩
  · intro sources op fuel t closed fits
    have safe := op.safe closed_of_find?_loadAll closed fits
    refine ⟨safe.ne_levelOutOfScope, ?_⟩
    intro u asked done
    have closed : u.Closed := safe.result done
    exact ⟨closed, closed.printWith_eq⟩
  · intro defs closed op fuel bound t below fits
    have safe := op.safe closed below fits
    exact ⟨safe.ne_levelOutOfScope, fun u asked done => safe.result done⟩

/-- A stored function is called under a binder, over a module that the second source did not change. -/
theorem no_variable_escapes_constant :
    let m := loadAll {} [ascii "k : Type (x) => (y) => x", ascii "("]
    let t : Term := .lam false (ascii "z") (.app false (.ref (ascii "k")) (.var 0))
    let u : Term := .lam false (ascii "z") (.lam false (ascii "y") (.var 1))
    Term.parse? [] (ascii "(z) => k(z)") = some t ∧ t.Closed ∧ Operation.normalize.DepthsFit m.find? 9 t ∧
      Operation.normalize.run m.find? 9 t = .ok (u, [ascii "k"]) ∧ u.Closed ∧
      ∀ beyond, u.printWith beyond [] = u.print [] := by
  intro m t u
  have read : Term.parse? [] (ascii "(z) => k(z)") = some t := by decide +kernel
  have entries : m = ⟨[⟨ascii "k", .typ, .lam false (ascii "x") (.lam false (ascii "y") (.var 1))⟩]⟩ := by
    decide +kernel
  have fits : Operation.normalize.DepthsFit m.find? 9 t := by
    simp [entries, t, Operation.DepthsFit, UInt64.size, find?, Value.ofTerm, Value.ofTermIn, Value.ofVar,
      Value.NormalizeFits, Value.normalize, Value.WeakHeadFits, Value.weakHead, Run.Ensures, Run.andThen, Closure.call,
      Closure.CallFits, Value.QuoteDepthsFit, Closure.normalized, consult, unfolding]
  have done : Operation.normalize.run m.find? 9 t = .ok (u, [ascii "k"]) := by
    simp [entries, t, u, Operation.run, find?, Term.normalize, Value.ofTerm, Value.ofTermIn, Value.ofVar, Value.normalize,
      Value.weakHead, Value.quote, Run.andThen, Closure.call, Closure.normalized, consult, unfolding]
  obtain ⟨closed, -, kept, -⟩ := no_variable_escapes
  obtain ⟨-, results⟩ := kept _ .normalize 9 t (closed _ t read) fits
  exact ⟨read, closed _ t read, fits, done, results u _ done⟩

end Module

end SelfLambda
