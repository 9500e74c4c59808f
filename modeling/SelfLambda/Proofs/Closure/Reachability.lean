import Mathlib.Data.Set.Basic
import SelfLambda.Proofs.Closure.Lockstep
import SelfLambda.Proofs.Closure.Scoping

/-! Definitions that a term cannot reach have no influence on it. An observer who looks everywhere, but knows only the
names that can be reached, cannot tell two sources apart that store the same under those names; so the runs under both
are one run, and it never asks for a name beyond them. -/

namespace SelfLambda

open Text

def Term.RefersWithin (names : Set Name) (t : Term) : Prop := ∀ name ∈ t.refs, name ∈ names

/-- What is stored under the names, and what stands for erased parameters, leads to no other name. -/
structure Definitions.Encloses (defs : Definitions) (names : Set Name) : Prop where
  placeholder : ascii "<erased>" ∈ names
  stored : ∀ name ∈ names, ∀ d, defs name = some d → d.term.RefersWithin names

def Definitions.AgreeOn (names : Set Name) (defs defs' : Definitions) : Prop :=
  ∀ name ∈ names, (defs name).map Definition.term = (defs' name).map Definition.term

/-- An observer who tells all terms apart and has heard of no other names. -/
def Observer.confined (names : Set Name) (placeholder : ascii "<erased>" ∈ names) : Observer :=
  ⟨Eq, True, (· ∈ names), placeholder⟩

variable {names : Set Name} {placeholder : ascii "<erased>" ∈ names} {defs defs' : Definitions} {t u : Term}

namespace Term

theorem refersWithin_all {erased : Bool} {self param : Name} {domain codomain : Term} :
    (all erased self param domain codomain).RefersWithin names ↔
      domain.RefersWithin names ∧ codomain.RefersWithin names := by
  simp only [RefersWithin, refs, List.mem_append, or_imp, forall_and]

theorem refersWithin_app {erased : Bool} {fn arg : Term} :
    (app erased fn arg).RefersWithin names ↔ fn.RefersWithin names ∧ arg.RefersWithin names := by
  simp only [RefersWithin, refs, List.mem_append, or_imp, forall_and]

theorem refersWithin_ann {checked : Bool} {type term : Term} :
    (ann checked type term).RefersWithin names ↔ type.RefersWithin names ∧ term.RefersWithin names := by
  simp only [RefersWithin, refs, List.mem_append, or_imp, forall_and]

theorem refersWithin_ref {name : Name} : (ref name).RefersWithin names ↔ name ∈ names := by
  simp only [RefersWithin, refs, List.mem_singleton, forall_eq]

theorem RefersWithin.alike (within : t.RefersWithin names) : t.Alike (.confined names placeholder) t := by
  induction t with
  | var index => exact .var index
  | ref name => exact .ref (refersWithin_ref.mp within)
  | typ => exact .typ
  | all erased self param domain codomain domainLaw codomainLaw =>
    obtain ⟨ofDomain, ofCodomain⟩ := refersWithin_all.mp within
    exact .all erased rfl rfl (domainLaw ofDomain) (codomainLaw ofCodomain)
  | lam erased param body bodyLaw => exact .lam erased rfl (bodyLaw within)
  | app erased fn arg fnLaw argLaw =>
    obtain ⟨ofFn, ofArg⟩ := refersWithin_app.mp within
    exact .app erased (fnLaw ofFn) (fun _ => argLaw ofArg)
  | ann checked type term typeLaw termLaw =>
    obtain ⟨ofType, ofTerm⟩ := refersWithin_ann.mp within
    exact .ann checked (fun _ => typeLaw ofType) (termLaw ofTerm)

theorem Alike.of_confined (alike : t.Alike (.confined names placeholder) u) : t = u ∧ t.RefersWithin names := by
  induction alike with
  | var index => exact ⟨rfl, nofun⟩
  | ref known => exact ⟨rfl, refersWithin_ref.mpr known⟩
  | typ => exact ⟨rfl, nofun⟩
  | all erased ofSelf ofParam _ _ domainLaw codomainLaw =>
    obtain ⟨rfl, ofDomain⟩ := domainLaw
    obtain ⟨rfl, ofCodomain⟩ := codomainLaw
    cases ofSelf
    cases ofParam
    exact ⟨rfl, refersWithin_all.mpr ⟨ofDomain, ofCodomain⟩⟩
  | lam erased ofParam _ bodyLaw =>
    obtain ⟨rfl, ofBody⟩ := bodyLaw
    cases ofParam
    exact ⟨rfl, ofBody⟩
  | app erased _ _ fnLaw argLaw =>
    obtain ⟨rfl, ofFn⟩ := fnLaw
    obtain ⟨rfl, ofArg⟩ := argLaw (.inr trivial)
    exact ⟨rfl, refersWithin_app.mpr ⟨ofFn, ofArg⟩⟩
  | ann checked _ _ typeLaw termLaw =>
    obtain ⟨rfl, ofType⟩ := typeLaw trivial
    obtain ⟨rfl, ofTerm⟩ := termLaw
    exact ⟨rfl, refersWithin_ann.mpr ⟨ofType, ofTerm⟩⟩

end Term

theorem Definitions.Encloses.alike (encloses : defs.Encloses names) (agree : defs.AgreeOn names defs') :
    defs.Alike (.confined names placeholder) defs' := by
  intro name known
  have same := agree name known
  cases stored : defs name with
  | none =>
    rw [stored] at same
    rw [Option.map_eq_none_iff.mp same.symm]
    exact .none
  | some d =>
    rw [stored] at same
    obtain ⟨d', stored', sameTerm⟩ := Option.map_eq_some_iff.mp same.symm
    rw [stored']
    refine .some ?_
    rw [sameTerm]
    exact (encloses.stored name known d stored).alike

/-- Runs that a confined observer finds alike are one run, and it asks for known names only, whether it ends or not. -/
theorem Run.Alike.of_confined {run other : Run Term}
    (alike : Run.Alike (.confined names placeholder) (Term.Alike (.confined names placeholder)) run other) :
    run = other ∧ (∀ u asked, run = .ok (u, asked) → u.RefersWithin names) ∧ ∀ name ∈ run.asked, name ∈ names := by
  match run, other, alike with
  | .error stop, .error _, ⟨same, follows⟩ =>
    cases same
    exact ⟨rfl, nofun, follows⟩
  | .ok (u, asked), .ok (_, _), ⟨related, rfl, follows⟩ =>
    obtain ⟨rfl, within⟩ := related.of_confined
    refine ⟨rfl, ?_, follows⟩
    intro _ _ same
    cases same
    exact within

theorem Operation.run_steady (op : Operation) (defs : Definitions) (t : Term) : Run.Steady [] (fun fuel => op.run defs fuel t) := by
  cases op with
  | erase => exact fun _ => .ok _ _
  | evaluate => exact t.weakHead_steady defs []
  | reduce => exact t.reduce_steady defs
  | normalize => exact t.normalize_steady defs

namespace Term

/-- Under two sources that agree on all the names a term can reach, everything that is done with the term goes the same
way, with whatever fuel: it ends or not, with the same result after asking for the same names, and neither the result nor
the names asked for go beyond the names that can be reached. That holds of the names that a run without end asks for, which
are those that it has asked for with some fuel; with more fuel it asks for the same names and then for others. -/
theorem unreachable_definitions_without_influence (encloses : defs.Encloses names) (agree : defs.AgreeOn names defs')
    (within : t.RefersWithin names) (op : Operation) (fuel : Nat) :
    op.run defs fuel t = op.run defs' fuel t ∧
      (∀ u asked, op.run defs fuel t = .ok (u, asked) → u.RefersWithin names) ∧
      (∀ name ∈ (op.run defs fuel t).asked, name ∈ names) ∧
      ∀ fuel', fuel ≤ fuel' → (op.run defs fuel t).asked <:+ (op.run defs fuel' t).asked := by
  have stored : defs.Alike (.confined names encloses.placeholder) defs' := encloses.alike agree
  have alike : t.Alike (.confined names encloses.placeholder) t := within.alike
  have confined : Run.Alike (.confined names encloses.placeholder) (Alike (.confined names encloses.placeholder))
      (op.run defs fuel t) (op.run defs' fuel t) := by
    cases op with
    | erase => exact .ok alike.erase (Observer.follows_nil _)
    | evaluate => exact alike.evaluate stored fuel
    | reduce => exact alike.reduce stored trivial fuel
    | normalize => exact alike.normalize stored fuel
  obtain ⟨same, result, asked⟩ := confined.of_confined
  exact ⟨same, result, asked, fun fuel' more => (op.run_steady defs t more).asked⟩

/-- A stored function with an erased parameter brings in the placeholder, and a stored term asks for itself without end.
The two sources differ in a declared type and in what they store under a name that is not reached. -/
theorem unreachable_definitions_without_influence_placeholder :
    let stored (type : Term) (other : Term) : Definitions := fun name =>
      if name = [107] then some ⟨[107], type, .lam true [120] (.app false (.ref [97]) (.var 0))⟩
      else if name = [119] then some ⟨[119], .typ, .app false (.ref [119]) (.ref [107])⟩
      else if name = [122] then some ⟨[122], .typ, other⟩ else none
    let defs := stored .typ (.app false (.ref [122]) (.ref [122]))
    let defs' := stored (.ref [122]) .typ
    let names : Set Name := {ascii "<erased>", [107], [97], [119]}
    let t : Term := .ref [107]
    let u : Term := .app false (.ref [97]) (.ref (ascii "<erased>"))
    let endless : Term := .app false (.ref [97]) (.ref [119])
    defs.Encloses names ∧ defs.AgreeOn names defs' ∧ t.RefersWithin names ∧ endless.RefersWithin names ∧
      t.normalize defs 9 = .ok (u, [ascii "<erased>", [97], ascii "<erased>", [97], [107]]) ∧
      t.normalize defs 9 = t.normalize defs' 9 ∧ u.RefersWithin names ∧
      endless.evaluate defs 6 = .error ⟨.outOfFuel, [[119], [119], [119], [97]]⟩ ∧
      endless.evaluate defs 6 = endless.evaluate defs' 6 ∧
      ∀ name ∈ [[119], [119], [119], [97]], name ∈ names := by
  intro stored defs defs' names t u endless
  have encloses : defs.Encloses names := by
    refine ⟨.inl rfl, ?_⟩
    rintro name (rfl | rfl | rfl | rfl) d found
    · cases found
    · cases found
      have body : (app false (.ref [97]) (.var 0)).RefersWithin names :=
        refersWithin_app.mpr ⟨refersWithin_ref.mpr (.inr (.inr (.inl rfl))), nofun⟩
      exact body
    · cases found
    · cases found
      exact refersWithin_app.mpr ⟨refersWithin_ref.mpr (.inr (.inr (.inr rfl))), refersWithin_ref.mpr (.inr (.inl rfl))⟩
  have agree : defs.AgreeOn names defs' := by
    rintro name (rfl | rfl | rfl | rfl) <;> rfl
  have within : t.RefersWithin names := refersWithin_ref.mpr (.inr (.inl rfl))
  have withinEndless : endless.RefersWithin names :=
    refersWithin_app.mpr ⟨refersWithin_ref.mpr (.inr (.inr (.inl rfl))), refersWithin_ref.mpr (.inr (.inr (.inr rfl)))⟩
  have done : t.normalize defs 9 = .ok (u, [ascii "<erased>", [97], ascii "<erased>", [97], [107]]) := by
    simp [t, u, defs, stored, placeholder, normalize, Value.ofTerm, Value.ofTermIn, Value.ofVar, Value.normalize,
      Value.weakHead, Value.quote, Run.andThen, Closure.call, consult, unfolding, ascii]
  have stopped : endless.evaluate defs 6 = .error ⟨.outOfFuel, [[119], [119], [119], [97]]⟩ := by
    simp [endless, defs, stored, evaluate, weakHead, Run.andThen, consult, unfolding]
  obtain ⟨same, result, -, -⟩ := unreachable_definitions_without_influence encloses agree within .normalize 9
  obtain ⟨sameEndless, -, asked, -⟩ :=
    unreachable_definitions_without_influence encloses agree withinEndless .evaluate 6
  have sameRun : Operation.evaluate.run defs 6 endless = endless.evaluate defs 6 := rfl
  rw [sameRun, stopped] at asked
  exact ⟨encloses, agree, within, withinEndless, done, same, result u _ done, stopped, sameEndless, asked⟩

end Term

end SelfLambda
