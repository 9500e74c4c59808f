import SelfLambda.Proofs.Reduction.Bare
import SelfLambda.Proofs.Term.Nameless

/-! Erasure as an operation on terms. It calls itself on a body that a substitution has changed, but never made larger, so
every call comes to an end, with nothing left to erase. Without binder names the result is the bare form of the term,
which commutes with renaming and substitution, and so erasure commutes with them too. -/

namespace SelfLambda

theorem Unbounded.bare_point (value : Unbounded) (cutoff : Nat) :
    (fun index => (point value cutoff index).bare) = point value.bare cutoff := by
  funext index
  simp only [point]
  split
  next => rfl
  next => split <;> rfl

namespace Term

/-- Erasing the first term, call by call, ends with the second. -/
inductive Erases : Term → Term → Prop where
  | var (index : UInt64) : Erases (.var index) (.var index)
  | ref (name : Name) : Erases (.ref name) (.ref name)
  | typ : Erases .typ .typ
  | all {domain domain' codomain codomain' : Term} (erased : Bool) (self param : Name) (ofDomain : Erases domain domain')
    (ofCodomain : Erases codomain codomain') :
    Erases (.all erased self param domain codomain) (.all erased self param domain' codomain')
  | instantiate {body u : Term} (param : Name) (ofBody : Erases (body.subst placeholder 0) u) :
    Erases (.lam true param body) u
  | lam {body body' : Term} (param : Name) (ofBody : Erases body body') :
    Erases (.lam false param body) (.lam false param body')
  | drop {fn u : Term} (arg : Term) (ofFn : Erases fn u) : Erases (.app true fn arg) u
  | app {fn fn' arg arg' : Term} (ofFn : Erases fn fn') (ofArg : Erases arg arg') :
    Erases (.app false fn arg) (.app false fn' arg')
  | strip {term u : Term} (checked : Bool) (type : Term) (ofTerm : Erases term u) : Erases (.ann checked type term) u

def Stripped : Term → Prop
  | all _ _ _ domain codomain => domain.Stripped ∧ codomain.Stripped
  | lam erased _ body => erased = false ∧ body.Stripped
  | app erased fn arg => erased = false ∧ fn.Stripped ∧ arg.Stripped
  | ann .. => False
  | _ => True

variable {t u : Term}

theorem erases_erase (t : Term) : Erases t t.erase := by
  fun_induction erase t with
  | case1 index => exact .var index
  | case2 name => exact .ref name
  | case3 => exact .typ
  | case4 erased self param domain codomain domainLaw codomainLaw => exact .all erased self param domainLaw codomainLaw
  | case5 param body bodyLaw => exact .instantiate param bodyLaw
  | case6 param body bodyLaw => exact .lam param bodyLaw
  | case7 fn arg fnLaw => exact .drop arg fnLaw
  | case8 fn arg fnLaw argLaw => exact .app fnLaw argLaw
  | case9 checked type term termLaw => exact .strip checked type termLaw

theorem Erases.eq_erase (erases : Erases t u) : u = t.erase := by
  induction erases with
  | var index => rw [erase]
  | ref name => rw [erase]
  | typ => rw [erase]
  | all erased self param _ _ domainLaw codomainLaw => rw [erase, domainLaw, codomainLaw]
  | instantiate param _ bodyLaw => rw [erase, bodyLaw]
  | lam param _ bodyLaw => rw [erase, bodyLaw]
  | drop arg _ fnLaw => rw [erase, fnLaw]
  | app _ _ fnLaw argLaw => rw [erase, fnLaw, argLaw]
  | strip checked type _ termLaw => rw [erase, termLaw]

theorem Erases.stripped (erases : Erases t u) : u.Stripped := by
  induction erases with
  | var index => trivial
  | ref name => trivial
  | typ => trivial
  | all erased self param _ _ domainLaw codomainLaw => exact ⟨domainLaw, codomainLaw⟩
  | instantiate param _ bodyLaw => exact bodyLaw
  | lam param _ bodyLaw => exact ⟨rfl, bodyLaw⟩
  | drop arg _ fnLaw => exact fnLaw
  | app _ _ fnLaw argLaw => exact ⟨rfl, fnLaw, argLaw⟩
  | strip checked type _ termLaw => exact termLaw

theorem Erases.size_le (erases : Erases t u) : u.size ≤ t.size := by
  induction erases with
  | var index => exact Nat.le_refl _
  | ref name => exact Nat.le_refl _
  | typ => exact Nat.le_refl _
  | all erased self param _ _ domainLaw codomainLaw =>
    simp only [size]
    omega
  | instantiate param _ bodyLaw =>
    rw [size_subst_placeholder] at bodyLaw
    simp only [size]
    omega
  | lam param _ bodyLaw =>
    simp only [size]
    omega
  | drop arg _ fnLaw =>
    simp only [size]
    omega
  | app _ _ fnLaw argLaw =>
    simp only [size]
    omega
  | strip checked type _ termLaw =>
    simp only [size]
    omega

theorem Stripped.erases (stripped : t.Stripped) : Erases t t := by
  induction t with
  | var index => exact .var index
  | ref name => exact .ref name
  | typ => exact .typ
  | all erased self param domain codomain domainLaw codomainLaw =>
    exact .all erased self param (domainLaw stripped.1) (codomainLaw stripped.2)
  | lam erased param body bodyLaw =>
    obtain ⟨rfl, strippedBody⟩ := stripped
    exact .lam param (bodyLaw strippedBody)
  | app erased fn arg fnLaw argLaw =>
    obtain ⟨rfl, strippedFn, strippedArg⟩ := stripped
    exact .app (fnLaw strippedFn) (argLaw strippedArg)
  | ann checked type term => exact stripped.elim

theorem Stripped.mapVars {f : UInt64 → UInt64 → Term} (leaf : ∀ depth index, (f depth index).Stripped)
    (stripped : t.Stripped) (depth : UInt64) : (t.mapVars f depth).Stripped := by
  induction t generalizing depth with
  | var index => exact leaf depth index
  | ref name => trivial
  | typ => trivial
  | all erased self param domain codomain domainLaw codomainLaw =>
    exact ⟨domainLaw stripped.1 _, codomainLaw stripped.2 _⟩
  | lam erased param body bodyLaw => exact ⟨stripped.1, bodyLaw stripped.2 _⟩
  | app erased fn arg fnLaw argLaw => exact ⟨stripped.1, fnLaw stripped.2.1 _, argLaw stripped.2.2 _⟩
  | ann checked type term => exact stripped.elim

theorem Stripped.shift (stripped : t.Stripped) (inc cutoff : UInt64) : (t.shift inc cutoff).Stripped := by
  rw [Term.shift]
  split
  next => exact stripped
  next =>
    refine stripped.mapVars (fun depth index => ?_) 0
    split <;> trivial

theorem Stripped.subst (stripped : t.Stripped) (ofValue : u.Stripped) (cutoff : UInt64) :
    (t.subst u cutoff).Stripped := by
  refine stripped.mapVars (fun depth index => ?_) 0
  split
  next => exact ofValue.shift depth 0
  next => split <;> trivial

theorem Stripped.bare_eq (stripped : t.Stripped) : t.unbounded.bare = t.nameless.unbounded := by
  induction t with
  | var index => rfl
  | ref name => rfl
  | typ => rfl
  | all erased self param domain codomain domainLaw codomainLaw =>
    simp only [nameless, unbounded, Unbounded.bare, domainLaw stripped.1, codomainLaw stripped.2]
  | lam erased param body bodyLaw =>
    obtain ⟨rfl, strippedBody⟩ := stripped
    simp only [nameless, unbounded, Unbounded.bare, bodyLaw strippedBody]
  | app erased fn arg fnLaw argLaw =>
    obtain ⟨rfl, strippedFn, strippedArg⟩ := stripped
    simp only [nameless, unbounded, Unbounded.bare, fnLaw strippedFn, argLaw strippedArg]
  | ann checked type term => exact stripped.elim

theorem Stripped.alphaEq_of_bare (first : t.Stripped) (second : u.Stripped) (same : t.unbounded.bare = u.unbounded.bare) :
    t.alphaEq u = true := by
  rw [first.bare_eq, second.bare_eq] at same
  exact alphaEq_iff_nameless.mpr (unbounded_injective same)

/-- No placeholder is put in at a depth that wraps. -/
def EraseFits : Term → Prop
  | var _ => True
  | ref _ => True
  | typ => True
  | all _ _ _ domain codomain => domain.EraseFits ∧ codomain.EraseFits
  | lam true _ body => body.SubstFits placeholder 0 ∧ (body.subst placeholder 0).EraseFits
  | lam false _ body => body.EraseFits
  | app true fn _ => fn.EraseFits
  | app false fn arg => fn.EraseFits ∧ arg.EraseFits
  | ann _ _ term => term.EraseFits
termination_by t => t.size
decreasing_by all_goals simp only [size_subst_placeholder, size]; omega

theorem bare_erase (fits : t.EraseFits) : t.erase.unbounded.bare = t.unbounded.bare := by
  fun_induction erase t with
  | case1 index => rfl
  | case2 name => rfl
  | case3 => rfl
  | case4 erased self param domain codomain domainLaw codomainLaw =>
    rw [EraseFits] at fits
    simp only [unbounded, Unbounded.bare, domainLaw fits.1, codomainLaw fits.2]
  | case5 param body bodyLaw =>
    rw [EraseFits] at fits
    rw [bodyLaw fits.2, unbounded_subst_zero fits.1, Unbounded.bare_subst_cons]
    rfl
  | case6 param body bodyLaw =>
    rw [EraseFits] at fits
    simp only [unbounded, Unbounded.bare, bodyLaw fits]
  | case7 fn arg fnLaw =>
    rw [EraseFits] at fits
    exact fnLaw fits
  | case8 fn arg fnLaw argLaw =>
    rw [EraseFits] at fits
    simp only [unbounded, Unbounded.bare, fnLaw fits.1, argLaw fits.2]
  | case9 checked type term termLaw =>
    rw [EraseFits] at fits
    exact termLaw fits

/-- No sum wraps on the way to the erasure of a substituted term, by whichever operation comes first. -/
structure EraseSubstFits (t value : Term) (cutoff : UInt64) : Prop where
  subst : t.SubstFits value cutoff
  eraseAfter : (t.subst value cutoff).EraseFits
  erase : t.EraseFits
  eraseValue : value.EraseFits
  substAfter : t.erase.SubstFits value.erase cutoff

structure EraseShiftFits (t : Term) (inc cutoff : UInt64) : Prop where
  shift : t.ShiftFits inc cutoff
  eraseAfter : (t.shift inc cutoff).EraseFits
  erase : t.EraseFits
  shiftAfter : t.erase.ShiftFits inc cutoff

theorem erase_subst {value : Term} {cutoff : UInt64} (fits : t.EraseSubstFits value cutoff) :
    (t.subst value cutoff).erase.alphaEq (t.erase.subst value.erase cutoff) = true := by
  have ofTerm := (erases_erase t).stripped
  have ofValue := (erases_erase value).stripped
  refine (erases_erase _).stripped.alphaEq_of_bare (ofTerm.subst ofValue cutoff) ?_
  rw [bare_erase fits.eraseAfter, unbounded_subst fits.subst, unbounded_subst fits.substAfter, Unbounded.bare_subst,
    Unbounded.bare_subst, Unbounded.bare_point, Unbounded.bare_point, bare_erase fits.erase, bare_erase fits.eraseValue]

theorem erase_shift {inc cutoff : UInt64} (fits : t.EraseShiftFits inc cutoff) :
    (t.shift inc cutoff).erase.alphaEq (t.erase.shift inc cutoff) = true := by
  have ofTerm := (erases_erase t).stripped
  refine (erases_erase _).stripped.alphaEq_of_bare (ofTerm.shift inc cutoff) ?_
  rw [bare_erase fits.eraseAfter, unbounded_shift fits.shift, unbounded_shift fits.shiftAfter, Unbounded.bare_rename,
    Unbounded.bare_rename, bare_erase fits.erase]

theorem wordSize_erase_le (small : t.size < UInt64.size) : t.erase.wordSize ≤ t.wordSize := by
  have fewer : t.erase.size ≤ t.size := (erases_erase t).size_le
  rw [UInt64.le_iff_toNat_le, toNat_wordSize small, toNat_wordSize (Nat.lt_of_le_of_lt fewer small)]
  exact fewer

/-- Erasing comes to an end from every term, with one result; this has nothing left to erase, no more nodes than the term,
also where they are counted in words that do not wrap, and is its own erasure. Erasure commutes with substitution and with
shifting. -/
theorem erasure_total_and_substitutive :
    (∀ t : Term, (∀ u, Erases t u ↔ u = t.erase) ∧ t.erase.Stripped ∧ t.erase.size ≤ t.size ∧ t.erase.erase = t.erase ∧
        (t.size < UInt64.size → t.erase.wordSize ≤ t.wordSize)) ∧
      (∀ (t value : Term) (cutoff : UInt64), t.EraseSubstFits value cutoff →
        (t.subst value cutoff).erase.alphaEq (t.erase.subst value.erase cutoff) = true) ∧
      ∀ (t : Term) (inc cutoff : UInt64), t.EraseShiftFits inc cutoff →
        (t.shift inc cutoff).erase.alphaEq (t.erase.shift inc cutoff) = true := by
  refine ⟨fun t => ?_, fun t value cutoff fits => erase_subst fits, fun t inc cutoff fits => erase_shift fits⟩
  have erases := erases_erase t
  have ends : ∀ u, Erases t u ↔ u = t.erase := fun u => ⟨Erases.eq_erase, fun same => same ▸ erases⟩
  exact ⟨ends, erases.stripped, erases.size_le, erases.stripped.erases.eq_erase.symm, wordSize_erase_le⟩

/-- An erased function and an erased argument around the variable that is replaced, by a value that has an annotation and
an erased function of its own. -/
theorem erasure_total_and_substitutive_nested :
    let t : Term := .lam true [120] (.lam false [121] (.app true (.app false (.var 2) (.var 1)) (.var 5)))
    let value : Term := .ann false .typ (.lam true [122] (.var 3))
    t.EraseSubstFits value 0 ∧ t.EraseShiftFits 7 0 ∧ t.erase.Stripped ∧ t.size < UInt64.size ∧
      t.erase.wordSize ≤ t.wordSize ∧
      t.erase = .lam false [121] (.app false (.var 1) placeholder) ∧
      (t.subst value 0).erase.alphaEq (.lam false [121] (.app false (.var 3) placeholder)) = true ∧
      (t.shift 7 0).erase.alphaEq (.lam false [121] (.app false (.var 8) placeholder)) = true := by
  intro t value
  have erased : t.erase = .lam false [121] (.app false (.var 1) placeholder) := by
    simp [t, erase, subst, mapVars, placeholder]
  have erasedValue : value.erase = .var 2 := by
    simp [value, erase, subst, mapVars]
  have substFits : t.EraseSubstFits value 0 := by
    constructor
    case substAfter =>
      rw [erased, erasedValue]
      simp [SubstFits, ShiftFits, EachVar, placeholder, UInt64.size]
    all_goals
      simp [t, value, SubstFits, ShiftFits, EraseFits, EachVar, subst, shift, mapVars, placeholder, UInt64.size]
  have shiftFits : t.EraseShiftFits 7 0 := by
    constructor
    case shiftAfter =>
      rw [erased]
      simp [ShiftFits, EachVar, placeholder, UInt64.size]
    all_goals
      simp [t, SubstFits, ShiftFits, EraseFits, EachVar, subst, shift, mapVars, placeholder, UInt64.size]
  have small : t.size < UInt64.size := by decide
  obtain ⟨total, ofSubst, ofShift⟩ := erasure_total_and_substitutive
  obtain ⟨-, stripped, -, -, words⟩ := total t
  have substituted := ofSubst t value 0 substFits
  have shifted := ofShift t 7 0 shiftFits
  rw [erased, erasedValue] at substituted
  rw [erased] at shifted
  exact ⟨substFits, shiftFits, stripped, small, words small, erased, substituted, shifted⟩

end Term

end SelfLambda
