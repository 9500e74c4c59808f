import SelfLambda.Proofs.Closure.Lockstep

/-! Binder names are for printing only. Terms that are equal up to binder names are what an observer confuses who looks
everywhere and takes all binder names for one another, so everything that is done with them goes in lockstep. -/

namespace SelfLambda

/-- An observer who sees all of a term but its binder names. -/
def Observer.nameless : Observer := ⟨fun _ _ => True, True, fun _ => True, trivial⟩

def Definitions.SameUpToNames (defs defs' : Definitions) : Prop :=
  ∀ name, Option.Rel (fun d d' : Definition => d.term.alphaEq d'.term = true) (defs name) (defs' name)

namespace Term

theorem alike_of_nameless_eq {t u : Term} (same : t.nameless = u.nameless) : t.Alike .nameless u := by
  induction t generalizing u with
  | var index =>
    cases u <;> simp only [nameless, var.injEq, reduceCtorEq] at same
    exact same ▸ .var index
  | ref name =>
    cases u <;> simp only [nameless, ref.injEq, reduceCtorEq] at same
    exact same ▸ .ref trivial
  | typ =>
    cases u <;> simp only [nameless, reduceCtorEq] at same
    exact .typ
  | all erased self param domain codomain domainLaw codomainLaw =>
    cases u <;> simp only [nameless, all.injEq, reduceCtorEq] at same
    obtain ⟨rfl, -, -, sameDomain, sameCodomain⟩ := same
    exact .all erased trivial trivial (domainLaw sameDomain) (codomainLaw sameCodomain)
  | lam erased param body bodyLaw =>
    cases u <;> simp only [nameless, lam.injEq, reduceCtorEq] at same
    obtain ⟨rfl, -, sameBody⟩ := same
    exact .lam erased trivial (bodyLaw sameBody)
  | app erased fn arg fnLaw argLaw =>
    cases u <;> simp only [nameless, app.injEq, reduceCtorEq] at same
    obtain ⟨rfl, sameFn, sameArg⟩ := same
    exact .app erased (fnLaw sameFn) (fun _ => argLaw sameArg)
  | ann checked type term typeLaw termLaw =>
    cases u <;> simp only [nameless, ann.injEq, reduceCtorEq] at same
    obtain ⟨rfl, sameType, sameTerm⟩ := same
    exact .ann checked (fun _ => typeLaw sameType) (termLaw sameTerm)

theorem alike_nameless_iff {t u : Term} : t.Alike .nameless u ↔ t.alphaEq u = true :=
  ⟨fun alike => alike.alphaEq trivial, fun same => alike_of_nameless_eq (alphaEq_iff_nameless.mp same)⟩

end Term

theorem Definitions.SameUpToNames.alike {defs defs' : Definitions} (stored : defs.SameUpToNames defs') :
    defs.Alike .nameless defs' := by
  intro name _
  simp only [Term.alike_nameless_iff]
  exact stored name

theorem Run.SameOutcomes.up_to_names {start : Trace} {run other : Nat → Run Term} (steady : Steady start other)
    (alike : ∀ fuel, Run.Alike .nameless (Term.Alike .nameless) (run fuel) (other fuel)) :
    SameOutcomes (fun n n' => n.alphaEq n' = true) run other :=
  (SameOutcomes.of_alike steady alike).imp fun _ _ => Term.alike_nameless_iff.mp

namespace Term

/-- Equality up to binder names is an equivalence that everything respects: the digest over any digest of references, the
size, shifting, substitution, erasure, and evaluation, reduction and normalization under sources that are equal up to
binder names themselves. -/
theorem binder_names_irrelevant :
    Equivalence (fun t u : Term => t.alphaEq u = true) ∧
      ∀ {defs defs' : Definitions}, defs.SameUpToNames defs' → ∀ {t t' v v' : Term}, t.alphaEq t' = true →
        v.alphaEq v' = true →
        (∀ ofName, t.digest ofName = t'.digest ofName) ∧ t.size = t'.size ∧
        (∀ inc cutoff, (t.shift inc cutoff).alphaEq (t'.shift inc cutoff) = true) ∧
        (∀ cutoff, (t.subst v cutoff).alphaEq (t'.subst v' cutoff) = true) ∧ t.erase.alphaEq t'.erase = true ∧
        Run.SameOutcomes (fun n n' => n.alphaEq n' = true) (fun fuel => t.evaluate defs fuel)
          (fun fuel => t'.evaluate defs' fuel) ∧
        Run.SameOutcomes (fun n n' => n.alphaEq n' = true) (fun fuel => t.reduce defs fuel)
          (fun fuel => t'.reduce defs' fuel) ∧
        Run.SameOutcomes (fun n n' => n.alphaEq n' = true) (fun fuel => t.normalize defs fuel)
          (fun fuel => t'.normalize defs' fuel) := by
  refine ⟨alphaEq_equivalence, fun {defs defs'} sameStored {t t' v v'} same sameValue => ?_⟩
  have stored := sameStored.alike
  -- digest and size are read off the term without its names; all else follows the observer
  have nameless := alphaEq_iff_nameless.mp same
  have alike := alike_nameless_iff.mpr same
  have ofValue := alike_nameless_iff.mpr sameValue
  refine ⟨fun ofName => ?_, ?_, fun inc cutoff => ?_, fun cutoff => ?_, ?_, ?_, ?_, ?_⟩
  · rw [← digest_nameless, nameless, digest_nameless]
  · rw [← size_nameless, nameless, size_nameless]
  · exact (alike.shift inc cutoff).alphaEq trivial
  · exact (alike.subst ofValue cutoff).alphaEq trivial
  · exact alike.erase.alphaEq trivial
  · exact .up_to_names (t'.weakHead_steady defs' []) (alike.evaluate stored)
  · exact .up_to_names (t'.reduce_steady defs') (alike.reduce stored trivial)
  · exact .up_to_names (t'.normalize_steady defs') (alike.normalize stored)

/-- A stored constant function is called under a binder; the two sources and the two terms name all binders differently. -/
theorem binder_names_irrelevant_renamed :
    let source (outer inner : Name) : Definitions := fun name =>
      if name = [107] then some ⟨[107], .typ, .lam false outer (.lam false inner (.var 1))⟩ else none
    let t (param : Name) : Term := .lam false param (.app false (.ref [107]) (.var 0))
    (source [120] [121]).SameUpToNames (source [97] [98]) ∧ (t [120]).alphaEq (t [122]) = true ∧ t [120] ≠ t [122] ∧
      (t [120]).normalize (source [120] [121]) 9 = .ok (.lam false [120] (.lam false [121] (.var 1)), [[107]]) ∧
      (∀ ofName, (t [120]).digest ofName = (t [122]).digest ofName) ∧
      Run.SameOutcomes (fun n n' => n.alphaEq n' = true) (fun fuel => (t [120]).normalize (source [120] [121]) fuel)
        (fun fuel => (t [122]).normalize (source [97] [98]) fuel) := by
  intro source t
  have stored : (source [120] [121]).SameUpToNames (source [97] [98]) := by
    intro name
    by_cases defined : name = [107]
    · simp only [source, defined, if_true]
      exact .some rfl
    · simp only [source, defined, if_false]
      exact .none
  have same : (t [120]).alphaEq (t [122]) = true := rfl
  have done : (t [120]).normalize (source [120] [121]) 9 =
      .ok (.lam false [120] (.lam false [121] (.var 1)), [[107]]) := by
    simp [t, source, normalize, Value.ofTerm, Value.ofTermIn, Value.ofVar, Value.normalize, Value.weakHead,
      Value.quote, Run.andThen, Closure.call, Closure.normalized, consult, unfolding]
  obtain ⟨digests, -, -, -, -, -, -, outcomes⟩ := binder_names_irrelevant.2 stored same same
  exact ⟨stored, same, by decide, done, digests, outcomes⟩

end Term

end SelfLambda
