import SelfLambda.Proofs.Closure.BigStep

/-! Normalization against reduction. Terms that reduce to one another have one normal form, because reduction is
confluent and a normal term has no step left; and the normal form that is computed is reached by steps. So comparing
normal forms never tells terms apart that reduction connects. -/

namespace SelfLambda

open Run

namespace Term

theorem Normal.irreducible {defs : Definitions} {n : Term} (normal : n.Normal defs) (u : Unbounded) :
    ¬ Unbounded.Step defs.stored n.unbounded u := by
  intro step
  induction n generalizing u with
  | var index => cases step
  | ref name =>
    cases step with
    | unfold found =>
      rw [Definitions.stored_eq_none.mpr normal] at found
      cases found
  | typ => cases step
  | all erased self param domain codomain domainLaw codomainLaw =>
    cases step with
    | domain step => exact domainLaw normal.1 _ step
    | codomain step => exact codomainLaw normal.2 _ step
  | lam erased param body bodyLaw =>
    obtain ⟨rfl, normal⟩ := normal
    cases step with
    | body step => exact bodyLaw normal _ step
  | app erased fn arg fnLaw argLaw =>
    obtain ⟨rfl, stuck, normalFn, normalArg⟩ := normal
    cases fn with
    | lam erased param body => exact stuck trivial
    | _ =>
      cases step with
      | fn step => exact fnLaw normalFn _ step
      | arg step => exact argLaw normalArg _ step
  | ann checked type term => exact normal.elim

/-- Over definitions that store closed terms, a term and whatever it reduces to normalize to the same term, and that
term is reached by steps: over numbers always, and over words where the substitutions on the way form no sum that
wraps. -/
theorem normalize_sound_for_reduction (defs : Definitions) (closed : ∀ name d, defs name = some d → d.term.Closed)
    (t : Term) (fits : t.NormalizeFits defs) :
    (∀ u, Reduces defs t u → u.NormalizeFits defs → ∀ fuel fuel' n n' asked asked',
      t.normalize defs fuel = .ok (n, asked) → u.normalize defs fuel' = .ok (n', asked') → n = n') ∧
    ∀ fuel n asked, t.normalize defs fuel = .ok (n, asked) →
      Unbounded.Reduces defs.stored t.unbounded n.unbounded ∧ (t.NormalFormFits defs → Reduces defs t n) := by
  constructor
  · intro u reduces fits' fuel fuel' n n' asked asked' done done'
    have first := (normalizes_of_normalize closed fits done).reduces
    have second := reduces.unbounded.trans (normalizes_of_normalize closed fits' done').reduces
    exact unbounded_injective (first.unique (Definitions.storesClosed closed) second
      (normal_of_normalize done).irreducible (normal_of_normalize done').irreducible)
  · intro fuel n asked done
    refine ⟨(normalizes_of_normalize closed fits done).reduces, fun normalFormFits => ?_⟩
    -- closures form fewer sums than substitution, so over words the steps are those of the run by substitution
    obtain ⟨n', askedForm, ends⟩ := normalForm_of_normalize closed fits normalFormFits done
    obtain ⟨enough, rebuilt⟩ := ends.exists
    obtain ⟨_, ends'⟩ := normalize_of_normalForm closed fits normalFormFits rebuilt
    obtain ⟨rfl, -⟩ := (ends_of_ok (t.normalize_steady defs) done).unique ends'
    exact reduces_of_rebuild (normalFormFits enough) rebuilt

/-- Two steps away from the head, one of them under two binders: a stored identity is unfolded and the annotation of a
free variable goes. -/
theorem normalize_sound_for_reduction_inner :
    let defs : Definitions := fun name =>
      if name = [105] then some ⟨[105], .typ, .lam false [122] (.var 0)⟩ else none
    let t : Term :=
      .app false (.lam false [120] (.lam false [121] (.app false (.ref [105]) (.var 1)))) (.ann false .typ (.var 5))
    let u : Term :=
      .app false (.lam false [120] (.lam false [121] (.app false (.lam false [122] (.var 0)) (.var 1)))) (.var 5)
    let n : Term := .lam false [121] (.var 6)
    (∀ name d, defs name = some d → d.term.Closed) ∧ t.NormalizeFits defs ∧ u.NormalizeFits defs ∧ Reduces defs t u ∧
      t.normalize defs 7 = .ok (n, [[105]]) ∧ u.normalize defs 7 = .ok (n, []) ∧
      (∀ fuel n' asked, u.normalize defs fuel = .ok (n', asked) → n = n') ∧ Reduces defs t n := by
  intro defs t u n
  have closed : ∀ name d, defs name = some d → d.term.Closed := Definitions.closed_of_single Nat.zero_lt_one
  have fits : t.NormalizeFits defs := by
    rintro (_ | _ | _ | _ | _ | _ | fuel) <;>
      simp [t, defs, UInt64.size, Value.ofTerm, Value.ofTermIn, Value.ofVar, Value.NormalizeFits, Value.normalize,
        Value.WeakHeadFits, Value.weakHead, Run.Ensures, Run.andThen, Closure.call, Closure.CallFits, Value.QuoteFits,
        Closure.normalized, consult, unfolding]
  have fits' : u.NormalizeFits defs := by
    rintro (_ | _ | _ | _ | _ | fuel) <;>
      simp [u, UInt64.size, Value.ofTerm, Value.ofTermIn, Value.ofVar, Value.NormalizeFits, Value.normalize,
        Value.WeakHeadFits, Value.weakHead, Run.Ensures, Run.andThen, Closure.call, Closure.CallFits, Value.QuoteFits,
        Closure.normalized]
  have normalFormFits : t.NormalFormFits defs := by
    rintro (_ | _ | _ | _ | _ | fuel) <;>
      simp [t, defs, UInt64.size, RebuildFits, WeakHeadFits, weakHead, Run.Ensures, Run.andThen, consult, unfolding,
        SubstFits, EachVar, ShiftFits, subst, mapVars, shift]
  have reduces : Reduces defs t u :=
    .head (.fn (.body (.body (.fn (.unfold rfl))))) (.single (.arg (.strip _ _ _)))
  have done : t.normalize defs 7 = .ok (n, [[105]]) := by
    simp [t, n, defs, normalize, Value.ofTerm, Value.ofTermIn, Value.ofVar, Value.normalize, Value.weakHead,
      Value.quote, Run.andThen, Closure.call, Closure.normalized, consult, unfolding]
  have done' : u.normalize defs 7 = .ok (n, []) := by
    simp [u, n, normalize, Value.ofTerm, Value.ofTermIn, Value.ofVar, Value.normalize, Value.weakHead,
      Value.quote, Run.andThen, Closure.call, Closure.normalized]
  obtain ⟨same, reached⟩ := normalize_sound_for_reduction defs closed t fits
  exact ⟨closed, fits, fits', reduces, done, done', fun _ _ _ => same u reduces fits' _ _ _ _ _ _ done,
    (reached _ _ _ done).2 normalFormFits⟩

end Term

end SelfLambda
