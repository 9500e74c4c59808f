import SelfLambda.Term.Basic

/-! Terms without binder names. Equality up to binder names is equality of what is left without them, so facts about
that relation are facts about plain equality. -/

namespace SelfLambda

namespace Term

def nameless : Term → Term
  | var index => var index
  | ref name => ref name
  | typ => typ
  | all erased _ _ domain codomain => all erased [] [] domain.nameless codomain.nameless
  | lam erased _ body => lam erased [] body.nameless
  | app erased fn arg => app erased fn.nameless arg.nameless
  | ann checked type term => ann checked type.nameless term.nameless

theorem alphaEq_iff_nameless {t u : Term} : t.alphaEq u = true ↔ t.nameless = u.nameless := by
  induction t generalizing u with
  | var i =>
    cases u with
    | var j =>
      change (i == j) = true ↔ var i = var j
      rw [beq_iff_eq, var.injEq]
    | _ => exact ⟨nofun, nofun⟩
  | ref a =>
    cases u with
    | ref b =>
      change (a == b) = true ↔ ref a = ref b
      rw [beq_iff_eq, ref.injEq]
    | _ => exact ⟨nofun, nofun⟩
  | typ =>
    cases u with
    | typ => exact ⟨fun _ => rfl, fun _ => rfl⟩
    | _ => exact ⟨nofun, nofun⟩
  | all e self param domain codomain domainLaw codomainLaw =>
    cases u with
    | all e' self' param' domain' codomain' =>
      change (e == e' && domain.alphaEq domain' && codomain.alphaEq codomain') = true ↔
        all e [] [] domain.nameless codomain.nameless = all e' [] [] domain'.nameless codomain'.nameless
      simp only [Bool.and_eq_true, beq_iff_eq, domainLaw, codomainLaw, all.injEq, true_and, and_assoc]
    | _ => exact ⟨nofun, nofun⟩
  | lam e param body bodyLaw =>
    cases u with
    | lam e' param' body' =>
      change (e == e' && body.alphaEq body') = true ↔ lam e [] body.nameless = lam e' [] body'.nameless
      simp only [Bool.and_eq_true, beq_iff_eq, bodyLaw, lam.injEq, true_and]
    | _ => exact ⟨nofun, nofun⟩
  | app e fn arg fnLaw argLaw =>
    cases u with
    | app e' fn' arg' =>
      change (e == e' && fn.alphaEq fn' && arg.alphaEq arg') = true ↔
        app e fn.nameless arg.nameless = app e' fn'.nameless arg'.nameless
      simp only [Bool.and_eq_true, beq_iff_eq, fnLaw, argLaw, app.injEq, and_assoc]
    | _ => exact ⟨nofun, nofun⟩
  | ann c type term typeLaw termLaw =>
    cases u with
    | ann c' type' term' =>
      change (c == c' && type.alphaEq type' && term.alphaEq term') = true ↔
        ann c type.nameless term.nameless = ann c' type'.nameless term'.nameless
      simp only [Bool.and_eq_true, beq_iff_eq, typeLaw, termLaw, ann.injEq, and_assoc]
    | _ => exact ⟨nofun, nofun⟩

theorem alphaEq_equivalence : Equivalence fun t u : Term => t.alphaEq u = true where
  refl _ := alphaEq_iff_nameless.mpr rfl
  symm same := alphaEq_iff_nameless.mpr (alphaEq_iff_nameless.mp same).symm
  trans first second := alphaEq_iff_nameless.mpr ((alphaEq_iff_nameless.mp first).trans (alphaEq_iff_nameless.mp second))

theorem size_nameless (t : Term) : t.nameless.size = t.size := by
  induction t with
  | var index => rfl
  | ref name => rfl
  | typ => rfl
  | all erased self param domain codomain domainLaw codomainLaw => rw [nameless, size, size, domainLaw, codomainLaw]
  | lam erased param body bodyLaw => rw [nameless, size, size, bodyLaw]
  | app erased fn arg fnLaw argLaw => rw [nameless, size, size, fnLaw, argLaw]
  | ann checked type term typeLaw termLaw => rw [nameless, size, size, typeLaw, termLaw]

theorem digest_nameless (ofName : Name → UInt64) (t : Term) : t.nameless.digest ofName = t.digest ofName := by
  induction t with
  | var index => rfl
  | ref name => rfl
  | typ => rfl
  | all erased self param domain codomain domainLaw codomainLaw =>
    rw [nameless, digest, digest, domainLaw, codomainLaw]
  | lam erased param body bodyLaw => rw [nameless, digest, digest, bodyLaw]
  | app erased fn arg fnLaw argLaw => rw [nameless, digest, digest, fnLaw, argLaw]
  | ann checked type term typeLaw termLaw => rw [nameless, digest, digest, typeLaw, termLaw]

end Term

end SelfLambda
