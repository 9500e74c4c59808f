import Mathlib.Data.Option.Defs
import SelfLambda.Module
import SelfLambda.Proofs.Term.Nameless
import SelfLambda.Term.Erasure

/-! Terms as an observer sees them. An observer may take binder names for one another, may pass over what computation
never looks at, and knows only some of the references. Terms that are alike to an observer stay alike under shifting,
substitution and erasure; what erasure leaves has no place where the observer could have passed over anything. -/

namespace SelfLambda

structure Observer where
  /-- Binder names that are taken for one another. -/
  confuses : Name → Name → Prop
  /-- Whether erased arguments and annotating types are looked at. -/
  looksAtIrrelevant : Prop
  /-- References that may be met. -/
  knows : Name → Prop
  knows_placeholder : knows (Text.ascii "<erased>")

def Observer.attentive (o : Observer) : Observer := { o with looksAtIrrelevant := True }

namespace Term

/-- The observer knows all references of the two terms and does not tell the terms apart. -/
inductive Alike (o : Observer) : Term → Term → Prop
  | var (index : UInt64) : Alike o (.var index) (.var index)
  | ref {name : Name} (known : o.knows name) : Alike o (.ref name) (.ref name)
  | typ : Alike o .typ .typ
  | all (erased : Bool) {self self' param param' : Name} {domain domain' codomain codomain' : Term}
      (ofSelf : o.confuses self self') (ofParam : o.confuses param param') (ofDomain : Alike o domain domain')
      (ofCodomain : Alike o codomain codomain') :
      Alike o (.all erased self param domain codomain) (.all erased self' param' domain' codomain')
  | lam (erased : Bool) {param param' : Name} {body body' : Term} (ofParam : o.confuses param param')
      (ofBody : Alike o body body') : Alike o (.lam erased param body) (.lam erased param' body')
  | app (erased : Bool) {fn fn' arg arg' : Term} (ofFn : Alike o fn fn')
      (ofArg : erased = false ∨ o.looksAtIrrelevant → Alike o arg arg') :
      Alike o (.app erased fn arg) (.app erased fn' arg')
  | ann (checked : Bool) {type type' term term' : Term} (ofType : o.looksAtIrrelevant → Alike o type type')
      (ofTerm : Alike o term term') : Alike o (.ann checked type term) (.ann checked type' term')

variable {o : Observer} {t t' v v' : Term}

theorem Alike.mapVars {f f' : UInt64 → UInt64 → Term} (leaf : ∀ depth index, (f depth index).Alike o (f' depth index))
    (alike : t.Alike o t') (depth : UInt64) : (t.mapVars f depth).Alike o (t'.mapVars f' depth) := by
  induction alike generalizing depth with
  | var index => exact leaf depth index
  | ref known => exact .ref known
  | typ => exact .typ
  | all erased ofSelf ofParam _ _ domainLaw codomainLaw =>
    exact .all erased ofSelf ofParam (domainLaw (depth + 1)) (codomainLaw (depth + 2))
  | lam erased ofParam _ bodyLaw => exact .lam erased ofParam (bodyLaw (depth + 1))
  | app erased _ _ fnLaw argLaw => exact .app erased (fnLaw depth) (fun seen => argLaw seen depth)
  | ann checked _ _ typeLaw termLaw => exact .ann checked (fun seen => typeLaw seen depth) (termLaw depth)

theorem Alike.shift (alike : t.Alike o t') (inc cutoff : UInt64) : (t.shift inc cutoff).Alike o (t'.shift inc cutoff) := by
  unfold Term.shift
  split
  · exact alike
  · apply alike.mapVars
    intro depth index
    split <;> exact .var _

theorem Alike.subst (alike : t.Alike o t') (ofValue : v.Alike o v') (cutoff : UInt64) :
    (t.subst v cutoff).Alike o (t'.subst v' cutoff) := by
  apply alike.mapVars
  intro depth index
  split
  · exact ofValue.shift depth 0
  · split <;> exact .var _

theorem Alike.placeholder (o : Observer) : Term.placeholder.Alike o Term.placeholder := .ref o.knows_placeholder

/-- Erasure takes away all that an observer may pass over. -/
theorem Alike.erase (alike : t.Alike o t') : t.erase.Alike o.attentive t'.erase := by
  fun_induction Term.erase t generalizing t' with
  | case1 index =>
    cases alike
    rw [Term.erase]
    exact .var index
  | case2 name =>
    cases alike with
    | ref known =>
      rw [Term.erase]
      exact .ref known
  | case3 =>
    cases alike
    rw [Term.erase]
    exact .typ
  | case4 erased self param domain codomain domainLaw codomainLaw =>
    cases alike with
    | all _ ofSelf ofParam ofDomain ofCodomain =>
      rw [Term.erase]
      exact .all erased ofSelf ofParam (domainLaw ofDomain) (codomainLaw ofCodomain)
  | case5 param body bodyLaw =>
    cases alike with
    | lam _ ofParam ofBody =>
      rw [Term.erase]
      exact bodyLaw (ofBody.subst (.placeholder o) 0)
  | case6 param body bodyLaw =>
    cases alike with
    | lam _ ofParam ofBody =>
      rw [Term.erase]
      exact .lam false ofParam (bodyLaw ofBody)
  | case7 fn arg fnLaw =>
    cases alike with
    | app _ ofFn _ =>
      rw [Term.erase]
      exact fnLaw ofFn
  | case8 fn arg fnLaw argLaw =>
    cases alike with
    | app _ ofFn ofArg =>
      rw [Term.erase]
      exact .app false (fnLaw ofFn) (fun _ => argLaw (ofArg (.inl rfl)))
  | case9 checked type term termLaw =>
    cases alike with
    | ann _ _ ofTerm =>
      rw [Term.erase]
      exact termLaw ofTerm

theorem Alike.eq_ref_iff (alike : t.Alike o t') (name : Name) : t = .ref name ↔ t' = .ref name := by
  cases alike <;> simp only [ref.injEq, reduceCtorEq]

theorem Alike.alphaEq (alike : t.Alike o t') (looks : o.looksAtIrrelevant) : t.alphaEq t' = true := by
  rw [alphaEq_iff_nameless]
  induction alike with
  | var index => rfl
  | ref known => rfl
  | typ => rfl
  | all erased _ _ _ _ domainLaw codomainLaw => rw [nameless, nameless, domainLaw, codomainLaw]
  | lam erased _ _ bodyLaw => rw [nameless, nameless, bodyLaw]
  | app erased _ _ fnLaw argLaw => rw [nameless, nameless, fnLaw, argLaw (.inr looks)]
  | ann checked _ _ typeLaw termLaw => rw [nameless, nameless, typeLaw looks, termLaw]

end Term

/-- Of the names that the observer knows both sources define the same, and store terms that are alike. -/
def Definitions.Alike (o : Observer) (defs defs' : Definitions) : Prop :=
  ∀ name, o.knows name → Option.Rel (fun d d' : Definition => d.term.Alike o d'.term) (defs name) (defs' name)

end SelfLambda
