import SelfLambda.Proofs.Closure.BigStep
import SelfLambda.Proofs.Term.Erasure

/-! Erasure keeps the meaning of terms. Erasing takes nothing away that the bare form of a term still has, so a term and
its erasure normalize alike, and so do any two terms whose erasures differ in binder names only. -/

namespace SelfLambda

namespace Term

theorem bare_nameless (t : Term) : t.nameless.unbounded.bare = t.unbounded.bare := by
  induction t with
  | var index => rfl
  | ref name => rfl
  | typ => rfl
  | all erased self param domain codomain domainLaw codomainLaw =>
    simp only [nameless, unbounded, Unbounded.bare, domainLaw, codomainLaw]
  | lam erased param body bodyLaw => cases erased <;> simp only [nameless, unbounded, Unbounded.bare, bodyLaw]
  | app erased fn arg fnLaw argLaw => cases erased <;> simp only [nameless, unbounded, Unbounded.bare, fnLaw, argLaw]
  | ann checked type term typeLaw termLaw => simp only [nameless, unbounded, Unbounded.bare, termLaw]

variable {defs : Definitions} {t t' n : Term} {m : Unbounded}

theorem Normal.words_bare (normal : m.words.Normal defs) : m.bare.words = m.words.nameless := by
  induction m with
  | var index => rfl
  | ref name => rfl
  | typ => rfl
  | all erased self param domain codomain domainLaw codomainLaw =>
    simp only [Unbounded.bare, Unbounded.words, nameless, domainLaw normal.1, codomainLaw normal.2]
  | lam erased param body bodyLaw =>
    obtain ⟨rfl, normalBody⟩ := normal
    simp only [Unbounded.bare, Unbounded.words, nameless, bodyLaw normalBody]
  | app erased fn arg fnLaw argLaw =>
    obtain ⟨rfl, -, normalFn, normalArg⟩ := normal
    simp only [Unbounded.bare, Unbounded.words, nameless, fnLaw normalFn, argLaw normalArg]
  | ann checked type term => exact normal.elim

theorem Normal.alphaEq_of_bare (normal : n.Normal defs) (normal' : m.words.Normal defs)
    (same : n.unbounded.bare = m.bare) : n.alphaEq m.words = true := by
  rw [← n.words_unbounded] at normal
  rw [alphaEq_iff_nameless]
  calc
    n.nameless = n.unbounded.words.nameless := by rw [words_unbounded]
    _ = n.unbounded.bare.words := normal.words_bare.symm
    _ = m.bare.words := by rw [same]
    _ = m.words.nameless := normal'.words_bare

/-- One of the terms normalizes if and only if the other does, and then they normalize to terms that are equal up to
binder names. -/
def NormalizeAlike (defs : Definitions) (t t' : Term) : Prop :=
  ((∃ fuel out, t.normalize defs fuel = .ok out) ↔ ∃ fuel out, t'.normalize defs fuel = .ok out) ∧
    ∀ fuel fuel' n n' asked asked', t.normalize defs fuel = .ok (n, asked) → t'.normalize defs fuel' = .ok (n', asked') →
      n.alphaEq n' = true

theorem exists_normalize_of_bare (closed : ∀ name d, defs name = some d → d.term.Closed) (fits : t.NormalizeFits defs)
    (fits' : t'.NormalizeFits defs) (same : t.unbounded.bare = t'.unbounded.bare) {fuel : Nat} {asked : Trace}
    (done : t.normalize defs fuel = .ok (n, asked)) :
    ∃ fuel' n' asked', t'.normalize defs fuel' = .ok (n', asked') ∧ n.alphaEq n' = true := by
  obtain ⟨m, normalizes, sameResult⟩ := (normalizes_of_normalize closed fits done).of_bare_eq same
  obtain ⟨fuel', asked', done'⟩ := normalize_of_normalizes closed fits' normalizes
  exact ⟨fuel', m.words, asked', done',
    (normal_of_normalize done).alphaEq_of_bare (normal_of_normalize done') sameResult.symm⟩

theorem normalizeAlike_of_bare (closed : ∀ name d, defs name = some d → d.term.Closed) (fits : t.NormalizeFits defs)
    (fits' : t'.NormalizeFits defs) (same : t.unbounded.bare = t'.unbounded.bare) : NormalizeAlike defs t t' := by
  refine ⟨⟨?_, ?_⟩, ?_⟩
  · rintro ⟨fuel, ⟨n, asked⟩, done⟩
    obtain ⟨fuel', n', asked', done', -⟩ := exists_normalize_of_bare closed fits fits' same done
    exact ⟨fuel', _, done'⟩
  · rintro ⟨fuel, ⟨n, asked⟩, done⟩
    obtain ⟨fuel', n', asked', done', -⟩ := exists_normalize_of_bare closed fits' fits same.symm done
    exact ⟨fuel', _, done'⟩
  · intro fuel fuel' n n' asked asked' done done'
    obtain ⟨_, n'', _, done'', alike⟩ := exists_normalize_of_bare closed fits fits' same done
    have ends := Run.ends_of_ok (t'.normalize_steady defs) done'
    have ends' := Run.ends_of_ok (t'.normalize_steady defs) done''
    rwa [(ends.unique ends').1]

/-- Over definitions that store closed terms, a term and its erasure normalize alike, and so do two terms whose
erasures are equal up to binder names. -/
theorem normalize_preserved_by_erasure (defs : Definitions) (closed : ∀ name d, defs name = some d → d.term.Closed)
    (t : Term) (eraseFits : t.EraseFits) (fits : t.NormalizeFits defs) :
    (t.erase.NormalizeFits defs → NormalizeAlike defs t.erase t) ∧
      ∀ t' : Term, t'.EraseFits → t'.NormalizeFits defs → t.erase.alphaEq t'.erase = true →
        NormalizeAlike defs t t' := by
  constructor
  · intro erasedFits
    exact normalizeAlike_of_bare closed erasedFits fits (bare_erase eraseFits)
  · intro t' eraseFits' fits' same
    apply normalizeAlike_of_bare closed fits fits'
    calc
      t.unbounded.bare = t.erase.unbounded.bare := (bare_erase eraseFits).symm
      _ = t.erase.nameless.unbounded.bare := (bare_nameless _).symm
      _ = t'.erase.nameless.unbounded.bare := by rw [alphaEq_iff_nameless.mp same]
      _ = t'.erase.unbounded.bare := bare_nameless _
      _ = t'.unbounded.bare := bare_erase eraseFits'

/-- A stored function with an erased parameter, called with an erased argument and on an erased function, against a term
that has neither and names its binder differently. -/
theorem normalize_preserved_by_erasure_renamed :
    let defs : Definitions := fun name =>
      if name = [105] then some ⟨[105], .typ, .lam true [120] (.lam false [121] (.var 0))⟩ else none
    let t : Term :=
      .lam false [97] (.ann false .typ (.app false (.app true (.ref [105]) .typ) (.lam true [122] (.var 1))))
    let t' : Term := .lam false [98] (.app false (.ref [105]) (.var 0))
    (∀ name d, defs name = some d → d.term.Closed) ∧ t.EraseFits ∧ t'.EraseFits ∧ t.NormalizeFits defs ∧
      t.erase.NormalizeFits defs ∧ t'.NormalizeFits defs ∧ t.erase.alphaEq t'.erase = true ∧
      t.normalize defs 9 = .ok (.lam false [97] (.var 0), [[105]]) ∧ NormalizeAlike defs t.erase t ∧
      NormalizeAlike defs t t' := by
  intro defs t t'
  have closed : ∀ name d, defs name = some d → d.term.Closed := Definitions.closed_of_single (Nat.zero_lt_succ 1)
  have eraseFits : t.EraseFits := by
    simp [t, EraseFits, SubstFits, EachVar, subst, mapVars, UInt64.size]
  have eraseFits' : t'.EraseFits := by
    simp [t', EraseFits]
  have erased : t.erase = .lam false [97] (.app false (.ref [105]) (.var 0)) := by
    simp [t, erase, subst, mapVars]
  have erased' : t'.erase = t' := by
    simp [t', erase]
  have same : t.erase.alphaEq t'.erase = true := by
    rw [erased, erased']
    rfl
  have fits : t.NormalizeFits defs := by
    rintro (_ | _ | _ | _ | _ | _ | _ | _ | _ | fuel) <;>
      simp [t, defs, UInt64.size, placeholder, Value.ofTerm, Value.ofTermIn, Value.ofVar, Value.NormalizeFits,
        Value.normalize, Value.WeakHeadFits, Value.weakHead, Run.Ensures, Run.andThen, Closure.call, Closure.CallFits,
        Value.QuoteFits, Closure.normalized, consult, unfolding]
  have bare (param : Name) : (Term.lam false param (.app false (.ref [105]) (.var 0))).NormalizeFits defs := by
    rintro (_ | _ | _ | _ | _ | _ | _ | fuel) <;>
      simp [defs, UInt64.size, placeholder, Value.ofTerm, Value.ofTermIn, Value.ofVar, Value.NormalizeFits,
        Value.normalize, Value.WeakHeadFits, Value.weakHead, Run.Ensures, Run.andThen, Closure.call, Closure.CallFits,
        Value.QuoteFits, Closure.normalized, consult, unfolding]
  have done : t.normalize defs 9 = .ok (.lam false [97] (.var 0), [[105]]) := by
    simp [t, defs, placeholder, normalize, Value.ofTerm, Value.ofTermIn, Value.ofVar, Value.normalize, Value.weakHead,
      Value.quote, Run.andThen, Closure.call, Closure.normalized, consult, unfolding]
  obtain ⟨ofErasure, ofOther⟩ := normalize_preserved_by_erasure defs closed t eraseFits fits
  have erasedFits : t.erase.NormalizeFits defs := erased ▸ bare [97]
  exact ⟨closed, eraseFits, eraseFits', fits, erasedFits, bare [98], same, done, ofErasure erasedFits,
    ofOther t' eraseFits' (bare [98]) same⟩

end Term

end SelfLambda
