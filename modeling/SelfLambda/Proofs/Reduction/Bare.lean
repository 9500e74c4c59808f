import SelfLambda.Proofs.Reduction.BigStep

/-! What is left of a term without its erased content and its binder names. Taking that away commutes with substitution,
so it commutes with the order of reduction: a term and what is left of it have the same weak-head form and the same
normal form, up to what is taken away from those. Two terms with the same bare form therefore normalize alike, although
one may meet administrative steps, a placeholder put in, an argument dropped, an annotation stripped, where the other
has none. -/

namespace SelfLambda

namespace Unbounded

def bare : Unbounded → Unbounded
  | var index => var index
  | ref name => ref name
  | typ => typ
  | all erased _ _ domain codomain => all erased [] [] domain.bare codomain.bare
  | lam true _ body => body.bare.subst (cons placeholder var)
  | lam false _ body => lam false [] body.bare
  | app true fn _ => fn.bare
  | app false fn arg => app false fn.bare arg.bare
  | ann _ _ term => term.bare

theorem bare_rename (t : Unbounded) (ρ : Nat → Nat) : (t.rename ρ).bare = t.bare.rename ρ := by
  induction t generalizing ρ with
  | var index => rfl
  | ref name => rfl
  | typ => rfl
  | all erased self param domain codomain domainLaw codomainLaw => simp only [rename, bare, domainLaw, codomainLaw]
  | lam erased param body bodyLaw =>
    cases erased with
    | true =>
      simp only [rename, bare, bodyLaw, rename_subst_cons]
      rfl
    | false => simp only [rename, bare, bodyLaw]
  | app erased fn arg fnLaw argLaw =>
    cases erased with
    | true => simp only [rename, bare, fnLaw]
    | false => simp only [rename, bare, fnLaw, argLaw]
  | ann checked type term typeLaw termLaw => simp only [rename, bare, termLaw]

theorem bare_lift (σ : Nat → Unbounded) : (fun index => (lift σ index).bare) = lift (fun index => (σ index).bare) := by
  funext index
  cases index with
  | zero => rfl
  | succ index => exact bare_rename (σ index) Nat.succ

theorem bare_subst (t : Unbounded) (σ : Nat → Unbounded) :
    (t.subst σ).bare = t.bare.subst (fun index => (σ index).bare) := by
  induction t generalizing σ with
  | var index => rfl
  | ref name => rfl
  | typ => rfl
  | all erased self param domain codomain domainLaw codomainLaw =>
    simp only [subst, bare, domainLaw, codomainLaw, bare_lift]
  | lam erased param body bodyLaw =>
    cases erased with
    | true =>
      simp only [subst, bare, bodyLaw, bare_lift, subst_subst_cons]
      rfl
    | false => simp only [subst, bare, bodyLaw, bare_lift]
  | app erased fn arg fnLaw argLaw =>
    cases erased with
    | true => simp only [subst, bare, fnLaw]
    | false => simp only [subst, bare, fnLaw, argLaw]
  | ann checked type term typeLaw termLaw => simp only [subst, bare, termLaw]

theorem bare_subst_cons (body value : Unbounded) :
    (body.subst (cons value var)).bare = body.bare.subst (cons value.bare var) := by
  rw [bare_subst]
  congr 1
  funext index
  cases index <;> rfl

def Exposed : Unbounded → Prop
  | lam erased _ _ => erased = false
  | app erased _ _ => erased = false
  | ann .. => False
  | _ => True

/-- The second term is the head of the first over the bare forms of its parts. -/
inductive SameHead : Unbounded → Unbounded → Prop
  | var (index : Nat) : SameHead (.var index) (.var index)
  | ref (name : Name) : SameHead (.ref name) (.ref name)
  | typ : SameHead .typ .typ
  | all (erased : Bool) (self param : Name) (domain codomain : Unbounded) :
      SameHead (.all erased self param domain codomain) (.all erased [] [] domain.bare codomain.bare)
  | lam (param : Name) (body : Unbounded) : SameHead (.lam false param body) (.lam false [] body.bare)
  | app (fn arg : Unbounded) : SameHead (.app false fn arg) (.app false fn.bare arg.bare)

theorem Exposed.sameHead {t : Unbounded} (exposed : t.Exposed) : SameHead t t.bare := by
  cases t with
  | var index => exact .var index
  | ref name => exact .ref name
  | typ => exact .typ
  | all erased self param domain codomain => exact .all erased self param domain codomain
  | lam erased param body =>
    obtain rfl : erased = false := exposed
    exact .lam param body
  | app erased fn arg =>
    obtain rfl : erased = false := exposed
    exact .app fn arg
  | ann checked type term => exact exposed.elim

variable {stored : Name → Option Unbounded} {t t' w n s u : Unbounded}

theorem SameHead.bare_eq (same : SameHead t s) : t.bare = s := by
  cases same <;> rfl

theorem SameHead.isFunction_iff (same : SameHead t s) : s.IsFunction ↔ t.IsFunction := by
  cases same <;> exact Iff.rfl

theorem SameHead.leaf_iff (same : SameHead t s) : s.Leaf ↔ t.Leaf := by
  cases same <;> exact Iff.rfl

theorem WeakHead.exposed (head : WeakHead stored t w) : w.Exposed := by
  induction head with
  | lam param body => rfl
  | stuck _ _ _ _ _ => rfl
  | unfold _ _ rest => exact rest
  | instantiate _ _ rest => exact rest
  | drop _ _ rest => exact rest
  | strip _ _ _ rest => exact rest
  | beta _ _ _ rest => exact rest
  | _ => trivial

/-- Taking away what stands at the head of a term leaves its weak-head form as it is. The induction puts the values of
erased parameters aside, so that it is on the term itself. -/
theorem exists_exposed_subst (t : Unbounded) {σ : Nat → Unbounded} (ofVars : ∀ index, (σ index).Exposed) :
    ∃ t', t'.Exposed ∧ t'.bare = (t.subst σ).bare ∧ ∀ stored w, WeakHead stored t' w → WeakHead stored (t.subst σ) w := by
  induction t generalizing σ with
  | var index => exact ⟨σ index, ofVars index, rfl, fun _ _ head => head⟩
  | ref name => exact ⟨.ref name, trivial, rfl, fun _ _ head => head⟩
  | typ => exact ⟨.typ, trivial, rfl, fun _ _ head => head⟩
  | all erased self param domain codomain =>
    exact ⟨subst σ (.all erased self param domain codomain), trivial, rfl, fun _ _ head => head⟩
  | lam erased param body ih =>
    cases erased with
    | false => exact ⟨subst σ (.lam false param body), rfl, rfl, fun _ _ head => head⟩
    | true =>
      have ofVars' : ∀ index, (cons placeholder σ index).Exposed := by
        intro index
        cases index with
        | zero => trivial
        | succ index => exact ofVars index
      obtain ⟨t', exposed, same, back⟩ := ih ofVars'
      have opened := subst_lift_subst_cons body σ placeholder
      refine ⟨t', exposed, ?_, fun stored w head => .instantiate param ?_⟩
      · rw [same, ← opened, bare_subst_cons]
        rfl
      · rw [opened]
        exact back stored w head
  | app erased fn arg ih =>
    cases erased with
    | false => exact ⟨subst σ (.app false fn arg), rfl, rfl, fun _ _ head => head⟩
    | true =>
      obtain ⟨t', exposed, same, back⟩ := ih ofVars
      exact ⟨t', exposed, same, fun stored w head => .drop _ (back stored w head)⟩
  | ann checked type term _ ih =>
    obtain ⟨t', exposed, same, back⟩ := ih ofVars
    exact ⟨t', exposed, same, fun stored w head => .strip _ _ (back stored w head)⟩

def bareStore (stored : Name → Option Unbounded) (name : Name) : Option Unbounded := (stored name).map bare

theorem WeakHead.bare (head : WeakHead stored t w) : WeakHead (bareStore stored) t.bare w.bare := by
  induction head with
  | var index => exact .var index
  | typ => exact .typ
  | all erased self param domain codomain => exact .all _ _ _ _ _
  | lam param body => exact .lam _ _
  | ref kept => exact .ref (Option.map_eq_none_iff.mpr kept)
  | unfold found _ ih => exact .unfold (Option.map_eq_some_iff.mpr ⟨_, found, rfl⟩) ih
  | instantiate param _ ih => rwa [bare_subst_cons] at ih
  | drop arg _ ih => exact ih
  | strip checked type _ ih => exact ih
  | beta _ _ fnLaw bodyLaw =>
    rw [bare_subst_cons] at bodyLaw
    exact .beta fnLaw bodyLaw
  | stuck ofFn noFunction _ fnLaw argLaw =>
    exact .stuck fnLaw (fun function => noFunction (ofFn.exposed.sameHead.isFunction_iff.mp function)) argLaw

theorem exists_weakHead_of_exposed
    (ofExposed : ∀ t', SameHead t' t.bare → ∃ w, WeakHead stored t' w ∧ w.bare = u) :
    ∃ w, WeakHead stored t w ∧ w.bare = u := by
  have ofVars : ∀ index, (var index).Exposed := fun _ => trivial
  obtain ⟨t', exposed, same, back⟩ := t.exists_exposed_subst ofVars
  rw [subst_var] at same back
  obtain ⟨w, head, sameResult⟩ := ofExposed t' (same ▸ exposed.sameHead)
  exact ⟨w, back stored w head, sameResult⟩

/-- The weak-head form of a bare form is the bare form of a weak-head form, at first for a term that shows its head. -/
theorem WeakHead.exists_of_sameHead (head : WeakHead (bareStore stored) s u) (same : SameHead t s) :
    ∃ w, WeakHead stored t w ∧ w.bare = u := by
  induction head generalizing t with
  | var index =>
    cases same
    exact ⟨_, .var index, rfl⟩
  | typ =>
    cases same
    exact ⟨_, .typ, rfl⟩
  | all erased self param domain codomain =>
    cases same
    exact ⟨_, .all _ _ _ _ _, rfl⟩
  | lam param body =>
    cases same
    exact ⟨_, .lam _ _, rfl⟩
  | ref kept =>
    cases same
    exact ⟨_, .ref (Option.map_eq_none_iff.mp kept), rfl⟩
  | unfold found _ ih =>
    cases same
    obtain ⟨t, unfolds, rfl⟩ := Option.map_eq_some_iff.mp found
    obtain ⟨w, head, sameResult⟩ := exists_weakHead_of_exposed (fun _ => ih)
    exact ⟨w, .unfold unfolds head, sameResult⟩
  -- a bare form has nothing to take away
  | instantiate param _ ih => cases same
  | drop arg _ ih => cases same
  | strip checked type _ ih => cases same
  | beta _ _ fnLaw bodyLaw =>
    cases same with
    | app fn arg =>
      -- the head that was found has the bare form of a function, so it is one
      obtain ⟨f, ofFn, sameFn⟩ := exists_weakHead_of_exposed (fun _ => fnLaw)
      have ofHead := ofFn.exposed.sameHead
      rw [sameFn] at ofHead
      cases ofHead with
      | lam param body =>
        rw [← bare_subst_cons] at bodyLaw
        obtain ⟨w, head, sameResult⟩ := exists_weakHead_of_exposed (fun _ => bodyLaw)
        exact ⟨w, .beta ofFn head, sameResult⟩
  | stuck ofFn noFunction _ fnLaw argLaw =>
    cases same with
    | app fn arg =>
      obtain ⟨f, ofFn, sameFn⟩ := exists_weakHead_of_exposed (fun _ => fnLaw)
      obtain ⟨a, ofArg, sameArg⟩ := exists_weakHead_of_exposed (fun _ => argLaw)
      have noFunction' : ¬ f.IsFunction := by
        rwa [← ofFn.exposed.sameHead.isFunction_iff, sameFn]
      refine ⟨_, .stuck ofFn noFunction' ofArg, ?_⟩
      rw [Unbounded.bare, sameFn, sameArg]

theorem WeakHead.exists_of_bare (head : WeakHead (bareStore stored) t.bare u) :
    ∃ w, WeakHead stored t w ∧ SameHead w u := by
  obtain ⟨w, ofTerm, same⟩ := exists_weakHead_of_exposed (fun _ => head.exists_of_sameHead)
  exact ⟨w, ofTerm, same ▸ ofTerm.exposed.sameHead⟩

theorem Normalizes.bare (normalizes : Normalizes stored t n) : Normalizes (bareStore stored) t.bare n.bare := by
  induction normalizes with
  | all head _ _ domainLaw codomainLaw => exact .all head.bare domainLaw codomainLaw
  | lam head _ bodyLaw =>
    obtain rfl := head.exposed
    exact .lam head.bare bodyLaw
  | app head _ _ fnLaw argLaw =>
    obtain rfl := head.exposed
    exact .app head.bare fnLaw argLaw
  | leaf head leaf => exact .leaf head.bare (head.exposed.sameHead.leaf_iff.mpr leaf)

theorem Normalizes.exists_of_bare (normalizes : Normalizes (bareStore stored) s u) (same : t.bare = s) :
    ∃ n, Normalizes stored t n ∧ n.bare = u := by
  induction normalizes generalizing t with
  | all head _ _ domainLaw codomainLaw =>
    subst same
    obtain ⟨w, ofTerm, sameHead⟩ := head.exists_of_bare
    cases sameHead with
    | all erased self param domain codomain =>
      obtain ⟨domain', ofDomain, rfl⟩ := domainLaw rfl
      obtain ⟨codomain', ofCodomain, rfl⟩ := codomainLaw rfl
      exact ⟨_, .all ofTerm ofDomain ofCodomain, rfl⟩
  | lam head _ bodyLaw =>
    subst same
    obtain ⟨w, ofTerm, sameHead⟩ := head.exists_of_bare
    cases sameHead with
    | lam param body =>
      obtain ⟨body', ofBody, rfl⟩ := bodyLaw rfl
      exact ⟨_, .lam ofTerm ofBody, rfl⟩
  | app head _ _ fnLaw argLaw =>
    subst same
    obtain ⟨w, ofTerm, sameHead⟩ := head.exists_of_bare
    cases sameHead with
    | app fn arg =>
      obtain ⟨fn', ofFn, rfl⟩ := fnLaw rfl
      obtain ⟨arg', ofArg, rfl⟩ := argLaw rfl
      exact ⟨_, .app ofTerm ofFn ofArg, rfl⟩
  | leaf head leaf =>
    subst same
    obtain ⟨w, ofTerm, sameHead⟩ := head.exists_of_bare
    exact ⟨w, .leaf ofTerm (sameHead.leaf_iff.mp leaf), sameHead.bare_eq⟩

theorem Normalizes.of_bare_eq (normalizes : Normalizes stored t n) (same : t.bare = t'.bare) :
    ∃ n', Normalizes stored t' n' ∧ n'.bare = n.bare :=
  normalizes.bare.exists_of_bare same.symm

end Unbounded

end SelfLambda
