import SelfLambda.Proofs.Index.Words
import SelfLambda.Closure.Quotation

/-! What a value stands for. `Reads depth v s` says that under `depth` open binders the value `v` stands for the term `s`
over numbers: its levels are the binders that were opened, its free variables lie beyond them, and a closure stands for
its body with all of its environment put in. Only closures that no normalization waits on stand for a term. -/

namespace SelfLambda

theorem Value.ofVar_cases {env : List Value} (fits : env.length < UInt64.size) (index : UInt64) :
    (∃ v, env[index.toNat]? = some v ∧ ofVar env (UInt64.ofNat env.length) index = v) ∨
      env.length ≤ index.toNat ∧ ∃ beyond : UInt64, beyond.toNat = index.toNat - env.length ∧
        ofVar env (UInt64.ofNat env.length) index = .free beyond := by
  have countValue : (UInt64.ofNat env.length).toNat = env.length := Term.toNat_ofNat_of_fits fits
  unfold Value.ofVar
  by_cases bound : index < UInt64.ofNat env.length
  · have inRange : index.toNat < env.length := by rwa [UInt64.lt_iff_toNat_lt, countValue] at bound
    rw [if_pos bound, List.getElem?_eq_getElem inRange]
    exact .inl ⟨_, rfl, rfl⟩
  · have order : UInt64.ofNat env.length ≤ index := UInt64.not_lt.mp bound
    have difference : (index - UInt64.ofNat env.length).toNat = index.toNat - env.length := by
      rw [UInt64.toNat_sub_of_le _ _ order, countValue]
    rw [UInt64.le_iff_toNat_le, countValue] at order
    rw [if_neg bound]
    exact .inr ⟨order, _, difference, rfl⟩

inductive Value.Reads (depth : Nat) : Value → Unbounded → Prop
  | free (index : UInt64) : Reads depth (.free index) (.var (index.toNat + depth))
  | level (opened : UInt64) (inside : opened.toNat < depth) :
      Reads depth (.level opened) (.var (depth - opened.toNat - 1))
  | ref (name : Name) : Reads depth (.ref name) (.ref name)
  | typ : Reads depth .typ .typ
  | all (erased : Bool) (self param : Name) {env env' : List Value} (domain codomain : Term) {σ σ' : Nat → Unbounded}
      (inside : ∀ (index : Nat) v, env[index]? = some v → Reads depth v (σ index))
      (outside : ∀ beyond, σ (env.length + beyond) = .var (beyond + depth))
      (inside' : ∀ (index : Nat) v, env'[index]? = some v → Reads depth v (σ' index))
      (outside' : ∀ beyond, σ' (env'.length + beyond) = .var (beyond + depth)) :
      Reads depth (.all erased self param ⟨env, domain, 0⟩ ⟨env', codomain, 0⟩)
        (.all erased self param (domain.unbounded.subst (.lift σ)) (codomain.unbounded.subst (.lift (.lift σ'))))
  | lam (erased : Bool) (param : Name) {env : List Value} (body : Term) {σ : Nat → Unbounded}
      (inside : ∀ (index : Nat) v, env[index]? = some v → Reads depth v (σ index))
      (outside : ∀ beyond, σ (env.length + beyond) = .var (beyond + depth)) :
      Reads depth (.lam erased param ⟨env, body, 0⟩) (.lam erased param (body.unbounded.subst (.lift σ)))
  | app (erased : Bool) {fn arg : Value} {fn' arg' : Unbounded} (ofFn : Reads depth fn fn')
      (ofArg : Reads depth arg arg') : Reads depth (.app erased fn arg) (.app erased fn' arg')
  | ann (checked : Bool) {type term : Value} {type' term' : Unbounded} (ofType : Reads depth type type')
      (ofTerm : Reads depth term term') : Reads depth (.ann checked type term) (.ann checked type' term')

/-- An environment stands for the substitution of what its values stand for; variables beyond it are free. -/
structure EnvReads (depth : Nat) (env : List Value) (σ : Nat → Unbounded) : Prop where
  inside : ∀ (index : Nat) v, env[index]? = some v → v.Reads depth (σ index)
  outside : ∀ beyond, σ (env.length + beyond) = .var (beyond + depth)

namespace Value.Reads

variable {depth : Nat} {v : Value}

theorem of_var {index : Nat} (reads : v.Reads depth (.var index)) :
    (∃ free : UInt64, v = .free free ∧ index = free.toNat + depth) ∨
      ∃ opened : UInt64, v = .level opened ∧ opened.toNat < depth ∧ index = depth - opened.toNat - 1 := by
  cases reads with
  | free free => exact .inl ⟨free, rfl, rfl⟩
  | level opened inside => exact .inr ⟨opened, rfl, inside, rfl⟩

theorem of_lam {erased : Bool} {param : Name} {body : Unbounded} (reads : v.Reads depth (.lam erased param body)) :
    ∃ env b σ, v = .lam erased param ⟨env, b, 0⟩ ∧ EnvReads depth env σ ∧ body = b.unbounded.subst (.lift σ) := by
  cases reads with
  | lam _ _ b inside outside => exact ⟨_, b, _, rfl, ⟨inside, outside⟩, rfl⟩

theorem of_all {erased : Bool} {self param : Name} {domain codomain : Unbounded}
    (reads : v.Reads depth (.all erased self param domain codomain)) :
    ∃ env a σ env' b σ', v = .all erased self param ⟨env, a, 0⟩ ⟨env', b, 0⟩ ∧ EnvReads depth env σ ∧
      EnvReads depth env' σ' ∧ domain = a.unbounded.subst (.lift σ) ∧
      codomain = b.unbounded.subst (.lift (.lift σ')) := by
  cases reads with
  | all _ _ _ a b inside outside inside' outside' =>
    exact ⟨_, a, _, _, b, _, rfl, ⟨inside, outside⟩, ⟨inside', outside'⟩, rfl, rfl⟩

theorem of_app {erased : Bool} {fn arg : Unbounded} (reads : v.Reads depth (.app erased fn arg)) :
    ∃ f a, v = .app erased f a ∧ f.Reads depth fn ∧ a.Reads depth arg := by
  cases reads with
  | app _ ofFn ofArg => exact ⟨_, _, rfl, ofFn, ofArg⟩

theorem of_ann {checked : Bool} {type term : Unbounded} (reads : v.Reads depth (.ann checked type term)) :
    ∃ a x, v = .ann checked a x ∧ a.Reads depth type ∧ x.Reads depth term := by
  cases reads with
  | ann _ ofType ofTerm => exact ⟨_, _, rfl, ofType, ofTerm⟩

theorem of_ref {name : Name} (reads : v.Reads depth (.ref name)) : v = .ref name := by
  cases reads
  rfl

theorem of_typ (reads : v.Reads depth .typ) : v = .typ := by
  cases reads
  rfl

theorem weaken {s : Unbounded} (reads : v.Reads depth s) : v.Reads (depth + 1) (s.rename Nat.succ) := by
  induction reads with
  | free index => exact .free index
  | level opened inside =>
    have index : (depth - opened.toNat - 1).succ = depth + 1 - opened.toNat - 1 := by omega
    rw [Unbounded.rename, index]
    exact .level opened (by omega)
  | ref name => exact .ref name
  | typ => exact .typ
  | all erased self param domain codomain _ outside _ outside' weaker weaker' =>
    simp only [Unbounded.rename, Unbounded.rename_subst, Unbounded.rename_lift]
    apply Reads.all erased self param domain codomain weaker _ weaker'
    · intro beyond
      rw [outside' beyond]
      rfl
    · intro beyond
      rw [outside beyond]
      rfl
  | lam erased param body _ outside weaker =>
    simp only [Unbounded.rename, Unbounded.rename_subst, Unbounded.rename_lift]
    apply Reads.lam erased param body weaker
    intro beyond
    rw [outside beyond]
    rfl
  | app erased _ _ fnLaw argLaw => exact .app erased fnLaw argLaw
  | ann checked _ _ typeLaw termLaw => exact .ann checked typeLaw termLaw

end Value.Reads

namespace EnvReads

variable {depth : Nat} {env : List Value} {σ : Nat → Unbounded}

theorem nil (depth : Nat) : EnvReads depth [] (fun index => .var (index + depth)) where
  inside := by
    intro index v found
    simp only [List.getElem?_nil, reduceCtorEq] at found
  outside := by
    intro beyond
    simp only [List.length_nil, Nat.zero_add]

theorem cons {v : Value} {s : Unbounded} (first : v.Reads depth s) (rest : EnvReads depth env σ) :
    EnvReads depth (v :: env) (Unbounded.cons s σ) where
  inside := by
    intro index w found
    cases index with
    | zero =>
      simp only [List.getElem?_cons_zero, Option.some.injEq] at found
      exact found ▸ first
    | succ index =>
      rw [List.getElem?_cons_succ] at found
      exact rest.inside index w found
  outside := by
    intro beyond
    rw [List.length_cons, Nat.add_right_comm]
    exact rest.outside beyond

theorem weaken (reads : EnvReads depth env σ) : EnvReads (depth + 1) env (fun index => (σ index).rename Nat.succ) where
  inside := fun index v found => (reads.inside index v found).weaken
  outside := by
    intro beyond
    rw [reads.outside beyond]
    rfl

theorem opened (reads : EnvReads depth env σ) (fits : depth < UInt64.size) :
    EnvReads (depth + 1) ([.level (UInt64.ofNat depth)] ++ env) (.lift σ) := by
  have depthValue : (UInt64.ofNat depth).toNat = depth := Term.toNat_ofNat_of_fits fits
  have nearest : (Value.level (UInt64.ofNat depth)).Reads (depth + 1) (.var 0) := by
    have reads : (Value.level (UInt64.ofNat depth)).Reads (depth + 1)
        (.var (depth + 1 - (UInt64.ofNat depth).toNat - 1)) := .level _ (by omega)
    rwa [depthValue, Nat.add_sub_cancel_left, Nat.sub_self] at reads
  have extended : Unbounded.lift σ = Unbounded.cons (.var 0) (fun index => (σ index).rename Nat.succ) := by
    funext index
    cases index <;> rfl
  rw [extended]
  exact cons nearest reads.weaken

theorem reads_ofVar (reads : EnvReads depth env σ) (fits : env.length < UInt64.size) (index : UInt64) :
    (Value.ofVar env (UInt64.ofNat env.length) index).Reads depth (σ index.toNat) := by
  obtain ⟨v, found, same⟩ | ⟨outside, beyond, difference, same⟩ := Value.ofVar_cases fits index
  · rw [same]
    exact reads.inside index.toNat v found
  · have target : σ index.toNat = .var (beyond.toNat + depth) := by
      rw [difference, ← reads.outside, Nat.add_sub_cancel' outside]
    rw [same, target]
    exact .free _

/-- The value of a term in an environment stands for the term with the environment put in. -/
theorem reads_ofTerm (reads : EnvReads depth env σ) (fits : env.length < UInt64.size) (t : Term) :
    (Value.ofTerm env t).Reads depth (t.unbounded.subst σ) := by
  unfold Value.ofTerm
  induction t with
  | var index => exact reads.reads_ofVar fits index
  | ref name => exact .ref name
  | typ => exact .typ
  | all erased self param domain codomain =>
    exact .all erased self param domain codomain reads.inside reads.outside reads.inside reads.outside
  | lam erased param body => exact .lam erased param body reads.inside reads.outside
  | app erased fn arg fnLaw argLaw => exact .app erased fnLaw argLaw
  | ann checked type term typeLaw termLaw => exact .ann checked typeLaw termLaw

end EnvReads

theorem Closure.call_ready (defs : Definitions) (fuel : Nat) (trace : Trace) (env : List Value) (body : Term)
    (args : List Value) :
    Closure.call defs fuel trace ⟨env, body, 0⟩ args = .ok (Value.ofTerm (args ++ env) body, trace) := by
  cases fuel <;> rw [Closure.call]

/-- Calling a closure puts the argument for the outermost variable of what the closure stands for. -/
theorem EnvReads.reads_call {depth : Nat} {env : List Value} {σ : Nat → Unbounded} (reads : EnvReads depth env σ)
    {arg : Value} {s : Unbounded} (ofArg : arg.Reads depth s) (fits : env.length + 1 < UInt64.size) (body : Term) :
    (Value.ofTerm ([arg] ++ env) body).Reads depth
      ((body.unbounded.subst (.lift σ)).subst (Unbounded.cons s .var)) := by
  rw [Unbounded.subst_lift_subst_cons]
  exact (EnvReads.cons ofArg reads).reads_ofTerm fits body

theorem Value.reads_ofTerm_nil (depth : Nat) (t : Term) :
    (Value.ofTerm [] t).Reads depth (t.unbounded.rename (· + depth)) := by
  rw [Unbounded.rename_eq_subst]
  exact (EnvReads.nil depth).reads_ofTerm (by decide) t

end SelfLambda
