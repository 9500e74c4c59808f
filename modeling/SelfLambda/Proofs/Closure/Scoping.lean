import SelfLambda.Proofs.Closure.Readback
import SelfLambda.Proofs.Reduction.WrapFree
import SelfLambda.Proofs.Term.Scoping

/-! Scoping along runs. Over definitions that store closed terms, no reducer brings in a free variable: terms keep theirs
below a bound, and values keep theirs below it and their levels below the depth at which they are read back. So reading
back never meets a level that is out of scope, as long as the depths it comes to are words. -/

namespace SelfLambda

variable {defs : Definitions} {fuel : Nat} {trace : Trace}

namespace Run

variable {α β : Type} {P : α → Prop} {Q : β → Prop}

/-- A result has the property, and nothing but a want of fuel stops the run. -/
def Safe (P : α → Prop) (run : Run α) : Prop :=
  match run with
  | .ok (result, _) => P result
  | .error stop => stop.cause = .outOfFuel

theorem Safe.ok {result : α} (holds : P result) (trace : Trace) : Safe P (.ok (result, trace)) := holds

theorem Safe.outOfFuel (trace : Trace) : Safe P (.error ⟨.outOfFuel, trace⟩) := rfl

theorem Safe.andThen {run : Run α} {next : α → Trace → Run β} (first : Safe P run)
    (second : ∀ result trace, run = .ok (result, trace) → P result → Safe Q (next result trace)) :
    Safe Q (run.andThen next) := by
  match run, first with
  | .error _, stopped => exact stopped
  | .ok (result, trace), holds => exact second result trace rfl holds

theorem Safe.result {run : Run α} (safe : Safe P run) {result : α} (done : run = .ok (result, trace)) : P result := by
  rw [done] at safe
  exact safe

theorem Safe.ne_levelOutOfScope {run : Run α} (safe : Safe P run) (asked : Trace) :
    run ≠ .error ⟨.levelOutOfScope, asked⟩ := by
  intro stopped
  rw [stopped] at safe
  cases safe

end Run

theorem Term.FreeBelow.weakHead (closed : ∀ name d, defs name = some d → d.term.Closed) {bound : Nat} {t : Term}
    (below : t.FreeBelow bound) : Run.Safe (Term.FreeBelow bound) (t.weakHead defs fuel trace) := by
  induction fuel generalizing trace t with
  | zero => exact .outOfFuel _
  | succ fuel ih =>
    cases t with
    | var index => exact .ok below trace
    | ref name =>
      simp only [Term.weakHead, consult]
      cases unfolds : unfolding defs name with
      | none => exact .ok trivial _
      | some u =>
        obtain ⟨d, stored, rfl⟩ := exists_of_unfolding unfolds
        exact ih ((closed name d stored).mono (Nat.zero_le bound))
    | typ => exact .ok trivial trace
    | all erased self param domain codomain => exact .ok below trace
    | lam erased param body =>
      cases erased with
      | false => exact .ok below trace
      | true =>
        rw [Term.freeBelow_lam] at below
        exact ih (below.subst (Term.freeBelow_placeholder bound))
    | app erased fn arg =>
      cases erased with
      | true => exact ih below.1
      | false =>
        rw [Term.weakHead]
        apply Run.Safe.andThen (ih below.1)
        intro head trace _ headBelow
        have stuck : Run.Safe (Term.FreeBelow bound)
            (Run.andThen (Term.weakHead defs fuel trace arg) fun arg trace => .ok (.app false head arg, trace)) :=
          .andThen (ih below.2) (fun arg trace _ argBelow => .ok ⟨headBelow, argBelow⟩ trace)
        cases head with
        | lam erased param body =>
          rw [Term.freeBelow_lam] at headBelow
          exact ih (headBelow.subst below.2)
        | _ => exact stuck
    | ann checked type term => exact ih below.2

/-- Free variables lie below `bound` and levels below `depth`; a closure's body has variables for its own binders, for its
environment and below `bound`. -/
inductive Value.Scoped (bound depth : Nat) : Value → Prop
  | free {index : UInt64} (below : index.toNat < bound) : Scoped bound depth (.free index)
  | level {opened : UInt64} (below : opened.toNat < depth) : Scoped bound depth (.level opened)
  | ref (name : Name) : Scoped bound depth (.ref name)
  | typ : Scoped bound depth .typ
  | all (erased : Bool) (self param : Name) {domain codomain : Closure Value}
      (domainEnv : ∀ v ∈ domain.env, Scoped bound depth v)
      (domainBody : domain.body.FreeBelow (bound + domain.env.length + 1))
      (codomainEnv : ∀ v ∈ codomain.env, Scoped bound depth v)
      (codomainBody : codomain.body.FreeBelow (bound + codomain.env.length + 2)) :
      Scoped bound depth (.all erased self param domain codomain)
  | lam (erased : Bool) (param : Name) {body : Closure Value} (bodyEnv : ∀ v ∈ body.env, Scoped bound depth v)
      (bodyBody : body.body.FreeBelow (bound + body.env.length + 1)) : Scoped bound depth (.lam erased param body)
  | app (erased : Bool) {fn arg : Value} (ofFn : Scoped bound depth fn) (ofArg : Scoped bound depth arg) :
      Scoped bound depth (.app erased fn arg)
  | ann (checked : Bool) {type term : Value} (ofType : Scoped bound depth type) (ofTerm : Scoped bound depth term) :
      Scoped bound depth (.ann checked type term)

structure Closure.Scoped (bound depth arity : Nat) (c : Closure Value) : Prop where
  ofEnv : ∀ v ∈ c.env, v.Scoped bound depth
  ofBody : c.body.FreeBelow (bound + c.env.length + arity)

namespace Value

variable {bound depth depth' : Nat} {v : Value} {env : List Value}

theorem Scoped.mono (inScope : v.Scoped bound depth) (more : depth ≤ depth') : v.Scoped bound depth' := by
  induction inScope with
  | free below => exact .free below
  | level below => exact .level (Nat.lt_of_lt_of_le below more)
  | ref name => exact .ref name
  | typ => exact .typ
  | all erased self param _ domainBody _ codomainBody domainEnv codomainEnv =>
    exact .all erased self param domainEnv domainBody codomainEnv codomainBody
  | lam erased param _ bodyBody bodyEnv => exact .lam erased param bodyEnv bodyBody
  | app erased _ _ fnLaw argLaw => exact .app erased fnLaw argLaw
  | ann checked _ _ typeLaw termLaw => exact .ann checked typeLaw termLaw

theorem Scoped.ofVar (ofEnv : ∀ v ∈ env, v.Scoped bound depth) (fits : env.length < UInt64.size) {index : UInt64}
    (below : index.toNat < bound + env.length) : (Value.ofVar env (UInt64.ofNat env.length) index).Scoped bound depth := by
  obtain ⟨v, found, same⟩ | ⟨outside, beyond, difference, same⟩ := Value.ofVar_cases fits index
  · rw [same]
    exact ofEnv v (List.mem_of_getElem? found)
  · rw [same]
    exact .free (by omega)

theorem Scoped.ofTerm (ofEnv : ∀ v ∈ env, v.Scoped bound depth) (fits : env.length < UInt64.size) {t : Term}
    (below : t.FreeBelow (bound + env.length)) : (Value.ofTerm env t).Scoped bound depth := by
  unfold Value.ofTerm
  induction t with
  | var index => exact Scoped.ofVar ofEnv fits below
  | ref name => exact .ref name
  | typ => exact .typ
  | all erased self param domain codomain =>
    rw [Term.freeBelow_all] at below
    exact .all erased self param ofEnv below.1 ofEnv below.2
  | lam erased param body =>
    rw [Term.freeBelow_lam] at below
    exact .lam erased param ofEnv below
  | app erased fn arg fnLaw argLaw => exact .app erased (fnLaw below.1) (argLaw below.2)
  | ann checked type term typeLaw termLaw => exact .ann checked (typeLaw below.1) (termLaw below.2)

theorem Scoped.ofWhole {t : Term} (below : t.FreeBelow bound) (depth : Nat) :
    (Value.ofTerm [] t).Scoped bound depth :=
  Scoped.ofTerm (List.forall_mem_nil _) (by decide) below

end Value

theorem Closure.Scoped.mono {bound depth depth' arity : Nat} {c : Closure Value} (inScope : c.Scoped bound depth arity)
    (more : depth ≤ depth') : c.Scoped bound depth' arity :=
  ⟨fun v member => (inScope.ofEnv v member).mono more, inScope.ofBody⟩

theorem Closure.Scoped.call_ready {bound depth : Nat} {env args : List Value} {body : Term}
    (inScope : Closure.Scoped bound depth args.length ⟨env, body, 0⟩) (ofArgs : ∀ v ∈ args, v.Scoped bound depth)
    (fits : env.length + args.length < UInt64.size) :
    Run.Safe (Value.Scoped bound depth) (Closure.call defs fuel trace ⟨env, body, 0⟩ args) := by
  have ofBoth : ∀ v ∈ args ++ env, v.Scoped bound depth := by
    intro v member
    rcases List.mem_append.mp member with inArgs | inEnv
    · exact ofArgs v inArgs
    · exact inScope.ofEnv v inEnv
  have total : (args ++ env).length = env.length + args.length := by rw [List.length_append, Nat.add_comm]
  have below : body.FreeBelow (bound + (args ++ env).length) := by
    rw [total, ← Nat.add_assoc]
    exact inScope.ofBody
  rw [Closure.call.eq_def]
  exact .ok (Value.Scoped.ofTerm ofBoth (total ▸ fits) below) trace

structure KeepsScope (defs : Definitions) (fuel : Nat) : Prop where
  call : ∀ {trace bound depth} {c : Closure Value} {args : List Value}, c.Scoped bound depth args.length →
    (∀ v ∈ args, v.Scoped bound depth) → c.CallFits defs fuel trace args →
    Run.Safe (Value.Scoped bound depth) (c.call defs fuel trace args)
  weakHead : ∀ {trace bound depth} {v : Value}, v.Scoped bound depth → v.WeakHeadFits defs fuel trace →
    Run.Safe (Value.Scoped bound depth) (v.weakHead defs fuel trace)
  normalize : ∀ {trace bound depth} {v : Value}, v.Scoped bound depth → v.NormalizeFits defs fuel trace →
    Run.Safe (Value.Scoped bound depth) (v.normalize defs fuel trace)

namespace KeepsScope

variable {bound depth : Nat} {v : Value}

theorem call_succ (ih : KeepsScope defs fuel) {c : Closure Value} {args : List Value}
    (inScope : c.Scoped bound depth args.length) (ofArgs : ∀ v ∈ args, v.Scoped bound depth)
    (fits : c.CallFits defs (fuel + 1) trace args) :
    Run.Safe (Value.Scoped bound depth) (c.call defs (fuel + 1) trace args) := by
  obtain ⟨env, body, passes⟩ := c
  cases passes with
  | zero =>
    rw [Closure.CallFits] at fits
    exact inScope.call_ready ofArgs fits
  | succ passes =>
    rw [Closure.CallFits] at fits
    rw [Closure.call]
    have earlier : Closure.Scoped bound depth args.length ⟨env, body, passes⟩ := ⟨inScope.ofEnv, inScope.ofBody⟩
    apply Run.Safe.andThen (ih.call earlier ofArgs fits.1)
    intro v trace called ofValue
    exact ih.normalize ofValue (fits.2.apply called)

theorem called (ih : KeepsScope defs fuel) {c : Closure Value} {arg : Value} (inScope : c.Scoped bound depth 1)
    (ofArg : arg.Scoped bound depth) (callFits : c.CallFits defs fuel trace [arg])
    (resultFits : (c.call defs fuel trace [arg]).Ensures fun v trace => v.WeakHeadFits defs fuel trace) :
    Run.Safe (Value.Scoped bound depth)
      (Run.andThen (c.call defs fuel trace [arg]) fun v trace => v.weakHead defs fuel trace) := by
  apply Run.Safe.andThen (ih.call inScope (List.forall_mem_singleton.mpr ofArg) callFits)
  intro v trace called ofValue
  exact ih.weakHead ofValue (resultFits.apply called)

theorem weakHead_succ (closed : ∀ name d, defs name = some d → d.term.Closed) (ih : KeepsScope defs fuel)
    (inScope : v.Scoped bound depth) (fits : v.WeakHeadFits defs (fuel + 1) trace) :
    Run.Safe (Value.Scoped bound depth) (v.weakHead defs (fuel + 1) trace) := by
  cases inScope with
  | free below =>
    rw [Value.weakHead]
    exact .ok (.free below) trace
  | level below =>
    rw [Value.weakHead]
    exact .ok (.level below) trace
  | ref name =>
    simp only [Value.WeakHeadFits, consult] at fits
    simp only [Value.weakHead, consult]
    cases unfolds : unfolding defs name with
    | none => exact .ok (.ref name) _
    | some u =>
      rw [unfolds] at fits
      obtain ⟨d, stored, rfl⟩ := exists_of_unfolding unfolds
      exact ih.weakHead (.ofWhole ((closed name d stored).mono (Nat.zero_le bound)) depth) fits
  | typ =>
    rw [Value.weakHead]
    exact .ok .typ trace
  | all erased self param domainEnv domainBody codomainEnv codomainBody =>
    rw [Value.weakHead]
    exact .ok (.all erased self param domainEnv domainBody codomainEnv codomainBody) trace
  | lam erased param bodyEnv bodyBody =>
    cases erased with
    | false =>
      rw [Value.weakHead]
      exact .ok (.lam false param bodyEnv bodyBody) trace
    | true =>
      rw [Value.WeakHeadFits] at fits
      rw [Value.weakHead]
      exact ih.called ⟨bodyEnv, bodyBody⟩ (.ofWhole (Term.freeBelow_placeholder bound) depth) fits.1 fits.2
  | app erased ofFn ofArg =>
    cases erased with
    | true =>
      rw [Value.WeakHeadFits] at fits
      rw [Value.weakHead]
      exact ih.weakHead ofFn fits
    | false =>
      rw [Value.WeakHeadFits] at fits
      rw [Value.weakHead]
      apply Run.Safe.andThen (ih.weakHead ofFn fits.1)
      intro head trace reduced ofHead
      have argFits := fits.2.apply reduced
      have stuck (argFits : Value.WeakHeadFits defs fuel trace _) : Run.Safe (Value.Scoped bound depth)
          (Run.andThen (Value.weakHead defs fuel trace _) fun arg trace => .ok (.app false head arg, trace)) :=
        .andThen (ih.weakHead ofArg argFits) (fun arg trace _ ofArg => .ok (.app false ofHead ofArg) trace)
      cases ofHead with
      | lam erased param bodyEnv bodyBody => exact ih.called ⟨bodyEnv, bodyBody⟩ ofArg argFits.1 argFits.2
      | _ => exact stuck argFits
  | ann checked _ ofTerm =>
    rw [Value.WeakHeadFits] at fits
    rw [Value.weakHead]
    exact ih.weakHead ofTerm fits

theorem normalize_succ (ih : KeepsScope defs fuel) (inScope : v.Scoped bound depth)
    (fits : v.NormalizeFits defs (fuel + 1) trace) :
    Run.Safe (Value.Scoped bound depth) (v.normalize defs (fuel + 1) trace) := by
  rw [Value.NormalizeFits] at fits
  rw [Value.normalize]
  apply Run.Safe.andThen (ih.weakHead inScope fits.1)
  intro head trace reduced ofHead
  have partsFit := fits.2.apply reduced
  cases ofHead with
  | all erased self param domainEnv domainBody codomainEnv codomainBody =>
    exact .ok (.all erased self param domainEnv domainBody codomainEnv codomainBody) trace
  | lam erased param bodyEnv bodyBody => exact .ok (.lam erased param bodyEnv bodyBody) trace
  | app erased ofFn ofArg =>
    apply Run.Safe.andThen (ih.normalize ofFn partsFit.1)
    intro fn trace done ofFn
    apply Run.Safe.andThen (ih.normalize ofArg (partsFit.2.apply done))
    intro arg trace _ ofArg
    exact .ok (.app erased ofFn ofArg) trace
  | free below => exact .ok (.free below) trace
  | level below => exact .ok (.level below) trace
  | ref name => exact .ok (.ref name) trace
  | typ => exact .ok .typ trace
  | ann checked ofType ofTerm => exact .ok (.ann checked ofType ofTerm) trace

end KeepsScope

theorem keepsScope (closed : ∀ name d, defs name = some d → d.term.Closed) (fuel : Nat) : KeepsScope defs fuel := by
  induction fuel with
  | zero =>
    refine ⟨?_, ?_, ?_⟩
    · intro trace bound depth c args inScope ofArgs fits
      obtain ⟨env, body, passes⟩ := c
      cases passes with
      | zero =>
        rw [Closure.CallFits] at fits
        exact inScope.call_ready ofArgs fits
      | succ passes =>
        rw [Closure.call]
        exact .outOfFuel _
    · intro trace bound depth v _ _
      rw [Value.weakHead]
      exact .outOfFuel _
    · intro trace bound depth v _ _
      rw [Value.normalize]
      exact .outOfFuel _
  | succ fuel ih => exact ⟨ih.call_succ, ih.weakHead_succ closed, ih.normalize_succ⟩

/-- The depths that reading a value back comes to, and the lengths of the environments it calls on the way, are words. -/
def Value.QuoteDepthsFit (defs : Definitions) : Nat → Trace → UInt64 → Value → Prop
  | fuel + 1, trace, depth, .all _ _ _ domain codomain =>
    depth.toNat + 2 < UInt64.size ∧
      domain.CallFits defs fuel trace [.level depth] ∧
      (domain.call defs fuel trace [.level depth]).Ensures fun domain trace =>
      domain.QuoteDepthsFit defs fuel trace (depth + 1) ∧
      (domain.quote defs fuel trace (depth + 1)).Ensures fun _ trace =>
      codomain.CallFits defs fuel trace [.level (depth + 1), .level depth] ∧
      (codomain.call defs fuel trace [.level (depth + 1), .level depth]).Ensures fun codomain trace =>
      codomain.QuoteDepthsFit defs fuel trace (depth + 2)
  | fuel + 1, trace, depth, .lam _ _ body =>
    depth.toNat + 1 < UInt64.size ∧
      body.CallFits defs fuel trace [.level depth] ∧
      (body.call defs fuel trace [.level depth]).Ensures fun body trace =>
      body.QuoteDepthsFit defs fuel trace (depth + 1)
  | fuel + 1, trace, depth, .app _ fn arg =>
    fn.QuoteDepthsFit defs fuel trace depth ∧
      (fn.quote defs fuel trace depth).Ensures fun _ trace => arg.QuoteDepthsFit defs fuel trace depth
  | fuel + 1, trace, depth, .ann _ type term =>
    type.QuoteDepthsFit defs fuel trace depth ∧
      (type.quote defs fuel trace depth).Ensures fun _ trace => term.QuoteDepthsFit defs fuel trace depth
  | _, _, _, _ => True

theorem Value.Scoped.quote (closed : ∀ name d, defs name = some d → d.term.Closed) {bound : Nat} {depth : UInt64}
    {v : Value} (inScope : v.Scoped bound depth.toNat) (fits : v.QuoteDepthsFit defs fuel trace depth) :
    Run.Safe (Term.FreeBelow (bound + depth.toNat)) (v.quote defs fuel trace depth) := by
  induction fuel generalizing trace depth v with
  | zero => exact .outOfFuel _
  | succ fuel ih =>
    have calls := keepsScope closed fuel
    cases inScope with
    | @free index below =>
      have moved : (index + depth).toNat < bound + depth.toNat := by
        rw [UInt64.toNat_add]
        exact Nat.lt_of_le_of_lt (Nat.mod_le _ _) (Nat.add_lt_add_right below _)
      exact .ok moved trace
    | @level opened below =>
      have earlier : opened < depth := UInt64.lt_iff_toNat_lt.mpr below
      have inside : (depth - opened - 1).toNat < bound + depth.toNat := by
        rw [toNat_sub_sub_one earlier]
        omega
      rw [Value.quote, if_pos earlier]
      exact .ok inside trace
    | ref name => exact .ok trivial trace
    | typ => exact .ok trivial trace
    | all erased self param domainEnv domainBody codomainEnv codomainBody =>
      rw [Value.QuoteDepthsFit] at fits
      obtain ⟨depthFits, domainFits, rest⟩ := fits
      have next : (depth + 1).toNat = depth.toNat + 1 := Term.toNat_add_of_fits (by change depth.toNat + 1 < _; omega)
      have afterNext : (depth + 2).toNat = depth.toNat + 2 := Term.toNat_add_of_fits depthFits
      -- the environments were made at a smaller depth, so their levels stay in scope under the binders opened here
      have outer : (Value.level depth).Scoped bound (depth.toNat + 1) := .level (Nat.lt_succ_self _)
      have inner : (Value.level (depth + 1)).Scoped bound (depth.toNat + 2) := .level (by omega)
      have ofDomain : Closure.Scoped bound depth.toNat 1 _ := ⟨domainEnv, domainBody⟩
      have ofCodomain : Closure.Scoped bound depth.toNat 2 _ := ⟨codomainEnv, codomainBody⟩
      have ofSelf := List.forall_mem_singleton.mpr outer
      apply Run.Safe.andThen (calls.call (ofDomain.mono (Nat.le_add_right _ 1)) ofSelf domainFits)
      intro domain trace called ofDomain
      obtain ⟨domainFits, rest⟩ := rest.apply called
      rw [← next] at ofDomain
      apply Run.Safe.andThen (ih ofDomain domainFits)
      intro domain trace done domainBelow
      obtain ⟨codomainFits, rest⟩ := rest.apply done
      have ofBoth := List.forall_mem_cons.mpr ⟨inner, List.forall_mem_singleton.mpr (outer.mono (Nat.le_succ _))⟩
      apply Run.Safe.andThen (calls.call (ofCodomain.mono (Nat.le_add_right _ 2)) ofBoth codomainFits)
      intro codomain trace called ofCodomain
      rw [← afterNext] at ofCodomain
      apply Run.Safe.andThen (ih ofCodomain (rest.apply called))
      intro codomain trace _ codomainBelow
      rw [next] at domainBelow
      rw [afterNext] at codomainBelow
      exact .ok (Term.freeBelow_all.mpr ⟨domainBelow, codomainBelow⟩) trace
    | lam erased param bodyEnv bodyBody =>
      rw [Value.QuoteDepthsFit] at fits
      obtain ⟨depthFits, bodyFits, rest⟩ := fits
      have next : (depth + 1).toNat = depth.toNat + 1 := Term.toNat_add_of_fits depthFits
      have outer : (Value.level depth).Scoped bound (depth.toNat + 1) := .level (Nat.lt_succ_self _)
      have ofBody : Closure.Scoped bound depth.toNat 1 _ := ⟨bodyEnv, bodyBody⟩
      have ofParam := List.forall_mem_singleton.mpr outer
      apply Run.Safe.andThen (calls.call (ofBody.mono (Nat.le_add_right _ 1)) ofParam bodyFits)
      intro body trace called ofBody
      rw [← next] at ofBody
      apply Run.Safe.andThen (ih ofBody (rest.apply called))
      intro body trace _ bodyBelow
      rw [next] at bodyBelow
      exact .ok (Term.freeBelow_lam.mpr bodyBelow) trace
    | app erased ofFn ofArg =>
      rw [Value.QuoteDepthsFit] at fits
      apply Run.Safe.andThen (ih ofFn fits.1)
      intro fn trace done fnBelow
      apply Run.Safe.andThen (ih ofArg (fits.2.apply done))
      intro arg trace _ argBelow
      exact .ok ⟨fnBelow, argBelow⟩ trace
    | ann checked ofType ofTerm =>
      rw [Value.QuoteDepthsFit] at fits
      apply Run.Safe.andThen (ih ofType fits.1)
      intro type trace done typeBelow
      apply Run.Safe.andThen (ih ofTerm (fits.2.apply done))
      intro term trace _ termBelow
      exact .ok ⟨typeBelow, termBelow⟩ trace

inductive Operation where
  | erase
  | evaluate
  | reduce
  | normalize

namespace Operation

def run (defs : Definitions) (fuel : Nat) : Operation → Term → Run Term
  | erase, t => .ok (t.erase, [])
  | evaluate, t => t.evaluate defs fuel
  | reduce, t => t.reduce defs fuel
  | normalize, t => t.normalize defs fuel

/-- The binder depths that an operation meets are words. Where terms are substituted into terms, nothing depends on it. -/
def DepthsFit (defs : Definitions) (fuel : Nat) : Operation → Term → Prop
  | erase, _ => True
  | evaluate, _ => True
  | reduce, t => (Value.ofTerm [] t).WeakHeadFits defs fuel [] ∧
    ((Value.ofTerm [] t).weakHead defs fuel []).Ensures fun v trace => v.QuoteDepthsFit defs fuel trace 0
  | normalize, t => (Value.ofTerm [] t).NormalizeFits defs fuel [] ∧
    ((Value.ofTerm [] t).normalize defs fuel []).Ensures fun v trace => v.QuoteDepthsFit defs fuel trace 0

theorem safe (closed : ∀ name d, defs name = some d → d.term.Closed) (op : Operation) {bound : Nat} {t : Term}
    (below : t.FreeBelow bound) (fits : op.DepthsFit defs fuel t) :
    Run.Safe (Term.FreeBelow bound) (op.run defs fuel t) := by
  have whole := Value.Scoped.ofWhole below 0
  cases op with
  | erase => exact .ok below.erase []
  | evaluate => exact below.weakHead closed
  | reduce =>
    apply Run.Safe.andThen ((keepsScope closed fuel).weakHead whole fits.1)
    intro v trace reduced ofValue
    exact Value.Scoped.quote closed ofValue (fits.2.apply reduced)
  | normalize =>
    apply Run.Safe.andThen ((keepsScope closed fuel).normalize whole fits.1)
    intro v trace normalized ofValue
    exact Value.Scoped.quote closed ofValue (fits.2.apply normalized)

end Operation

end SelfLambda
