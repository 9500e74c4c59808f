import SelfLambda.Proofs.Closure.NormalResult
import SelfLambda.Proofs.Lookup
import SelfLambda.Proofs.Term.Observation

/-! Two runs as an observer sees them. Runs of alike terms under alike definitions go in lockstep: with the same fuel
both stop for the same cause, or both end after asking for the same names, and the results are alike again. No
reducer ever looks at what an observer may pass over, wherever calls and substitutions carry it; and since both runs form
the same sums, nothing is asked about sums that wrap. -/

namespace SelfLambda

variable {o : Observer} {defs defs' : Definitions} {fuel : Nat} {trace : Trace}

def Observer.Follows (o : Observer) (trace : Trace) : Prop := ∀ name ∈ trace, o.knows name

theorem Observer.follows_nil (o : Observer) : o.Follows [] := nofun

theorem Observer.Follows.cons {name : Name} (known : o.knows name) (follows : o.Follows trace) :
    o.Follows (name :: trace) := by
  intro other member
  rcases List.mem_cons.mp member with rfl | earlier
  · exact known
  · exact follows other earlier

namespace Run

variable {α β α' β' : Type} {R : α → β → Prop} {S : α' → β' → Prop}

/-- Both runs stop for one cause, or both end with related results; in any case after the same names, all of them known. -/
def Alike (o : Observer) (R : α → β → Prop) (run : Run α) (other : Run β) : Prop :=
  match run, other with
  | .ok (result, trace), .ok (result', trace') => R result result' ∧ trace = trace' ∧ o.Follows trace
  | .error stop, .error stop' => stop = stop' ∧ o.Follows stop.asked
  | _, _ => False

theorem Alike.ok {result : α} {result' : β} (related : R result result') (follows : o.Follows trace) :
    Alike o R (.ok (result, trace)) (.ok (result', trace)) :=
  ⟨related, rfl, follows⟩

theorem Alike.stop (cause : Cause) (follows : o.Follows trace) :
    Alike o R (.error ⟨cause, trace⟩) (.error ⟨cause, trace⟩) :=
  ⟨rfl, follows⟩

theorem Alike.andThen {run : Run α} {other : Run β} {next : α → Trace → Run α'} {next' : β → Trace → Run β'}
    (first : Alike o R run other)
    (second : ∀ a b trace, run = .ok (a, trace) → R a b → o.Follows trace →
      Alike o S (next a trace) (next' b trace)) :
    Alike o S (run.andThen next) (other.andThen next') := by
  match run, other, first with
  | .error _, .error _, same => exact same
  | .ok (a, trace), .ok (b, _), ⟨related, rfl, follows⟩ => exact second a b trace rfl related follows

theorem Alike.ok_left {run : Run α} {other : Run β} (alike : Alike o R run other) {a : α}
    (done : run = .ok (a, trace)) : ∃ b, other = .ok (b, trace) ∧ R a b ∧ o.Follows trace := by
  subst done
  match other, alike with
  | .ok (b, _), ⟨related, rfl, follows⟩ => exact ⟨b, rfl, related, follows⟩

theorem Alike.ok_right {run : Run α} {other : Run β} (alike : Alike o R run other) {b : β}
    (done : other = .ok (b, trace)) : ∃ a, run = .ok (a, trace) ∧ R a b ∧ o.Follows trace := by
  subst done
  match run, alike with
  | .ok (a, _), ⟨related, rfl, follows⟩ => exact ⟨a, rfl, related, follows⟩

def SameOutcomes (R : α → β → Prop) (run : Nat → Run α) (other : Nat → Run β) : Prop :=
  ((∃ fuel out, run fuel = .ok out) ↔ ∃ fuel out, other fuel = .ok out) ∧
    ∀ fuel fuel' a b asked asked', run fuel = .ok (a, asked) → other fuel' = .ok (b, asked') → R a b ∧ asked = asked'

/-- What is alike at equal fuel comes out alike whatever fuel each side takes. -/
theorem SameOutcomes.of_alike {start : Trace} {run : Nat → Run α} {other : Nat → Run β} (steady : Steady start other)
    (alike : ∀ fuel, Alike o R (run fuel) (other fuel)) :
    SameOutcomes R run other := by
  refine ⟨⟨?_, ?_⟩, ?_⟩
  · rintro ⟨fuel, ⟨a, asked⟩, done⟩
    obtain ⟨b, done', -, -⟩ := (alike fuel).ok_left done
    exact ⟨fuel, _, done'⟩
  · rintro ⟨fuel, ⟨b, asked⟩, done⟩
    obtain ⟨a, done', -, -⟩ := (alike fuel).ok_right done
    exact ⟨fuel, _, done'⟩
  · intro fuel fuel' a b asked asked' done done'
    obtain ⟨b', atSameFuel, related, -⟩ := (alike fuel).ok_left done
    obtain ⟨rfl, rfl⟩ := (ends_of_ok steady atSameFuel).unique (ends_of_ok steady done')
    exact ⟨related, rfl⟩

theorem SameOutcomes.imp {S : α → β → Prop} {run : Nat → Run α} {other : Nat → Run β}
    (same : SameOutcomes R run other) (weaker : ∀ a b, R a b → S a b) : SameOutcomes S run other := by
  refine ⟨same.1, ?_⟩
  intro fuel fuel' a b asked asked' done done'
  obtain ⟨related, sameNames⟩ := same.2 fuel fuel' a b asked asked' done done'
  exact ⟨weaker a b related, sameNames⟩

end Run

theorem Definitions.Alike.unfolding_cases (stored : defs.Alike o defs') {name : Name} (known : o.knows name) :
    (unfolding defs name = none ∧ unfolding defs' name = none) ∨
      ∃ t t', unfolding defs name = some t ∧ unfolding defs' name = some t' ∧ t.Alike o t' := by
  have related := stored name known
  unfold unfolding
  revert related
  cases defs name with
  | none =>
    cases defs' name with
    | none => exact fun _ => .inl ⟨rfl, rfl⟩
    | some d' => exact nofun
  | some d =>
    cases defs' name with
    | none => exact nofun
    | some d' =>
      rintro (alike | _)
      have bothAlias := alike.eq_ref_iff name
      by_cases itself : d.term = .ref name
      · simp only [itself, bothAlias.mp itself, if_true]
        exact .inl ⟨trivial, trivial⟩
      · simp only [itself, mt bothAlias.mpr itself, if_false]
        exact .inr ⟨d.term, d'.term, rfl, rfl, alike⟩

theorem Term.Alike.weakHead (stored : defs.Alike o defs') {t t' : Term} (alike : t.Alike o t')
    (follows : o.Follows trace) :
    Run.Alike o (Term.Alike o) (t.weakHead defs fuel trace) (t'.weakHead defs' fuel trace) := by
  induction fuel generalizing trace t t' with
  | zero => exact .stop _ follows
  | succ fuel ih =>
    cases alike with
    | var index => exact .ok (.var index) follows
    | ref known =>
      have asked := follows.cons known
      simp only [Term.weakHead, consult]
      obtain ⟨kept, kept'⟩ | ⟨u, u', unfolds, unfolds', ofStored⟩ := stored.unfolding_cases known
      · rw [kept, kept']
        exact .ok (.ref known) asked
      · rw [unfolds, unfolds']
        exact ih ofStored asked
    | typ => exact .ok .typ follows
    | all erased ofSelf ofParam ofDomain ofCodomain =>
      exact .ok (.all erased ofSelf ofParam ofDomain ofCodomain) follows
    | lam erased ofParam ofBody =>
      cases erased with
      | false => exact .ok (.lam false ofParam ofBody) follows
      | true => exact ih (ofBody.subst (.placeholder o) 0) follows
    | app erased ofFn ofArg =>
      cases erased with
      | true => exact ih ofFn follows
      | false =>
        have ofArg := ofArg (.inl rfl)
        simp only [Term.weakHead]
        apply Run.Alike.andThen (ih ofFn follows)
        intro head head' trace reduced ofHead follows
        have stuck : Run.Alike o (Term.Alike o)
            (Run.andThen (Term.weakHead defs fuel trace _) fun arg trace => .ok (.app false head arg, trace))
            (Run.andThen (Term.weakHead defs' fuel trace _) fun arg trace => .ok (.app false head' arg, trace)) :=
          .andThen (ih ofArg follows) (fun _ _ _ _ result follows => .ok (.app false ofHead (fun _ => result)) follows)
        cases ofHead with
        | lam erased _ ofBody => exact ih (ofBody.subst ofArg 0) follows
        | _ => exact stuck
    | ann checked _ ofTerm => exact ih ofTerm follows

/-- Values as an observer sees them; closures are alike if their environments and bodies are, and as many
normalizations wait on them. -/
inductive Value.Alike (o : Observer) : Value → Value → Prop
  | free (index : UInt64) : Alike o (.free index) (.free index)
  | level (depth : UInt64) : Alike o (.level depth) (.level depth)
  | ref {name : Name} (known : o.knows name) : Alike o (.ref name) (.ref name)
  | typ : Alike o .typ .typ
  | all (erased : Bool) {self self' param param' : Name} {domain domain' codomain codomain' : Closure Value}
      (ofSelf : o.confuses self self') (ofParam : o.confuses param param')
      (domainEnv : List.Forall₂ (Alike o) domain.env domain'.env) (domainBody : domain.body.Alike o domain'.body)
      (domainPasses : domain.passes = domain'.passes)
      (codomainEnv : List.Forall₂ (Alike o) codomain.env codomain'.env)
      (codomainBody : codomain.body.Alike o codomain'.body) (codomainPasses : codomain.passes = codomain'.passes) :
      Alike o (.all erased self param domain codomain) (.all erased self' param' domain' codomain')
  | lam (erased : Bool) {param param' : Name} {body body' : Closure Value} (ofParam : o.confuses param param')
      (bodyEnv : List.Forall₂ (Alike o) body.env body'.env) (bodyBody : body.body.Alike o body'.body)
      (bodyPasses : body.passes = body'.passes) : Alike o (.lam erased param body) (.lam erased param' body')
  | app (erased : Bool) {fn fn' arg arg' : Value} (ofFn : Alike o fn fn')
      (ofArg : erased = false ∨ o.looksAtIrrelevant → Alike o arg arg') :
      Alike o (.app erased fn arg) (.app erased fn' arg')
  | ann (checked : Bool) {type type' term term' : Value} (ofType : o.looksAtIrrelevant → Alike o type type')
      (ofTerm : Alike o term term') : Alike o (.ann checked type term) (.ann checked type' term')

structure Closure.Alike (o : Observer) (c c' : Closure Value) : Prop where
  ofEnv : List.Forall₂ (Value.Alike o) c.env c'.env
  ofBody : c.body.Alike o c'.body
  samePasses : c.passes = c'.passes

namespace Value

variable {env env' : List Value}

theorem Alike.ofVar (ofEnv : List.Forall₂ (Value.Alike o) env env') (count index : UInt64) :
    (Value.ofVar env count index).Alike o (Value.ofVar env' count index) := by
  unfold Value.ofVar
  by_cases bound : index < count
  · simp only [bound, if_true]
    obtain ⟨missing, missing'⟩ | ⟨v, v', found, found', alike⟩ := getElem?_cases ofEnv index.toNat
    · rw [missing, missing']
      exact .free _
    · rw [found, found']
      exact alike
  · simp only [bound, if_false]
    exact .free _

theorem Alike.ofTerm (ofEnv : List.Forall₂ (Value.Alike o) env env') {t t' : Term} (alike : t.Alike o t') :
    (Value.ofTerm env t).Alike o (Value.ofTerm env' t') := by
  unfold Value.ofTerm
  rw [ofEnv.length_eq]
  induction alike with
  | var index => exact Alike.ofVar ofEnv _ index
  | ref known => exact .ref known
  | typ => exact .typ
  | all erased ofSelf ofParam ofDomain ofCodomain =>
    exact .all erased ofSelf ofParam ofEnv ofDomain rfl ofEnv ofCodomain rfl
  | lam erased ofParam ofBody => exact .lam erased ofParam ofEnv ofBody rfl
  | app erased _ _ fnLaw argLaw => exact .app erased fnLaw argLaw
  | ann checked _ _ typeLaw termLaw => exact .ann checked typeLaw termLaw

end Value

theorem Closure.Alike.call_ready {env env' args args' : List Value} {body body' : Term}
    (ofEnv : List.Forall₂ (Value.Alike o) env env') (ofBody : body.Alike o body')
    (ofArgs : List.Forall₂ (Value.Alike o) args args') (follows : o.Follows trace) :
    Run.Alike o (Value.Alike o) (Closure.call defs fuel trace ⟨env, body, 0⟩ args)
      (Closure.call defs' fuel trace ⟨env', body', 0⟩ args') := by
  rw [Closure.call_ready, Closure.call_ready]
  exact .ok (Value.Alike.ofTerm (List.rel_append ofArgs ofEnv) ofBody) follows

structure Lockstep (o : Observer) (defs defs' : Definitions) (fuel : Nat) : Prop where
  call : ∀ {trace} {c c' : Closure Value} {args args' : List Value}, c.Alike o c' →
    List.Forall₂ (Value.Alike o) args args' → o.Follows trace →
    Run.Alike o (Value.Alike o) (c.call defs fuel trace args) (c'.call defs' fuel trace args')
  weakHead : ∀ {trace} {v v' : Value}, v.Alike o v' → o.Follows trace →
    Run.Alike o (Value.Alike o) (v.weakHead defs fuel trace) (v'.weakHead defs' fuel trace)
  normalize : ∀ {trace} {v v' : Value}, v.Alike o v' → o.Follows trace →
    Run.Alike o (Value.Alike o) (v.normalize defs fuel trace) (v'.normalize defs' fuel trace)

namespace Lockstep

theorem call_succ (ih : Lockstep o defs defs' fuel) {c c' : Closure Value} {args args' : List Value}
    (alike : c.Alike o c') (ofArgs : List.Forall₂ (Value.Alike o) args args') (follows : o.Follows trace) :
    Run.Alike o (Value.Alike o) (c.call defs (fuel + 1) trace args) (c'.call defs' (fuel + 1) trace args') := by
  obtain ⟨env, body, passes⟩ := c
  obtain ⟨env', body', passes'⟩ := c'
  obtain ⟨ofEnv, ofBody, rfl⟩ := alike
  cases passes with
  | zero => exact Closure.Alike.call_ready ofEnv ofBody ofArgs follows
  | succ passes =>
    rw [Closure.call, Closure.call]
    have earlier : Closure.Alike o ⟨env, body, passes⟩ ⟨env', body', passes⟩ := ⟨ofEnv, ofBody, rfl⟩
    exact .andThen (ih.call earlier ofArgs follows) (fun _ _ _ _ result follows => ih.normalize result follows)

theorem called (ih : Lockstep o defs defs' fuel) {c c' : Closure Value} {args args' : List Value} (alike : c.Alike o c')
    (ofArgs : List.Forall₂ (Value.Alike o) args args') (follows : o.Follows trace) :
    Run.Alike o (Value.Alike o)
      (Run.andThen (c.call defs fuel trace args) fun v trace => v.weakHead defs fuel trace)
      (Run.andThen (c'.call defs' fuel trace args') fun v trace => v.weakHead defs' fuel trace) :=
  .andThen (ih.call alike ofArgs follows) (fun _ _ _ _ result follows => ih.weakHead result follows)

theorem weakHead_succ (stored : defs.Alike o defs') (ih : Lockstep o defs defs' fuel) {v v' : Value} (alike : v.Alike o v')
    (follows : o.Follows trace) :
    Run.Alike o (Value.Alike o) (v.weakHead defs (fuel + 1) trace) (v'.weakHead defs' (fuel + 1) trace) := by
  cases alike with
  | free index =>
    rw [Value.weakHead, Value.weakHead]
    exact .ok (.free index) follows
  | level depth =>
    rw [Value.weakHead, Value.weakHead]
    exact .ok (.level depth) follows
  | ref known =>
    have asked := follows.cons known
    simp only [Value.weakHead, consult]
    obtain ⟨kept, kept'⟩ | ⟨u, u', unfolds, unfolds', ofStored⟩ := stored.unfolding_cases known
    · rw [kept, kept']
      exact .ok (.ref known) asked
    · rw [unfolds, unfolds']
      exact ih.weakHead (Value.Alike.ofTerm .nil ofStored) asked
  | typ =>
    rw [Value.weakHead, Value.weakHead]
    exact .ok .typ follows
  | all erased ofSelf ofParam domainEnv domainBody domainPasses codomainEnv codomainBody codomainPasses =>
    rw [Value.weakHead, Value.weakHead]
    exact .ok (.all erased ofSelf ofParam domainEnv domainBody domainPasses codomainEnv codomainBody codomainPasses)
      follows
  | lam erased ofParam bodyEnv bodyBody bodyPasses =>
    rw [Value.weakHead.eq_def, Value.weakHead.eq_def]
    cases erased with
    | false => exact .ok (.lam false ofParam bodyEnv bodyBody bodyPasses) follows
    | true =>
      have ofPlaceholder := Value.Alike.ofTerm .nil (Term.Alike.placeholder o)
      exact ih.called ⟨bodyEnv, bodyBody, bodyPasses⟩ (.cons ofPlaceholder .nil) follows
  | app erased ofFn ofArg =>
    cases erased with
    | true =>
      rw [Value.weakHead, Value.weakHead]
      exact ih.weakHead ofFn follows
    | false =>
      have ofArg := ofArg (.inl rfl)
      simp only [Value.weakHead]
      apply Run.Alike.andThen (ih.weakHead ofFn follows)
      intro head head' trace reduced ofHead follows
      have stuck : Run.Alike o (Value.Alike o)
          (Run.andThen (Value.weakHead defs fuel trace _) fun arg trace => .ok (.app false head arg, trace))
          (Run.andThen (Value.weakHead defs' fuel trace _) fun arg trace => .ok (.app false head' arg, trace)) :=
        .andThen (ih.weakHead ofArg follows)
          (fun _ _ _ _ result follows => .ok (.app false ofHead (fun _ => result)) follows)
      cases ofHead with
      | lam erased _ bodyEnv bodyBody bodyPasses =>
        exact ih.called ⟨bodyEnv, bodyBody, bodyPasses⟩ (.cons ofArg .nil) follows
      | _ => exact stuck
  | ann checked _ ofTerm =>
    rw [Value.weakHead, Value.weakHead]
    exact ih.weakHead ofTerm follows

theorem normalize_succ (ih : Lockstep o defs defs' fuel) {v v' : Value} (alike : v.Alike o v')
    (follows : o.Follows trace) :
    Run.Alike o (Value.Alike o) (v.normalize defs (fuel + 1) trace) (v'.normalize defs' (fuel + 1) trace) := by
  rw [Value.normalize, Value.normalize]
  apply Run.Alike.andThen (ih.weakHead alike follows)
  intro head head' trace reduced ofHead follows
  cases ofHead with
  | all erased ofSelf ofParam domainEnv domainBody domainPasses codomainEnv codomainBody codomainPasses =>
    exact .ok (.all erased ofSelf ofParam domainEnv domainBody (congrArg (· + 1) domainPasses) codomainEnv codomainBody
      (congrArg (· + 1) codomainPasses)) follows
  | lam erased ofParam bodyEnv bodyBody bodyPasses =>
    exact .ok (.lam erased ofParam bodyEnv bodyBody (congrArg (· + 1) bodyPasses)) follows
  | app erased ofFn ofArg =>
    -- a weak-head form is never an erased application, so both arguments are seen
    cases Value.weak_of_weakHead reduced with
    | app _ _ _ =>
    apply Run.Alike.andThen (ih.normalize ofFn follows)
    intro fn fn' trace _ ofFn follows
    apply Run.Alike.andThen (ih.normalize (ofArg (.inl rfl)) follows)
    intro arg arg' trace _ ofArg follows
    exact .ok (.app false ofFn (fun _ => ofArg)) follows
  | free index => exact .ok (.free index) follows
  | level depth => exact .ok (.level depth) follows
  | ref known => exact .ok (.ref known) follows
  | typ => exact .ok .typ follows
  | ann checked ofType ofTerm => exact .ok (.ann checked ofType ofTerm) follows

theorem succ (stored : defs.Alike o defs') (ih : Lockstep o defs defs' fuel) : Lockstep o defs defs' (fuel + 1) :=
  ⟨ih.call_succ, ih.weakHead_succ stored, ih.normalize_succ⟩

end Lockstep

theorem lockstep (stored : defs.Alike o defs') (fuel : Nat) : Lockstep o defs defs' fuel := by
  induction fuel with
  | zero =>
    refine ⟨?_, ?_, ?_⟩
    · intro trace c c' args args' alike ofArgs follows
      obtain ⟨env, body, passes⟩ := c
      obtain ⟨env', body', passes'⟩ := c'
      obtain ⟨ofEnv, ofBody, rfl⟩ := alike
      cases passes with
      | zero => exact Closure.Alike.call_ready ofEnv ofBody ofArgs follows
      | succ passes =>
        rw [Closure.call, Closure.call]
        exact .stop _ follows
    · intro trace v v' _ follows
      rw [Value.weakHead, Value.weakHead]
      exact .stop _ follows
    · intro trace v v' _ follows
      rw [Value.normalize, Value.normalize]
      exact .stop _ follows
  | succ fuel ih => exact ih.succ stored

/-- The form of what normalization gives: nothing outside binders is erased or annotated, and what binders give is
normalized in turn. -/
inductive Value.Normalized : Value → Prop
  | free (index : UInt64) : Normalized (.free index)
  | level (depth : UInt64) : Normalized (.level depth)
  | ref (name : Name) : Normalized (.ref name)
  | typ : Normalized .typ
  | all (erased : Bool) (self param : Name) (domain codomain : Closure Value) :
      Normalized (.all erased self param domain.normalized codomain.normalized)
  | lam (erased : Bool) (param : Name) (body : Closure Value) : Normalized (.lam erased param body.normalized)
  | app {fn arg : Value} (ofFn : Normalized fn) (ofArg : Normalized arg) : Normalized (.app false fn arg)

theorem Value.normalized_of_normalize {v w : Value} {asked : Trace}
    (done : v.normalize defs fuel trace = .ok (w, asked)) : w.Normalized := by
  induction fuel generalizing v w trace asked with
  | zero =>
    rw [Value.normalize] at done
    cases done
  | succ fuel ih =>
    rw [Value.normalize] at done
    obtain ⟨head, _, reduced, rest⟩ := Run.andThen_eq_ok_iff.mp done
    cases Value.weak_of_weakHead reduced with
    | free index =>
      cases rest
      exact .free index
    | level depth =>
      cases rest
      exact .level depth
    | ref kept =>
      cases rest
      exact .ref _
    | typ =>
      cases rest
      exact .typ
    | all erased self param domain codomain =>
      cases rest
      exact .all erased self param domain codomain
    | lam param body =>
      cases rest
      exact .lam false param body
    | app _ _ _ =>
      obtain ⟨_, _, ofFn, rest⟩ := Run.andThen_eq_ok_iff.mp rest
      obtain ⟨_, _, ofArg, rest⟩ := Run.andThen_eq_ok_iff.mp rest
      cases rest
      exact .app (ih ofFn) (ih ofArg)

theorem Closure.normalized_of_call {c : Closure Value} {args : List Value} {w : Value} {asked : Trace}
    (called : c.normalized.call defs fuel trace args = .ok (w, asked)) : w.Normalized := by
  obtain ⟨v, start, less, done⟩ := Closure.exists_normalize_of_call called
  exact Value.normalized_of_normalize done

/-- Reading a value back shows nothing that the observer may pass over: because there is nothing such, or because the
value is normalized. -/
def Observer.Reads (o : Observer) (v : Value) : Prop := o.looksAtIrrelevant ∨ v.Normalized

namespace Observer.Reads

theorem all {erased : Bool} {self param : Name} {domain codomain : Closure Value}
    (reads : o.Reads (.all erased self param domain codomain)) {args : List Value} {w : Value} {asked : Trace} :
    (domain.call defs fuel trace args = .ok (w, asked) → o.Reads w) ∧
      (codomain.call defs fuel trace args = .ok (w, asked) → o.Reads w) := by
  rcases reads with looks | normalized
  · exact ⟨fun _ => .inl looks, fun _ => .inl looks⟩
  · cases normalized
    exact ⟨fun called => .inr (Closure.normalized_of_call called), fun called => .inr (Closure.normalized_of_call called)⟩

theorem lam {erased : Bool} {param : Name} {body : Closure Value} (reads : o.Reads (.lam erased param body))
    {args : List Value} {w : Value} {asked : Trace} (called : body.call defs fuel trace args = .ok (w, asked)) :
    o.Reads w := by
  rcases reads with looks | normalized
  · exact .inl looks
  · cases normalized
    exact .inr (Closure.normalized_of_call called)

theorem app {erased : Bool} {fn arg : Value} (reads : o.Reads (.app erased fn arg)) :
    o.Reads fn ∧ o.Reads arg ∧ (erased = false ∨ o.looksAtIrrelevant) := by
  rcases reads with looks | normalized
  · exact ⟨.inl looks, .inl looks, .inr looks⟩
  · cases normalized with
    | app ofFn ofArg => exact ⟨.inr ofFn, .inr ofArg, .inl rfl⟩

theorem ann {checked : Bool} {type term : Value} (reads : o.Reads (.ann checked type term)) : o.looksAtIrrelevant := by
  rcases reads with looks | normalized
  · exact looks
  · cases normalized

end Observer.Reads

theorem Value.Alike.quote (stored : defs.Alike o defs') {v v' : Value} (alike : v.Alike o v') (reads : o.Reads v)
    (depth : UInt64) (follows : o.Follows trace) :
    Run.Alike o (Term.Alike o.attentive) (v.quote defs fuel trace depth) (v'.quote defs' fuel trace depth) := by
  induction fuel generalizing trace depth v v' with
  | zero => exact .stop _ follows
  | succ fuel ih =>
    have calls := lockstep stored fuel
    cases alike with
    | free index => exact .ok (.var _) follows
    | level opened =>
      rw [Value.quote, Value.quote]
      split
      · exact .ok (.var _) follows
      · exact .stop _ follows
    | ref known => exact .ok (.ref known) follows
    | typ => exact .ok .typ follows
    | all erased ofSelf ofParam domainEnv domainBody domainPasses codomainEnv codomainBody codomainPasses =>
      apply Run.Alike.andThen (calls.call ⟨domainEnv, domainBody, domainPasses⟩ (.cons (.level depth) .nil) follows)
      intro domain domain' trace called ofDomain follows
      apply Run.Alike.andThen (ih ofDomain (reads.all.1 called) (depth + 1) follows)
      intro domain domain' trace _ ofDomain follows
      apply Run.Alike.andThen (calls.call ⟨codomainEnv, codomainBody, codomainPasses⟩
        (.cons (.level (depth + 1)) (.cons (.level depth) .nil)) follows)
      intro codomain codomain' trace called ofCodomain follows
      apply Run.Alike.andThen (ih ofCodomain (reads.all.2 called) (depth + 2) follows)
      intro codomain codomain' trace _ ofCodomain follows
      exact .ok (.all erased ofSelf ofParam ofDomain ofCodomain) follows
    | lam erased ofParam bodyEnv bodyBody bodyPasses =>
      apply Run.Alike.andThen (calls.call ⟨bodyEnv, bodyBody, bodyPasses⟩ (.cons (.level depth) .nil) follows)
      intro body body' trace called ofBody follows
      apply Run.Alike.andThen (ih ofBody (reads.lam called) (depth + 1) follows)
      intro body body' trace _ ofBody follows
      exact .ok (.lam erased ofParam ofBody) follows
    | app erased ofFn ofArg =>
      obtain ⟨readsFn, readsArg, seen⟩ := reads.app
      apply Run.Alike.andThen (ih ofFn readsFn depth follows)
      intro fn fn' trace _ ofFn follows
      apply Run.Alike.andThen (ih (ofArg seen) readsArg depth follows)
      intro arg arg' trace _ ofArg follows
      exact .ok (.app erased ofFn (fun _ => ofArg)) follows
    | ann checked ofType ofTerm =>
      have looks := reads.ann
      apply Run.Alike.andThen (ih (ofType looks) (.inl looks) depth follows)
      intro type type' trace _ ofType follows
      apply Run.Alike.andThen (ih ofTerm (.inl looks) depth follows)
      intro term term' trace _ ofTerm follows
      exact .ok (.ann checked (fun _ => ofType) ofTerm) follows

namespace Term.Alike

variable {t t' : Term}

theorem evaluate (stored : defs.Alike o defs') (alike : t.Alike o t') (fuel : Nat) :
    Run.Alike o (Term.Alike o) (t.evaluate defs fuel) (t'.evaluate defs' fuel) :=
  alike.weakHead stored o.follows_nil

/-- A weak-head form still shows what was passed over on the way, so only an observer who looks everywhere reads it. -/
theorem reduce (stored : defs.Alike o defs') (alike : t.Alike o t') (looks : o.looksAtIrrelevant) (fuel : Nat) :
    Run.Alike o (Term.Alike o.attentive) (t.reduce defs fuel) (t'.reduce defs' fuel) := by
  apply Run.Alike.andThen ((lockstep stored fuel).weakHead (Value.Alike.ofTerm .nil alike) o.follows_nil)
  intro v v' trace _ ofValue follows
  exact ofValue.quote stored (.inl looks) 0 follows

theorem normalize (stored : defs.Alike o defs') (alike : t.Alike o t') (fuel : Nat) :
    Run.Alike o (Term.Alike o.attentive) (t.normalize defs fuel) (t'.normalize defs' fuel) := by
  apply Run.Alike.andThen ((lockstep stored fuel).normalize (Value.Alike.ofTerm .nil alike) o.follows_nil)
  intro v v' trace done ofValue follows
  exact ofValue.quote stored (.inr (Value.normalized_of_normalize done)) 0 follows

end Term.Alike

end SelfLambda
