import SelfLambda.Proofs.Closure.Readback
import SelfLambda.Proofs.Reduction.Fuel
import SelfLambda.Proofs.Reduction.WrapFree

/-! Reduction by substitution and reduction by way of values go in step: with the same fuel both run out of it, or both
end with the same names asked for, and the value stands for the term. -/

namespace SelfLambda

namespace Run

variable {α β α' β' : Type}

/-- Two runs go alike: they fail for the same cause or come to related results, after the same names were asked for. The
runs may have begun with different names asked for before. -/
def Related (R : α → β → Prop) (start start' : Trace) (run : Run α) (other : Run β) : Prop :=
  match run, other with
  | .ok (result, trace), .ok (result', trace') =>
    R result result' ∧ ∃ asked, trace = asked ++ start ∧ trace' = asked ++ start'
  | .error stop, .error stop' =>
    stop.cause = stop'.cause ∧ ∃ asked, stop.asked = asked ++ start ∧ stop'.asked = asked ++ start'
  | _, _ => False

variable {R : α → β → Prop} {S : α' → β' → Prop} {start start' : Trace} {run : Run α} {other : Run β}

theorem Related.outOfFuel (start start' : Trace) :
    Related R start start' (.error ⟨.outOfFuel, start⟩) (.error ⟨.outOfFuel, start'⟩) :=
  ⟨rfl, [], rfl, rfl⟩

theorem Related.ok {result : α} {result' : β} (related : R result result') (start start' : Trace) :
    Related R start start' (.ok (result, start)) (.ok (result', start')) :=
  ⟨related, [], rfl, rfl⟩

theorem Related.after (asked : Trace) (related : Related R (asked ++ start) (asked ++ start') run other) :
    Related R start start' run other := by
  match run, other, related with
  | .error _, .error _, ⟨same, later, atStop, atStop'⟩ =>
    refine ⟨same, later ++ asked, ?_, ?_⟩
    · rw [atStop, List.append_assoc]
    · rw [atStop', List.append_assoc]
  | .ok (_, _), .ok (_, _), ⟨result, later, rfl, rfl⟩ =>
    exact ⟨result, later ++ asked, by rw [List.append_assoc], by rw [List.append_assoc]⟩

theorem Related.andThen {next : α → Trace → Run α'} {next' : β → Trace → Run β'}
    (first : Related R start start' run other)
    (second : ∀ a b trace trace', run = .ok (a, trace) → other = .ok (b, trace') → R a b →
      Related S trace trace' (next a trace) (next' b trace')) :
    Related S start start' (run.andThen next) (other.andThen next') := by
  match run, other, first with
  | .error _, .error _, same => exact same
  | .ok (a, _), .ok (b, _), ⟨related, asked, rfl, rfl⟩ => exact (second a b _ _ rfl rfl related).after asked

theorem Related.ok_left (related : Related R start start' run other) {a : α} {trace : Trace}
    (done : run = .ok (a, trace)) :
    ∃ b asked, other = .ok (b, asked ++ start') ∧ trace = asked ++ start ∧ R a b := by
  subst done
  match other, related with
  | .ok (b, _), ⟨result, asked, same, rfl⟩ => exact ⟨b, asked, rfl, same, result⟩

theorem Related.ok_right (related : Related R start start' run other) {b : β} {trace : Trace}
    (done : other = .ok (b, trace)) :
    ∃ a asked, run = .ok (a, asked ++ start) ∧ trace = asked ++ start' ∧ R a b := by
  subst done
  match run, related with
  | .ok (a, _), ⟨result, asked, rfl, same⟩ => exact ⟨a, asked, rfl, same, result⟩

end Run

open Run

abbrev Value.StandsFor (depth : Nat) (v : Value) (t : Term) : Prop := v.Reads depth t.unbounded

theorem Value.standsFor_ofTerm (t : Term) : (Value.ofTerm [] t).StandsFor 0 t := by
  have reads := Value.reads_ofTerm_nil 0 t
  have same : t.unbounded.rename (· + 0) = t.unbounded := t.unbounded.rename_id
  rwa [same] at reads

/-- Stored terms that mean the same under `depth` binders as outside: all of them at depth 0, closed ones at any. -/
def Definitions.StableAt (defs : Definitions) (depth : Nat) : Prop :=
  ∀ name t, unfolding defs name = some t → t.unbounded.rename (· + depth) = t.unbounded

def InStep (defs : Definitions) (depth fuel : Nat) : Prop :=
  ∀ trace trace' (v : Value) (t : Term), v.StandsFor depth t → v.WeakHeadFits defs fuel trace →
    t.WeakHeadFits defs fuel trace' →
    Related (Value.StandsFor depth) trace trace' (v.weakHead defs fuel trace) (t.weakHead defs fuel trace')

theorem Closure.callFits_ready {defs : Definitions} {fuel : Nat} {trace : Trace} {env : List Value} {body : Term}
    {args : List Value} (fits : Closure.CallFits defs fuel trace ⟨env, body, 0⟩ args) :
    env.length + args.length < UInt64.size := by
  cases fuel <;> rwa [Closure.CallFits] at fits

namespace InStep

variable {defs : Definitions} {depth fuel : Nat}

theorem ref (ih : InStep defs depth fuel) (stable : defs.StableAt depth) (trace trace' : Trace) (name : Name)
    (valueFits : (Value.ref name).WeakHeadFits defs (fuel + 1) trace)
    (termFits : (Term.ref name).WeakHeadFits defs (fuel + 1) trace') :
    Related (Value.StandsFor depth) trace trace' ((Value.ref name).weakHead defs (fuel + 1) trace)
      ((Term.ref name).weakHead defs (fuel + 1) trace') := by
  rw [Value.WeakHeadFits] at valueFits
  rw [Term.WeakHeadFits] at termFits
  rw [Value.weakHead, Term.weakHead]
  unfold consult at valueFits termFits ⊢
  apply Related.after [name]
  cases unfolds : unfolding defs name with
  | none => exact .ok (.ref name) _ _
  | some u =>
    rw [unfolds] at valueFits termFits
    have reads := Value.reads_ofTerm_nil depth u
    rw [stable name u unfolds] at reads
    exact ih _ _ _ u reads valueFits termFits

theorem called (ih : InStep defs depth fuel) (trace trace' : Trace) {env : List Value} {body' : Term}
    {σ : Nat → Unbounded} (ofEnv : EnvReads depth env σ) {body : Term}
    (same : body.unbounded = body'.unbounded.subst (.lift σ)) {arg : Value} {arg' : Term}
    (ofArg : arg.StandsFor depth arg')
    (callFits : Closure.CallFits defs fuel trace ⟨env, body', 0⟩ [arg])
    (resultFits : (Closure.call defs fuel trace ⟨env, body', 0⟩ [arg]).Ensures fun v trace =>
      v.WeakHeadFits defs fuel trace)
    (substFits : body.SubstFits arg' 0) (termFits : (body.subst arg' 0).WeakHeadFits defs fuel trace') :
    Related (Value.StandsFor depth) trace trace'
      (Run.andThen (Closure.call defs fuel trace ⟨env, body', 0⟩ [arg]) fun v trace => v.weakHead defs fuel trace)
      ((body.subst arg' 0).weakHead defs fuel trace') := by
  have ready := Closure.call_ready defs fuel trace env body' [arg]
  have reads := ofEnv.reads_call ofArg (Closure.callFits_ready callFits) body'
  rw [← same, ← Term.unbounded_subst_zero substFits] at reads
  rw [ready]
  exact ih trace trace' _ _ reads (resultFits.apply ready) termFits

theorem lam (ih : InStep defs depth fuel) (trace trace' : Trace) (erased : Bool) (param : Name) (v : Value)
    (body : Term) (reads : v.StandsFor depth (.lam erased param body)) (valueFits : v.WeakHeadFits defs (fuel + 1) trace)
    (termFits : (Term.lam erased param body).WeakHeadFits defs (fuel + 1) trace') :
    Related (Value.StandsFor depth) trace trace' (v.weakHead defs (fuel + 1) trace)
      ((Term.lam erased param body).weakHead defs (fuel + 1) trace') := by
  obtain ⟨env, body', σ, rfl, ofEnv, same⟩ := reads.of_lam
  cases erased with
  | false =>
    rw [Value.weakHead, Term.weakHead]
    exact .ok reads trace trace'
  | true =>
    rw [Value.WeakHeadFits] at valueFits
    rw [Term.WeakHeadFits] at termFits
    rw [Value.weakHead, Term.weakHead]
    exact ih.called trace trace' ofEnv same (.ref _) valueFits.1 valueFits.2 termFits.1 termFits.2

theorem stuck (ih : InStep defs depth fuel) (trace trace' : Trace) {head arg : Value} {head' arg' : Term}
    (ofHead : head.StandsFor depth head') (ofArg : arg.StandsFor depth arg')
    (valueFits : arg.WeakHeadFits defs fuel trace) (termFits : arg'.WeakHeadFits defs fuel trace') :
    Related (Value.StandsFor depth) trace trace'
      (Run.andThen (arg.weakHead defs fuel trace) fun arg trace => .ok (Value.app false head arg, trace))
      (Run.andThen (arg'.weakHead defs fuel trace') fun arg trace => .ok (Term.app false head' arg, trace)) := by
  apply Related.andThen (ih trace trace' arg arg' ofArg valueFits termFits)
  intro w u trace trace' _ _ result
  exact .ok (.app false ofHead result) trace trace'

theorem app (ih : InStep defs depth fuel) (trace trace' : Trace) (fn arg : Value) (fn' arg' : Term)
    (ofFn : fn.StandsFor depth fn') (ofArg : arg.StandsFor depth arg')
    (valueFits : (Value.app false fn arg).WeakHeadFits defs (fuel + 1) trace)
    (termFits : (Term.app false fn' arg').WeakHeadFits defs (fuel + 1) trace') :
    Related (Value.StandsFor depth) trace trace' ((Value.app false fn arg).weakHead defs (fuel + 1) trace)
      ((Term.app false fn' arg').weakHead defs (fuel + 1) trace') := by
  rw [Value.WeakHeadFits] at valueFits
  rw [Term.WeakHeadFits] at termFits
  rw [Value.weakHead, Term.weakHead]
  apply Related.andThen (ih trace trace' fn fn' ofFn valueFits.1 termFits.1)
  intro head head' trace trace' done done' ofHead
  have valueFits := valueFits.2.apply done
  have termFits := termFits.2.apply done'
  -- The value's head is a function exactly when the term's head is one, because reading keeps the outermost form.
  cases head' with
  | lam erased param body =>
    obtain ⟨env, body', σ, rfl, ofEnv, same⟩ := ofHead.of_lam
    exact ih.called trace trace' ofEnv same ofArg valueFits.1 valueFits.2 termFits.1 termFits.2
  | var index =>
    obtain ⟨free, rfl, -⟩ | ⟨opened, rfl, -⟩ := ofHead.of_var
    · exact ih.stuck trace trace' ofHead ofArg valueFits termFits
    · exact ih.stuck trace trace' ofHead ofArg valueFits termFits
  | ref name =>
    obtain rfl := ofHead.of_ref
    exact ih.stuck trace trace' ofHead ofArg valueFits termFits
  | typ =>
    obtain rfl := ofHead.of_typ
    exact ih.stuck trace trace' ofHead ofArg valueFits termFits
  | all erased self param domain codomain =>
    obtain ⟨_, _, _, _, _, _, rfl, -⟩ := ofHead.of_all
    exact ih.stuck trace trace' ofHead ofArg valueFits termFits
  | app erased f a =>
    obtain ⟨_, _, rfl, -⟩ := ofHead.of_app
    exact ih.stuck trace trace' ofHead ofArg valueFits termFits
  | ann checked type term =>
    obtain ⟨_, _, rfl, -⟩ := ofHead.of_ann
    exact ih.stuck trace trace' ofHead ofArg valueFits termFits

theorem succ (ih : InStep defs depth fuel) (stable : defs.StableAt depth) : InStep defs depth (fuel + 1) := by
  intro trace trace' v t reads valueFits termFits
  cases t with
  | var index =>
    obtain ⟨free, rfl, -⟩ | ⟨opened, rfl, -⟩ := reads.of_var
    · rw [Value.weakHead, Term.weakHead]
      exact .ok reads trace trace'
    · rw [Value.weakHead, Term.weakHead]
      exact .ok reads trace trace'
  | ref name =>
    obtain rfl := reads.of_ref
    exact ih.ref stable trace trace' name valueFits termFits
  | typ =>
    obtain rfl := reads.of_typ
    rw [Value.weakHead, Term.weakHead]
    exact .ok reads trace trace'
  | all erased self param domain codomain =>
    obtain ⟨_, _, _, _, _, _, rfl, -⟩ := reads.of_all
    rw [Value.weakHead, Term.weakHead]
    exact .ok reads trace trace'
  | lam erased param body => exact ih.lam trace trace' erased param v body reads valueFits termFits
  | app erased fn arg =>
    obtain ⟨f, a, rfl, ofFn, ofArg⟩ := reads.of_app
    cases erased with
    | false => exact ih.app trace trace' f a fn arg ofFn ofArg valueFits termFits
    | true =>
      rw [Value.WeakHeadFits] at valueFits
      rw [Term.WeakHeadFits] at termFits
      rw [Value.weakHead, Term.weakHead]
      exact ih trace trace' f fn ofFn valueFits termFits
  | ann checked type term =>
    obtain ⟨_, x, rfl, -, ofTerm⟩ := reads.of_ann
    rw [Value.WeakHeadFits] at valueFits
    rw [Term.WeakHeadFits] at termFits
    rw [Value.weakHead, Term.weakHead]
    exact ih trace trace' x term ofTerm valueFits termFits

end InStep

theorem inStep {defs : Definitions} {depth : Nat} (stable : defs.StableAt depth) (fuel : Nat) :
    InStep defs depth fuel := by
  induction fuel with
  | zero =>
    intro trace trace' v t _ _ _
    rw [Value.weakHead, Term.weakHead]
    exact .outOfFuel trace trace'
  | succ fuel ih => exact ih.succ stable

theorem Run.andThen_ok {α β : Type} {run : Run α} {result : α} {trace : Trace} (done : run = .ok (result, trace))
    (next : α → Trace → Run β) : run.andThen next = next result trace := by
  rw [done]
  rfl

theorem Value.Reads.quote_var {defs : Definitions} {fuel depth index : Nat} {trace : Trace} {v : Value}
    (reads : v.Reads depth (.var index)) (depthFits : depth < UInt64.size)
    (fits : v.QuoteFits defs (fuel + 1) trace (UInt64.ofNat depth)) :
    ∃ u, v.quote defs (fuel + 1) trace (UInt64.ofNat depth) = .ok (u, trace) ∧ u.unbounded = .var index := by
  have depthValue : (UInt64.ofNat depth).toNat = depth := Term.toNat_ofNat_of_fits depthFits
  obtain ⟨free, rfl, rfl⟩ | ⟨opened, rfl, inside, rfl⟩ := reads.of_var
  · rw [Value.QuoteFits] at fits
    refine ⟨_, rfl, ?_⟩
    rw [Term.unbounded, Term.toNat_add_of_fits fits, depthValue]
  · have below : opened < UInt64.ofNat depth := by rwa [UInt64.lt_iff_toNat_lt, depthValue]
    refine ⟨_, by rw [Value.quote, if_pos below], ?_⟩
    rw [Term.unbounded, toNat_sub_sub_one below, depthValue]

theorem Value.Reads.quote {defs : Definitions} {fuel depth : Nat} {trace : Trace} {v : Value} {s : Unbounded}
    (reads : v.Reads depth s) (depthFits : depth < UInt64.size)
    (fits : v.QuoteFits defs fuel trace (UInt64.ofNat depth)) (enough : s.size ≤ fuel) :
    ∃ u, v.quote defs fuel trace (UInt64.ofNat depth) = .ok (u, trace) ∧ u.unbounded = s := by
  induction fuel generalizing depth v s with
  | zero => exact absurd s.size_pos (by omega)
  | succ fuel ih =>
    have depthValue : (UInt64.ofNat depth).toNat = depth := Term.toNat_ofNat_of_fits depthFits
    cases s with
    | var index => exact reads.quote_var depthFits fits
    | ref name =>
      obtain rfl := reads.of_ref
      exact ⟨_, rfl, rfl⟩
    | typ =>
      obtain rfl := reads.of_typ
      exact ⟨_, rfl, rfl⟩
    | all erased self param domain codomain =>
      obtain ⟨env, a, σ, env', b, σ', rfl, ofEnv, ofEnv', rfl, rfl⟩ := reads.of_all
      rw [Value.QuoteFits, depthValue, ofNat_add_one, ofNat_add_two] at fits
      obtain ⟨nextFits, callFits, domainFits⟩ := fits
      have ready := Closure.call_ready defs fuel trace env a [.level (UInt64.ofNat depth)]
      have ofDomain := (ofEnv.opened depthFits).reads_ofTerm (Closure.callFits_ready callFits) a
      simp only [Unbounded.size] at enough
      obtain ⟨quoteFits, codomainFits⟩ := domainFits.apply ready
      obtain ⟨u, quoted, same⟩ := ih ofDomain (by omega) quoteFits (by omega)
      obtain ⟨callFits', quoteFits'⟩ := codomainFits.apply quoted
      have ready' := Closure.call_ready defs fuel trace env' b
        [.level (UInt64.ofNat (depth + 1)), .level (UInt64.ofNat depth)]
      have ofCodomain := ((ofEnv'.opened depthFits).opened (by omega)).reads_ofTerm (Closure.callFits_ready callFits') b
      obtain ⟨w, quoted', same'⟩ := ih ofCodomain nextFits (quoteFits'.apply ready') (by omega)
      refine ⟨.all erased self param u w, ?_, ?_⟩
      · rw [Value.quote, ofNat_add_one, ofNat_add_two, Run.andThen_ok ready, Run.andThen_ok quoted,
          Run.andThen_ok ready']
        exact Run.andThen_ok quoted' _
      · rw [Term.unbounded, same, same']
    | lam erased param body =>
      obtain ⟨env, b, σ, rfl, ofEnv, rfl⟩ := reads.of_lam
      rw [Value.QuoteFits, depthValue, ofNat_add_one] at fits
      obtain ⟨nextFits, callFits, bodyFits⟩ := fits
      have ready := Closure.call_ready defs fuel trace env b [.level (UInt64.ofNat depth)]
      have ofBody := (ofEnv.opened depthFits).reads_ofTerm (Closure.callFits_ready callFits) b
      simp only [Unbounded.size] at enough
      obtain ⟨u, quoted, same⟩ := ih ofBody nextFits (bodyFits.apply ready) (by omega)
      refine ⟨.lam erased param u, ?_, ?_⟩
      · rw [Value.quote, ofNat_add_one, Run.andThen_ok ready, Run.andThen_ok quoted]
      · rw [Term.unbounded, same]
    | app erased fn arg =>
      obtain ⟨f, a, rfl, ofFn, ofArg⟩ := reads.of_app
      rw [Value.QuoteFits] at fits
      simp only [Unbounded.size] at enough
      obtain ⟨f', quotedFn, sameFn⟩ := ih ofFn depthFits fits.1 (by omega)
      obtain ⟨a', quotedArg, sameArg⟩ := ih ofArg depthFits (fits.2.apply quotedFn) (by omega)
      refine ⟨.app erased f' a', ?_, ?_⟩
      · rw [Value.quote, Run.andThen_ok quotedFn, Run.andThen_ok quotedArg]
      · rw [Term.unbounded, sameFn, sameArg]
    | ann checked type term =>
      obtain ⟨a, x, rfl, ofType, ofTerm⟩ := reads.of_ann
      rw [Value.QuoteFits] at fits
      simp only [Unbounded.size] at enough
      obtain ⟨a', quotedType, sameType⟩ := ih ofType depthFits fits.1 (by omega)
      obtain ⟨x', quotedTerm, sameTerm⟩ := ih ofTerm depthFits (fits.2.apply quotedType) (by omega)
      refine ⟨.ann checked a' x', ?_, ?_⟩
      · rw [Value.quote, Run.andThen_ok quotedType, Run.andThen_ok quotedTerm]
      · rw [Term.unbounded, sameType, sameTerm]

theorem Definitions.stableAt_zero (defs : Definitions) : defs.StableAt 0 := by
  intro name t _
  exact t.unbounded.rename_id

theorem related_ofTerm {defs : Definitions} {t : Term} (evaluateFits : t.EvaluateFits defs)
    (reduceFits : t.ReduceFits defs) (fuel : Nat) :
    Related (Value.StandsFor 0) [] [] ((Value.ofTerm [] t).weakHead defs fuel []) (t.evaluate defs fuel) := by
  have stands := Value.standsFor_ofTerm t
  exact inStep defs.stableAt_zero fuel [] [] _ t stands (reduceFits fuel).1 (evaluateFits fuel)

theorem Term.reduce_of_evaluate {defs : Definitions} {t : Term} (evaluateFits : t.EvaluateFits defs)
    (reduceFits : t.ReduceFits defs) {fuel : Nat} {u : Term} {asked : Trace}
    (done : t.evaluate defs fuel = .ok (u, asked)) : ∃ enough, t.reduce defs enough = .ok (u, asked) := by
  obtain ⟨v, asked, reduced, rfl, reads⟩ := (related_ofTerm evaluateFits reduceFits fuel).ok_right done
  let enough := max fuel u.unbounded.size
  have reduced := (Value.weakHead_steady defs [] _ (Nat.le_max_left fuel u.unbounded.size)).result reduced
  have quoteFits := (reduceFits enough).2.apply reduced
  obtain ⟨u', quoted, same⟩ := reads.quote (by decide) quoteFits (Nat.le_max_right fuel u.unbounded.size)
  refine ⟨enough, ?_⟩
  rw [Term.reduce, Run.andThen_ok reduced, Term.unbounded_injective same.symm]
  exact quoted

theorem Term.evaluate_of_reduce {defs : Definitions} {t : Term} (evaluateFits : t.EvaluateFits defs)
    (reduceFits : t.ReduceFits defs) {fuel : Nat} {out : Term × Trace} (done : t.reduce defs fuel = .ok out) :
    ∃ u asked, t.evaluate defs fuel = .ok (u, asked) := by
  obtain ⟨v, asked, reduced, -⟩ := Run.andThen_eq_ok_iff.mp done
  obtain ⟨u, asked, evaluated, -⟩ := (related_ofTerm evaluateFits reduceFits fuel).ok_left reduced
  exact ⟨u, _, evaluated⟩

theorem Term.reduce_steady (defs : Definitions) (t : Term) : Steady [] (fun fuel => t.reduce defs fuel) :=
  fun more => .andThen (Value.weakHead_steady defs [] _ more) (fun v trace => v.quote_steady defs trace 0 more)

theorem Term.reduce_mono {defs : Definitions} {fuel fuel' : Nat} {t : Term} {out : Term × Trace}
    (done : t.reduce defs fuel = .ok out) (more : fuel ≤ fuel') : t.reduce defs fuel' = .ok out :=
  (t.reduce_steady defs more).result done

/-- Evaluation by substitution and reduction by way of values agree on every term, open or closed: one ends if and only
if the other does, and then with the same term after asking for the same names in the same order. -/
theorem Term.evaluate_agrees_reduce (defs : Definitions) (t : Term) (evaluateFits : t.EvaluateFits defs)
    (reduceFits : t.ReduceFits defs) :
    ((∃ fuel out, t.evaluate defs fuel = .ok out) ↔ ∃ fuel out, t.reduce defs fuel = .ok out) ∧
      ∀ fuel fuel' out out', t.evaluate defs fuel = .ok out → t.reduce defs fuel' = .ok out' → out = out' := by
  refine ⟨⟨?_, ?_⟩, ?_⟩
  · rintro ⟨fuel, ⟨u, asked⟩, evaluated⟩
    obtain ⟨enough, reduced⟩ := reduce_of_evaluate evaluateFits reduceFits evaluated
    exact ⟨enough, (u, asked), reduced⟩
  · rintro ⟨fuel, out, reduced⟩
    obtain ⟨u, asked, evaluated⟩ := evaluate_of_reduce evaluateFits reduceFits reduced
    exact ⟨fuel, (u, asked), evaluated⟩
  · intro fuel fuel' out out' evaluated reduced
    obtain ⟨enough, matching⟩ := reduce_of_evaluate evaluateFits reduceFits evaluated
    have early := reduce_mono reduced (Nat.le_max_left fuel' enough)
    have late := reduce_mono matching (Nat.le_max_right fuel' enough)
    rw [early] at late
    exact (Except.ok.inj late).symm

/-- A stored function is annotated and takes an erased parameter; its argument is open and goes under a binder, and all
of it is the argument of a name that stands for nothing. The erased argument is not asked for. -/
theorem Term.evaluate_agrees_reduce_stuck :
    let stored : Term :=
      .ann false .typ (.lam true [101] (.lam false [120] (.lam false [121] (.app false (.var 1) (.var 2)))))
    let defs : Definitions := fun name => if name = [107] then some ⟨[107], .typ, stored⟩ else none
    let t : Term := .app false (.ref [97]) (.app false (.app true (.ref [107]) (.ref [122])) (.var 5))
    let u : Term := .app false (.ref [97]) (.lam false [121] (.app false (.var 6) (.ref (Text.ascii "<erased>"))))
    t.EvaluateFits defs ∧ t.ReduceFits defs ∧ t.evaluate defs 9 = .ok (u, [[107], [97]]) ∧
      ∃ fuel, t.reduce defs fuel = .ok (u, [[107], [97]]) := by
  intro stored defs t u
  have evaluateFits : t.EvaluateFits defs := by
    rintro (_ | _ | _ | _ | _ | _ | _ | fuel) <;>
      simp [t, defs, stored, placeholder, WeakHeadFits, weakHead, Run.Ensures, consult, unfolding, SubstFits, ShiftFits,
        EachVar, subst, shift, mapVars, UInt64.size, Text.ascii]
  have reduceFits : t.ReduceFits defs := by
    rintro (_ | _ | _ | _ | _ | _ | _ | fuel) <;>
      simp [t, defs, stored, placeholder, Value.ofTerm, Value.ofTermIn, Value.ofVar, Value.WeakHeadFits, Value.weakHead,
        Run.Ensures, Run.andThen, Closure.call, Closure.CallFits, Value.QuoteFits, Value.quote, consult, unfolding, UInt64.size]
  have evaluated : t.evaluate defs 9 = .ok (u, [[107], [97]]) := by
    simp [t, u, defs, stored, placeholder, evaluate, weakHead, Run.andThen, consult, unfolding, subst, shift, mapVars,
      Text.ascii]
  obtain ⟨ends, same⟩ := evaluate_agrees_reduce _ t evaluateFits reduceFits
  obtain ⟨fuel, out, reduced⟩ := ends.mp ⟨9, _, evaluated⟩
  refine ⟨evaluateFits, reduceFits, evaluated, fuel, ?_⟩
  rw [reduced, ← same _ _ _ _ evaluated reduced]

end SelfLambda
