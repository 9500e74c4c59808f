import SelfLambda.Proofs.Closure.NormalResult
import SelfLambda.Proofs.Reduction.BigStep
import SelfLambda.Proofs.Reduction.Steps

/-! Runs of the reducers of values against the relations over numbers. A run that ends and forms no sum that wraps has a
derivation behind it, and where there is a derivation every such run ends. Both hold under any number of open binders, so
the two together take questions about termination and results away from fuel, closures and words. -/

namespace SelfLambda

open Filter Run

variable {defs : Definitions} {depth : Nat} {trace trace' asked asked' : Trace} {v w : Value} {s s' m : Unbounded}

theorem Value.reads_stored (closed : Unbounded.StoresClosed defs.stored) {name : Name} {t : Term}
    (unfolds : unfolding defs name = some t) : (Value.ofTerm [] t).Reads depth t.unbounded := by
  have reads := Value.reads_ofTerm_nil depth t
  rwa [closed name _ (Definitions.stored_of_unfolding unfolds)] at reads

theorem Value.reads_placeholder : (Value.ofTerm [] Term.placeholder).Reads depth Unbounded.placeholder := .ref _

/-- What a call that nothing waits on gives stands for the body with the argument put in, and goes on in a run that
forms no sum that wraps. -/
theorem EnvReads.called {env : List Value} {σ : Nat → Unbounded} {fuel : Nat} {body : Term} {arg : Value}
    (ofEnv : EnvReads depth env σ) (ofArg : arg.Reads depth s)
    (fits : Closure.CallFits defs fuel trace ⟨env, body, 0⟩ [arg] ∧
      (Closure.call defs fuel trace ⟨env, body, 0⟩ [arg]).Ensures fun v trace => v.WeakHeadFits defs fuel trace) :
    (Value.ofTerm ([arg] ++ env) body).Reads depth
        ((body.unbounded.subst (.lift σ)).subst (Unbounded.cons s .var)) ∧
      (Value.ofTerm ([arg] ++ env) body).WeakHeadFits defs fuel trace := by
  constructor
  · exact ofEnv.reads_call ofArg (Closure.callFits_ready fits.1) body
  · exact fits.2.apply (Closure.call_ready defs fuel trace env body [arg])

theorem Value.Reads.weakHead (closed : Unbounded.StoresClosed defs.stored) {fuel : Nat} (reads : v.Reads depth s)
    (fits : v.WeakHeadFits defs fuel trace) (done : v.weakHead defs fuel trace = .ok (w, asked)) :
    ∃ s', Unbounded.WeakHead defs.stored s s' ∧ w.Reads depth s' := by
  induction fuel generalizing v w s trace asked with
  | zero =>
    rw [Value.weakHead] at done
    cases done
  | succ fuel ih =>
    cases reads with
    | free index =>
      rw [Value.weakHead] at done
      cases done
      exact ⟨_, .var _, .free index⟩
    | level opened inside =>
      rw [Value.weakHead] at done
      cases done
      exact ⟨_, .var _, .level opened inside⟩
    | ref name =>
      rw [Value.weakHead, consult] at done
      rw [Value.WeakHeadFits, consult] at fits
      cases unfolds : unfolding defs name with
      | none =>
        rw [unfolds] at done
        cases done
        exact ⟨_, .ref (Definitions.stored_eq_none.mpr unfolds), .ref name⟩
      | some t =>
        rw [unfolds] at done fits
        obtain ⟨s', head, ofHead⟩ := ih (Value.reads_stored closed unfolds) fits done
        exact ⟨s', .unfold (Definitions.stored_of_unfolding unfolds) head, ofHead⟩
    | typ =>
      rw [Value.weakHead] at done
      cases done
      exact ⟨_, .typ, .typ⟩
    | all erased self param domain codomain inside outside inside' outside' =>
      rw [Value.weakHead] at done
      cases done
      exact ⟨_, .all _ _ _ _ _, .all erased self param domain codomain inside outside inside' outside'⟩
    | lam erased param body inside outside =>
      cases erased with
      | false =>
        rw [Value.weakHead] at done
        cases done
        exact ⟨_, .lam _ _, .lam false param body inside outside⟩
      | true =>
        rw [Value.weakHead] at done
        rw [Value.WeakHeadFits] at fits
        obtain ⟨ofBody, bodyFits⟩ := EnvReads.called ⟨inside, outside⟩ Value.reads_placeholder fits
        rw [Closure.call_ready] at done
        obtain ⟨s', head, ofHead⟩ := ih ofBody bodyFits done
        exact ⟨s', .instantiate _ head, ofHead⟩
    | app erased ofFn ofArg =>
      cases erased with
      | true =>
        rw [Value.weakHead] at done
        rw [Value.WeakHeadFits] at fits
        obtain ⟨s', head, ofHead⟩ := ih ofFn fits done
        exact ⟨s', .drop _ head, ofHead⟩
      | false =>
        rw [Value.weakHead] at done
        rw [Value.WeakHeadFits] at fits
        obtain ⟨w', askedFn, reduced, rest⟩ := Run.andThen_eq_ok_iff.mp done
        obtain ⟨head, ofFn, ofHead⟩ := ih ofFn fits.1 reduced
        have fits := fits.2.apply reduced
        have keptHead := ofHead
        cases ofHead with
        | lam erased param body inside outside =>
          -- a weak-head form is no erased function, so the rule for calls applies
          cases Value.weak_of_weakHead reduced
          obtain ⟨ofBody, bodyFits⟩ := EnvReads.called ⟨inside, outside⟩ ofArg fits
          simp only [Closure.call_ready] at rest
          obtain ⟨s', result, ofResult⟩ := ih ofBody bodyFits rest
          exact ⟨s', .beta ofFn result, ofResult⟩
        | _ =>
          obtain ⟨_, _, reducedArg, rest⟩ := Run.andThen_eq_ok_iff.mp rest
          cases rest
          obtain ⟨arg', result, ofResult⟩ := ih ofArg fits reducedArg
          exact ⟨_, .stuck ofFn id result, .app false keptHead ofResult⟩
    | ann checked ofType ofTerm =>
      rw [Value.weakHead] at done
      rw [Value.WeakHeadFits] at fits
      obtain ⟨s', head, ofHead⟩ := ih ofTerm fits done
      exact ⟨s', .strip _ _ head, ofHead⟩

theorem Closure.ends_call_ready (env : List Value) (body : Term) (args : List Value) :
    Ends (Closure.call defs · trace ⟨env, body, 0⟩ args) (Value.ofTerm (args ++ env) body) trace :=
  Eventually.of_forall (fun fuel => Closure.call_ready defs fuel trace env body args)

theorem Value.Weak.ends_reads (weak : v.Weak defs) (reads : v.Reads depth s) :
    ∃ w asked, Ends (v.weakHead defs · trace) w asked ∧ w.Reads depth s := by
  obtain ⟨asked, ends⟩ := weak.ends_weakHead trace
  exact ⟨v, asked, ends, reads⟩

theorem Unbounded.WeakHead.ends (closed : StoresClosed defs.stored) (head : WeakHead defs.stored s s')
    (reads : v.Reads depth s) (fits : ∀ᶠ fuel in atTop, v.WeakHeadFits defs fuel trace) :
    ∃ w asked, Ends (v.weakHead defs · trace) w asked ∧ w.Reads depth s' := by
  induction head generalizing v trace with
  | var index =>
    obtain ⟨_, rfl, -⟩ | ⟨_, rfl, -⟩ := reads.of_var
    · exact Value.Weak.ends_reads (.free _) reads
    · exact Value.Weak.ends_reads (.level _) reads
  | typ =>
    obtain rfl := reads.of_typ
    exact Value.Weak.ends_reads .typ reads
  | all erased self param domain codomain =>
    obtain ⟨_, _, _, _, _, _, rfl, -⟩ := reads.of_all
    exact Value.Weak.ends_reads (.all _ _ _ _ _) reads
  | lam param body =>
    obtain ⟨_, _, _, rfl, -⟩ := reads.of_lam
    exact Value.Weak.ends_reads (.lam _ _) reads
  | ref kept =>
    obtain rfl := reads.of_ref
    exact Value.Weak.ends_reads (.ref (Definitions.stored_eq_none.mp kept)) reads
  | unfold found _ ih =>
    obtain rfl := reads.of_ref
    obtain ⟨t, unfolds, rfl⟩ := Option.map_eq_some_iff.mp found
    have fits := eventually_succ.mpr fits
    simp only [Value.WeakHeadFits, consult, unfolds] at fits
    obtain ⟨w, asked, ends, ofHead⟩ := ih (Value.reads_stored closed unfolds) fits
    refine ⟨w, asked, ends_of_succ ?_, ofHead⟩
    simpa only [Value.weakHead, consult, unfolds] using ends
  | instantiate param _ ih =>
    obtain ⟨env, b, σ, rfl, ofEnv, rfl⟩ := reads.of_lam
    have fits := eventually_succ.mpr fits
    simp only [Value.WeakHeadFits] at fits
    obtain ⟨_, someFits⟩ := fits.exists
    have bodyFits := fits.mono (fun _ fits => (ofEnv.called Value.reads_placeholder fits).2)
    obtain ⟨w, asked, ends, ofHead⟩ := ih (ofEnv.called Value.reads_placeholder someFits).1 bodyFits
    refine ⟨w, asked, ends_of_succ ?_, ofHead⟩
    simp only [Value.weakHead]
    exact (Closure.ends_call_ready env b _).andThen ends
  | drop arg _ ih =>
    obtain ⟨f, a, rfl, ofFn, -⟩ := reads.of_app
    have fits := eventually_succ.mpr fits
    simp only [Value.WeakHeadFits] at fits
    obtain ⟨w, asked, ends, ofHead⟩ := ih ofFn fits
    refine ⟨w, asked, ends_of_succ ?_, ofHead⟩
    simpa only [Value.weakHead] using ends
  | strip checked type _ ih =>
    obtain ⟨_, x, rfl, -, ofTerm⟩ := reads.of_ann
    have fits := eventually_succ.mpr fits
    simp only [Value.WeakHeadFits] at fits
    obtain ⟨w, asked, ends, ofHead⟩ := ih ofTerm fits
    refine ⟨w, asked, ends_of_succ ?_, ofHead⟩
    simpa only [Value.weakHead] using ends
  | beta _ _ fnLaw bodyLaw =>
    obtain ⟨f, a, rfl, ofFn, ofArg⟩ := reads.of_app
    have fits := eventually_succ.mpr fits
    simp only [Value.WeakHeadFits] at fits
    obtain ⟨head, askedFn, endsFn, ofHead⟩ := fnLaw ofFn (fits.mono (fun _ fits => fits.1))
    obtain ⟨env, b, σ, rfl, ofEnv, rfl⟩ := ofHead.of_lam
    have callFits := endsFn.ensures (fits.mono (fun _ fits => fits.2))
    obtain ⟨_, someFits⟩ := callFits.exists
    have bodyFits := callFits.mono (fun _ fits => (ofEnv.called ofArg fits).2)
    obtain ⟨w, asked, ends, ofResult⟩ := bodyLaw (ofEnv.called ofArg someFits).1 bodyFits
    refine ⟨w, asked, ends_of_succ ?_, ofResult⟩
    simp only [Value.weakHead]
    exact endsFn.andThen ((Closure.ends_call_ready env b _).andThen ends)
  | stuck _ noFunction _ fnLaw argLaw =>
    obtain ⟨f, a, rfl, ofFn, ofArg⟩ := reads.of_app
    have fits := eventually_succ.mpr fits
    simp only [Value.WeakHeadFits] at fits
    obtain ⟨head, askedFn, endsFn, ofHead⟩ := fnLaw ofFn (fits.mono (fun _ fits => fits.1))
    have restFits := endsFn.ensures (fits.mono (fun _ fits => fits.2))
    have keptHead := ofHead
    cases ofHead with
    | lam => exact absurd trivial noFunction
    | _ =>
      obtain ⟨w, asked, ends, ofResult⟩ := argLaw ofArg restFits
      refine ⟨_, asked, ends_of_succ ?_, .app false keptHead ofResult⟩
      simp only [Value.weakHead]
      exact endsFn.andThen (ends.andThen (.const _ _))

theorem Closure.run_of_call {fuel : Nat} {env : List Value} {body : Term} {args : List Value}
    (fits : Closure.CallFits defs fuel trace (Closure.normalized ⟨env, body, 0⟩) args)
    (done : Closure.call defs fuel trace (Closure.normalized ⟨env, body, 0⟩) args = .ok (w, asked)) :
    env.length + args.length < UInt64.size ∧ ∃ less, (Value.ofTerm (args ++ env) body).NormalizeFits defs less trace ∧
      (Value.ofTerm (args ++ env) body).normalize defs less trace = .ok (w, asked) := by
  cases fuel with
  | zero =>
    rw [Closure.normalized, Closure.call] at done
    cases done
  | succ less =>
    rw [call_normalized] at done
    obtain ⟨room, bodyFits⟩ := callFits_normalized fits
    exact ⟨room, less, bodyFits, done⟩

/-- In runs that form no sum that wraps, `v` normalizes, and its normal form reads back under `depth` binders as `n` with
`fuel` units for reading back. -/
def Value.RunsTo (defs : Definitions) (fuel depth : Nat) (v : Value) (n : Term) : Prop :=
  ∃ trace enough w asked, v.NormalizeFits defs enough trace ∧ v.normalize defs enough trace = .ok (w, asked) ∧
    ∃ trace' asked', w.QuoteFits defs fuel trace' (UInt64.ofNat depth) ∧
      w.quote defs fuel trace' (UInt64.ofNat depth) = .ok (n, asked')

theorem Value.lam_runs {erased : Bool} {param : Name} {env : List Value} {b n : Term} {fuel : Nat}
    (depthFits : depth < UInt64.size)
    (fits : (Value.lam erased param (Closure.normalized ⟨env, b, 0⟩)).QuoteFits defs (fuel + 1) trace
      (UInt64.ofNat depth))
    (quoted : (Value.lam erased param (Closure.normalized ⟨env, b, 0⟩)).quote defs (fuel + 1) trace
      (UInt64.ofNat depth) = .ok (n, asked)) :
    depth + 1 < UInt64.size ∧ env.length + 1 < UInt64.size ∧ ∃ body, n = .lam erased param body ∧
      (Value.ofTerm ([.level (UInt64.ofNat depth)] ++ env) b).RunsTo defs fuel (depth + 1) body := by
  rw [Value.QuoteFits, Term.toNat_ofNat_of_fits depthFits, ofNat_add_one] at fits
  rw [Value.quote, ofNat_add_one] at quoted
  obtain ⟨nextFits, callFits, bodyFits⟩ := fits
  obtain ⟨w, _, called, quoted⟩ := Run.andThen_eq_ok_iff.mp quoted
  obtain ⟨body, _, quotedBody, result⟩ := Run.andThen_eq_ok_iff.mp quoted
  cases result
  obtain ⟨room, _, normalizeFits, normalized⟩ := Closure.run_of_call callFits called
  exact ⟨nextFits, room, body, rfl, _, _, w, _, normalizeFits, normalized, _, _, bodyFits.apply called, quotedBody⟩

theorem Value.all_runs {erased : Bool} {self param : Name} {env env' : List Value} {a b n : Term} {fuel : Nat}
    (depthFits : depth < UInt64.size)
    (fits : (Value.all erased self param (Closure.normalized ⟨env, a, 0⟩) (Closure.normalized ⟨env', b, 0⟩)).QuoteFits
      defs (fuel + 1) trace (UInt64.ofNat depth))
    (quoted : (Value.all erased self param (Closure.normalized ⟨env, a, 0⟩) (Closure.normalized ⟨env', b, 0⟩)).quote
      defs (fuel + 1) trace (UInt64.ofNat depth) = .ok (n, asked)) :
    depth + 2 < UInt64.size ∧ env.length + 1 < UInt64.size ∧ env'.length + 2 < UInt64.size ∧
      ∃ domain codomain, n = .all erased self param domain codomain ∧
        (Value.ofTerm ([.level (UInt64.ofNat depth)] ++ env) a).RunsTo defs fuel (depth + 1) domain ∧
        (Value.ofTerm ([.level (UInt64.ofNat (depth + 1)), .level (UInt64.ofNat depth)] ++ env') b).RunsTo defs fuel
          (depth + 2) codomain := by
  rw [Value.QuoteFits, Term.toNat_ofNat_of_fits depthFits, ofNat_add_one, ofNat_add_two] at fits
  rw [Value.quote, ofNat_add_one, ofNat_add_two] at quoted
  obtain ⟨nextFits, callFits, quoteFits⟩ := fits
  obtain ⟨w, _, called, quoted⟩ := Run.andThen_eq_ok_iff.mp quoted
  obtain ⟨domain, _, quotedDomain, quoted⟩ := Run.andThen_eq_ok_iff.mp quoted
  obtain ⟨w', _, called', quoted⟩ := Run.andThen_eq_ok_iff.mp quoted
  obtain ⟨codomain, _, quotedCodomain, result⟩ := Run.andThen_eq_ok_iff.mp quoted
  cases result
  obtain ⟨domainFits, restFits⟩ := quoteFits.apply called
  obtain ⟨callFits', codomainFits⟩ := restFits.apply quotedDomain
  obtain ⟨room, _, normalizeFits, normalized⟩ := Closure.run_of_call callFits called
  obtain ⟨room', _, normalizeFits', normalized'⟩ := Closure.run_of_call callFits' called'
  exact ⟨nextFits, room, room', domain, codomain, rfl,
    ⟨_, _, w, _, normalizeFits, normalized, _, _, domainFits, quotedDomain⟩,
    ⟨_, _, w', _, normalizeFits', normalized', _, _, codomainFits.apply called', quotedCodomain⟩⟩

/-- A normalization that ends and reads back has a derivation behind it. The induction is on the fuel of reading back,
which pays for every binder that it opens. -/
theorem Value.RunsTo.normalizes (closed : Unbounded.StoresClosed defs.stored) {fuel : Nat} {n : Term}
    (runs : v.RunsTo defs fuel depth n) (reads : v.Reads depth s) (depthFits : depth < UInt64.size) :
    Unbounded.Normalizes defs.stored s n.unbounded := by
  induction fuel generalizing depth v s n with
  | zero =>
    obtain ⟨_, _, _, _, -, -, _, _, -, quoted⟩ := runs
    cases quoted
  | succ fuel ih =>
    obtain ⟨trace, enough, w, asked, fits, normalized, trace', asked', quoteFits, quoted⟩ := runs
    cases enough with
    | zero =>
      rw [Value.normalize] at normalized
      cases normalized
    | succ enough =>
    rw [Value.normalize] at normalized
    rw [Value.NormalizeFits] at fits
    obtain ⟨head, _, reduced, rest⟩ := Run.andThen_eq_ok_iff.mp normalized
    obtain ⟨s', weakHead, ofHead⟩ := reads.weakHead closed fits.1 reduced
    have fits := fits.2.apply reduced
    -- free variables and levels are both variables over numbers
    have asVar {index : Nat} (ofHead : w.Reads depth (.var index))
        (weakHead : Unbounded.WeakHead defs.stored s (.var index)) :
        Unbounded.Normalizes defs.stored s n.unbounded := by
      obtain ⟨u, quotedVar, same⟩ := ofHead.quote_var depthFits quoteFits
      rw [quotedVar] at quoted
      cases quoted
      exact same ▸ .leaf weakHead trivial
    cases ofHead with
    | free index =>
      cases rest
      exact asVar (.free index) weakHead
    | level opened inside =>
      cases rest
      exact asVar (.level opened inside) weakHead
    | ref name =>
      cases rest
      cases quoted
      exact .leaf weakHead trivial
    | typ =>
      cases rest
      cases quoted
      exact .leaf weakHead trivial
    | all erased self param a b inside outside inside' outside' =>
      cases rest
      have ofEnv : EnvReads depth _ _ := ⟨inside, outside⟩
      have ofEnv' : EnvReads depth _ _ := ⟨inside', outside'⟩
      obtain ⟨nextFits, room, room', domain, codomain, rfl, ofDomain, ofCodomain⟩ :=
        Value.all_runs depthFits quoteFits quoted
      have readsDomain := (ofEnv.opened depthFits).reads_ofTerm room a
      have readsCodomain := ((ofEnv'.opened depthFits).opened (by omega)).reads_ofTerm room' b
      exact .all weakHead (ih ofDomain readsDomain (by omega)) (ih ofCodomain readsCodomain nextFits)
    | lam erased param b inside outside =>
      cases rest
      have ofEnv : EnvReads depth _ _ := ⟨inside, outside⟩
      obtain ⟨nextFits, room, body, rfl, ofBody⟩ := Value.lam_runs depthFits quoteFits quoted
      exact .lam weakHead (ih ofBody ((ofEnv.opened depthFits).reads_ofTerm room b) nextFits)
    | app erased ofFn ofArg =>
      obtain ⟨_, _, normalizedFn, rest⟩ := Run.andThen_eq_ok_iff.mp rest
      obtain ⟨_, _, normalizedArg, rest⟩ := Run.andThen_eq_ok_iff.mp rest
      cases rest
      rw [Value.quote] at quoted
      rw [Value.QuoteFits] at quoteFits
      obtain ⟨fn, _, quotedFn, quoted⟩ := Run.andThen_eq_ok_iff.mp quoted
      obtain ⟨arg, _, quotedArg, result⟩ := Run.andThen_eq_ok_iff.mp quoted
      cases result
      have fnRuns : Value.RunsTo defs fuel depth _ fn :=
        ⟨_, enough, _, _, fits.1, normalizedFn, _, _, quoteFits.1, quotedFn⟩
      have argRuns : Value.RunsTo defs fuel depth _ arg :=
        ⟨_, enough, _, _, fits.2.apply normalizedFn, normalizedArg, _, _, quoteFits.2.apply quotedFn, quotedArg⟩
      exact .app weakHead (ih fnRuns ofFn depthFits) (ih argRuns ofArg depthFits)
    | ann checked ofType ofTerm => cases Value.weak_of_weakHead reduced

def Unbounded.words : Unbounded → Term
  | .var index => .var (UInt64.ofNat index)
  | .ref name => .ref name
  | .typ => .typ
  | .all erased self param domain codomain => .all erased self param domain.words codomain.words
  | .lam erased param body => .lam erased param body.words
  | .app erased fn arg => .app erased fn.words arg.words
  | .ann checked type term => .ann checked type.words term.words

theorem Term.words_unbounded (t : Term) : t.unbounded.words = t := by
  induction t with
  | var index => rw [Term.unbounded, Unbounded.words, UInt64.ofNat_toNat]
  | ref name => rfl
  | typ => rfl
  | all erased self param domain codomain domainLaw codomainLaw =>
    rw [Term.unbounded, Unbounded.words, domainLaw, codomainLaw]
  | lam erased param body bodyLaw => rw [Term.unbounded, Unbounded.words, bodyLaw]
  | app erased fn arg fnLaw argLaw => rw [Term.unbounded, Unbounded.words, fnLaw, argLaw]
  | ann checked type term typeLaw termLaw => rw [Term.unbounded, Unbounded.words, typeLaw, termLaw]

theorem Unbounded.WeakHead.ends_of_normalizeFits (closed : StoresClosed defs.stored) (head : WeakHead defs.stored s s')
    (reads : v.Reads depth s) (fits : ∀ᶠ fuel in atTop, v.NormalizeFits defs fuel trace) :
    ∃ w asked, Ends (v.weakHead defs · trace) w asked ∧ w.Reads depth s' := by
  have fits := eventually_succ.mpr fits
  simp only [Value.NormalizeFits] at fits
  exact head.ends closed reads (fits.mono (fun _ fits => fits.1))

theorem Value.Reads.leaf (reads : w.Reads depth s) (leaf : s.Leaf) : w.Leaf := by
  cases reads with
  | all => exact leaf.elim
  | lam => exact leaf.elim
  | app => exact leaf.elim
  | _ => trivial

theorem Value.Reads.ends_quote (reads : w.Reads depth s) (depthFits : depth < UInt64.size)
    (fits : ∀ᶠ fuel in atTop, w.QuoteFits defs fuel trace (UInt64.ofNat depth)) :
    Ends (w.quote defs · trace (UInt64.ofNat depth)) s.words trace := by
  filter_upwards [fits, eventually_ge_atTop s.size] with fuel fits enough
  obtain ⟨u, quoted, rfl⟩ := reads.quote depthFits fits enough
  rw [quoted, Term.words_unbounded]

theorem Unbounded.Normalizes.normalizesTo (closed : StoresClosed defs.stored) (normalizes : Normalizes defs.stored s m)
    (reads : v.Reads depth s) (depthFits : depth < UInt64.size) : v.NormalizesTo defs depth m.words := by
  induction normalizes generalizing depth v with
  | @all _ _ _ _ _ erased self param head _ _ domainLaw codomainLaw =>
    intro trace fits
    obtain ⟨w, asked, ends, ofHead⟩ := head.ends_of_normalizeFits closed reads fits
    obtain ⟨env, a, σ, env', b, σ', rfl, ofEnv, ofEnv', rfl, rfl⟩ := ofHead.of_all
    refine ⟨.all erased self param (Closure.normalized ⟨env, a, 0⟩) (Closure.normalized ⟨env', b, 0⟩), asked, ?_, ?_⟩
    · apply ends_of_succ
      simp only [Value.normalize]
      exact ends.andThen (.const _ _)
    · intro trace' quoteFits
      apply Value.quote_normalized_all depthFits _ _ quoteFits
      · intro nextFits room
        exact domainLaw ((ofEnv.opened depthFits).reads_ofTerm room a) (by omega)
      · intro nextFits room
        exact codomainLaw (((ofEnv'.opened depthFits).opened (by omega)).reads_ofTerm room b) nextFits
  | @lam _ _ _ erased param head _ bodyLaw =>
    intro trace fits
    obtain ⟨w, asked, ends, ofHead⟩ := head.ends_of_normalizeFits closed reads fits
    obtain ⟨env, b, σ, rfl, ofEnv, rfl⟩ := ofHead.of_lam
    refine ⟨.lam erased param (Closure.normalized ⟨env, b, 0⟩), asked, ?_, ?_⟩
    · apply ends_of_succ
      simp only [Value.normalize]
      exact ends.andThen (.const _ _)
    · intro trace' quoteFits
      apply Value.quote_normalized_lam depthFits _ quoteFits
      intro nextFits room
      exact bodyLaw ((ofEnv.opened depthFits).reads_ofTerm room b) nextFits
  | app head _ _ fnLaw argLaw =>
    intro trace fits
    obtain ⟨w, asked, ends, ofHead⟩ := head.ends_of_normalizeFits closed reads fits
    obtain ⟨f, a, rfl, ofFn, ofArg⟩ := ofHead.of_app
    exact Value.normalizes_app (fnLaw ofFn depthFits) (argLaw ofArg depthFits) ends fits
  | leaf head leaf =>
    intro trace fits
    obtain ⟨w, asked, ends, ofHead⟩ := head.ends_of_normalizeFits closed reads fits
    refine ⟨w, asked, Value.ends_normalize_leaf (ofHead.leaf leaf) ends, fun trace' quoteFits => ?_⟩
    exact ⟨trace', ofHead.ends_quote depthFits quoteFits⟩

theorem Term.normalizes_of_normalize (closed : ∀ name d, defs name = some d → d.term.Closed) {t n : Term}
    (fits : t.NormalizeFits defs) {fuel : Nat} (done : t.normalize defs fuel = .ok (n, asked)) :
    Unbounded.Normalizes defs.stored t.unbounded n.unbounded := by
  obtain ⟨w, askedHead, normalized, quoted⟩ := Run.andThen_eq_ok_iff.mp done
  have runs : (Value.ofTerm [] t).RunsTo defs fuel 0 n :=
    ⟨[], fuel, w, askedHead, (fits fuel).1, normalized, askedHead, asked, (fits fuel).2.apply normalized, quoted⟩
  exact runs.normalizes (Definitions.storesClosed closed) (Value.standsFor_ofTerm t) (by decide)

theorem Term.normalize_of_normalizes (closed : ∀ name d, defs name = some d → d.term.Closed) {t : Term}
    (fits : t.NormalizeFits defs) (normalizes : Unbounded.Normalizes defs.stored t.unbounded m) :
    ∃ fuel asked, t.normalize defs fuel = .ok (m.words, asked) := by
  obtain ⟨w, askedHead, ends, readsBack⟩ := normalizes.normalizesTo (Definitions.storesClosed closed)
    (Value.standsFor_ofTerm t) (by decide) [] (Eventually.of_forall (fun fuel => (fits fuel).1))
  obtain ⟨asked, quoted⟩ := readsBack askedHead (ends.ensures (Eventually.of_forall (fun fuel => (fits fuel).2)))
  have run : Ends (t.normalize defs ·) m.words asked := ends.andThen quoted
  obtain ⟨fuel, done⟩ := run.exists
  exact ⟨fuel, asked, done⟩

end SelfLambda
