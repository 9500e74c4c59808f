import SelfLambda.Proofs.Closure.Agreement
import SelfLambda.Proofs.Reduction.Limit

/-! Normalization by way of values against normal forms by substitution. A value that stands for a term under some open
binders normalizes, and its normal form reads back, exactly when the term has a normal form by substitution, which is
then what is read back. Binders normalize only when reading back calls them, one level deeper. -/

namespace SelfLambda

open Filter Run

variable {defs : Definitions} {depth : Nat} {trace trace' : Trace} {v : Value} {t : Term}

theorem Closure.call_normalized (defs : Definitions) (fuel : Nat) (trace : Trace) (env : List Value) (body : Term)
    (args : List Value) :
    Closure.call defs (fuel + 1) trace (Closure.normalized ⟨env, body, 0⟩) args =
      (Value.ofTerm (args ++ env) body).normalize defs fuel trace := by
  rw [Closure.normalized, Closure.call, Closure.call_ready]
  rfl

theorem Closure.callFits_normalized {fuel : Nat} {env : List Value} {body : Term} {args : List Value}
    (fits : Closure.CallFits defs (fuel + 1) trace (Closure.normalized ⟨env, body, 0⟩) args) :
    env.length + args.length < UInt64.size ∧ (Value.ofTerm (args ++ env) body).NormalizeFits defs fuel trace := by
  rw [Closure.normalized, Closure.CallFits] at fits
  exact ⟨Closure.callFits_ready fits.1, fits.2.apply (Closure.call_ready ..)⟩

theorem Value.StandsFor.ends_weakHead (stands : v.StandsFor depth t) (stable : defs.StableAt depth)
    (valueFits : ∀ᶠ fuel in atTop, v.WeakHeadFits defs fuel trace)
    (termFits : ∀ᶠ fuel in atTop, t.WeakHeadFits defs fuel trace') {u : Term} {asked : Trace}
    (ends : Ends (t.weakHead defs · trace') u asked) :
    ∃ w asked', Ends (v.weakHead defs · trace) w asked' ∧ w.StandsFor depth u := by
  obtain ⟨fuel, done, valueFits, termFits⟩ := (Filter.Eventually.and ends (valueFits.and termFits)).exists
  obtain ⟨w, _, done, -, result⟩ := (inStep stable fuel trace trace' v t stands valueFits termFits).ok_right done
  exact ⟨w, _, ends_of_ok (Value.weakHead_steady defs trace v) done, result⟩

theorem Value.StandsFor.ends_weakHead_term (stands : v.StandsFor depth t) (stable : defs.StableAt depth)
    (valueFits : ∀ᶠ fuel in atTop, v.WeakHeadFits defs fuel trace)
    (termFits : ∀ᶠ fuel in atTop, t.WeakHeadFits defs fuel trace') {w : Value} {asked : Trace}
    (ends : Ends (v.weakHead defs · trace) w asked) :
    ∃ u asked', Ends (t.weakHead defs · trace') u asked' ∧ w.StandsFor depth u := by
  obtain ⟨fuel, done, valueFits, termFits⟩ := (Filter.Eventually.and ends (valueFits.and termFits)).exists
  obtain ⟨u, _, done, -, result⟩ := (inStep stable fuel trace trace' v t stands valueFits termFits).ok_left done
  exact ⟨u, _, ends_of_ok (t.weakHead_steady defs trace') done, result⟩

theorem Closure.opened_fits {env : List Value} {body : Term} {args : List Value} {P : Nat → Value → Trace → Prop}
    (callFits : ∀ᶠ fuel in atTop, Closure.CallFits defs fuel trace (Closure.normalized ⟨env, body, 0⟩) args)
    (resultFits : ∀ᶠ fuel in atTop,
      (Closure.call defs fuel trace (Closure.normalized ⟨env, body, 0⟩) args).Ensures (P fuel)) :
    env.length + args.length < UInt64.size ∧
      (∀ᶠ fuel in atTop, (Value.ofTerm (args ++ env) body).NormalizeFits defs fuel trace) ∧
      ∀ w asked, Ends ((Value.ofTerm (args ++ env) body).normalize defs · trace) w asked →
        Ends (Closure.call defs · trace (Closure.normalized ⟨env, body, 0⟩) args) w asked ∧
        ∀ᶠ fuel in atTop, P fuel w asked := by
  have callFits := eventually_succ.mpr callFits
  obtain ⟨_, fits⟩ := callFits.exists
  refine ⟨(callFits_normalized fits).1, callFits.mono (fun _ fits => (callFits_normalized fits).2), ?_⟩
  intro w asked ends
  have callEnds : Ends (Closure.call defs · trace (Closure.normalized ⟨env, body, 0⟩) args) w asked := by
    apply ends_of_succ
    simpa only [call_normalized] using ends
  exact ⟨callEnds, callEnds.ensures resultFits⟩

/-- In a run that forms no sum that wraps, `v` normalizes, and its normal form reads back under `depth` binders as
`n`. -/
def Value.NormalizesTo (defs : Definitions) (depth : Nat) (v : Value) (n : Term) : Prop :=
  ∀ trace, (∀ᶠ fuel in atTop, v.NormalizeFits defs fuel trace) →
    ∃ w asked, Ends (v.normalize defs · trace) w asked ∧
      ∀ trace', (∀ᶠ fuel in atTop, w.QuoteFits defs fuel trace' (UInt64.ofNat depth)) →
        ∃ asked', Ends (w.quote defs · trace' (UInt64.ofNat depth)) n asked'

theorem Value.quote_normalized_lam {erased : Bool} {param : Name} {env : List Value} {b : Term} {body : Term}
    (depthFits : depth < UInt64.size)
    (ofBody : depth + 1 < UInt64.size → env.length + 1 < UInt64.size →
      (Value.ofTerm ([.level (UInt64.ofNat depth)] ++ env) b).NormalizesTo defs (depth + 1) body)
    (fits : ∀ᶠ fuel in atTop,
      (Value.lam erased param (Closure.normalized ⟨env, b, 0⟩)).QuoteFits defs fuel trace (UInt64.ofNat depth)) :
    ∃ asked, Ends ((Value.lam erased param (Closure.normalized ⟨env, b, 0⟩)).quote defs · trace (UInt64.ofNat depth))
      (.lam erased param body) asked := by
  have fits := eventually_succ.mpr fits
  simp only [Value.QuoteFits, ofNat_add_one, Term.toNat_ofNat_of_fits depthFits] at fits
  obtain ⟨_, nextFits, -⟩ := fits.exists
  obtain ⟨room, bodyFits, result⟩ :=
    Closure.opened_fits (fits.mono (fun _ fits => fits.2.1)) (fits.mono (fun _ fits => fits.2.2))
  obtain ⟨w, asked, ends, readsBack⟩ := ofBody nextFits room trace bodyFits
  obtain ⟨called, quoteFits⟩ := result w asked ends
  obtain ⟨asked', quoted⟩ := readsBack asked quoteFits
  refine ⟨asked', ends_of_succ ?_⟩
  simp only [Value.quote, ofNat_add_one]
  exact called.andThen (quoted.andThen (.const _ _))

theorem Value.quote_normalized_all {erased : Bool} {self param : Name} {env env' : List Value} {a b : Term}
    {domain codomain : Term} (depthFits : depth < UInt64.size)
    (ofDomain : depth + 2 < UInt64.size → env.length + 1 < UInt64.size →
      (Value.ofTerm ([.level (UInt64.ofNat depth)] ++ env) a).NormalizesTo defs (depth + 1) domain)
    (ofCodomain : depth + 2 < UInt64.size → env'.length + 2 < UInt64.size →
      (Value.ofTerm ([.level (UInt64.ofNat (depth + 1)), .level (UInt64.ofNat depth)] ++ env') b).NormalizesTo defs
        (depth + 2) codomain)
    (fits : ∀ᶠ fuel in atTop,
      (Value.all erased self param (Closure.normalized ⟨env, a, 0⟩) (Closure.normalized ⟨env', b, 0⟩)).QuoteFits
        defs fuel trace (UInt64.ofNat depth)) :
    ∃ asked, Ends
      ((Value.all erased self param (Closure.normalized ⟨env, a, 0⟩) (Closure.normalized ⟨env', b, 0⟩)).quote defs ·
        trace (UInt64.ofNat depth)) (.all erased self param domain codomain) asked := by
  have fits := eventually_succ.mpr fits
  simp only [Value.QuoteFits, ofNat_add_one, ofNat_add_two, Term.toNat_ofNat_of_fits depthFits] at fits
  obtain ⟨_, nextFits, -⟩ := fits.exists
  obtain ⟨room, domainFits, result⟩ :=
    Closure.opened_fits (fits.mono (fun _ fits => fits.2.1)) (fits.mono (fun _ fits => fits.2.2))
  obtain ⟨w, asked, ends, readsBack⟩ := ofDomain nextFits room trace domainFits
  obtain ⟨called, rest⟩ := result w asked ends
  obtain ⟨asked', quoted⟩ := readsBack asked (rest.mono (fun _ fits => fits.1))
  have rest' := quoted.ensures (rest.mono (fun _ fits => fits.2))
  obtain ⟨room', codomainFits, result'⟩ :=
    Closure.opened_fits (rest'.mono (fun _ fits => fits.1)) (rest'.mono (fun _ fits => fits.2))
  obtain ⟨w', askedCodomain, ends', readsBack'⟩ := ofCodomain nextFits room' asked' codomainFits
  obtain ⟨called', quoteFits⟩ := result' w' askedCodomain ends'
  obtain ⟨askedLast, quoted'⟩ := readsBack' askedCodomain quoteFits
  refine ⟨askedLast, ends_of_succ ?_⟩
  simp only [Value.quote, ofNat_add_one, ofNat_add_two]
  exact called.andThen (quoted.andThen (called'.andThen (quoted'.andThen (.const _ _))))

theorem Value.normalizes_app {erased : Bool} {fn arg : Value} {fn' arg' : Term} {asked : Trace}
    (ofFn : fn.NormalizesTo defs depth fn') (ofArg : arg.NormalizesTo defs depth arg')
    (ends : Ends (v.weakHead defs · trace) (.app erased fn arg) asked)
    (fits : ∀ᶠ fuel in atTop, v.NormalizeFits defs fuel trace) :
    ∃ w asked, Ends (v.normalize defs · trace) w asked ∧
      ∀ trace', (∀ᶠ fuel in atTop, w.QuoteFits defs fuel trace' (UInt64.ofNat depth)) →
        ∃ asked', Ends (w.quote defs · trace' (UInt64.ofNat depth)) (.app erased fn' arg') asked' := by
  have fits := eventually_succ.mpr fits
  simp only [Value.NormalizeFits] at fits
  have partFits := ends.ensures (fits.mono (fun _ fits => fits.2))
  obtain ⟨f, askedFn, endsFn, readsFn⟩ := ofFn asked (partFits.mono (fun _ fits => fits.1))
  obtain ⟨a, askedArg, endsArg, readsArg⟩ := ofArg askedFn (endsFn.ensures (partFits.mono (fun _ fits => fits.2)))
  refine ⟨.app erased f a, askedArg, ?_, ?_⟩
  · apply ends_of_succ
    simp only [Value.normalize]
    exact ends.andThen (endsFn.andThen (endsArg.andThen (.const _ _)))
  · intro trace' quoteFits
    have quoteFits := eventually_succ.mpr quoteFits
    simp only [Value.QuoteFits] at quoteFits
    obtain ⟨quotedFnTrace, quotedFn⟩ := readsFn trace' (quoteFits.mono (fun _ fits => fits.1))
    obtain ⟨quotedArgTrace, quotedArg⟩ :=
      readsArg quotedFnTrace (quotedFn.ensures (quoteFits.mono (fun _ fits => fits.2)))
    refine ⟨quotedArgTrace, ends_of_succ ?_⟩
    simp only [Value.quote]
    exact quotedFn.andThen (quotedArg.andThen (.const _ _))

theorem Value.StandsFor.ends_quote (stands : v.StandsFor depth t) (depthFits : depth < UInt64.size)
    (fits : ∀ᶠ fuel in atTop, v.QuoteFits defs fuel trace (UInt64.ofNat depth)) :
    Ends (v.quote defs · trace (UInt64.ofNat depth)) t trace := by
  filter_upwards [fits, eventually_ge_atTop t.unbounded.size] with fuel fits enough
  obtain ⟨u, quoted, same⟩ := stands.quote depthFits fits enough
  rw [quoted, Term.unbounded_injective same]

def Value.Leaf : Value → Prop
  | .all .. | .lam .. | .app .. => False
  | _ => True

theorem Value.ends_normalize_leaf {w : Value} (leaf : w.Leaf) {asked : Trace}
    (ends : Ends (v.weakHead defs · trace) w asked) : Ends (v.normalize defs · trace) w asked := by
  apply ends_of_succ
  simp only [Value.normalize]
  cases w with
  | all => exact leaf.elim
  | lam => exact leaf.elim
  | app => exact leaf.elim
  | _ => exact ends.andThen (.const _ _)

theorem Value.StandsFor.normalizesTo (stable : ∀ depth, defs.StableAt depth) {fuel : Nat} {n : Term} {asked : Trace}
    (done : t.rebuild defs fuel trace = .ok (n, asked)) (stands : v.StandsFor depth t) (depthFits : depth < UInt64.size)
    (termFits : ∀ᶠ fuel in atTop, t.RebuildFits defs fuel trace) : v.NormalizesTo defs depth n := by
  induction fuel generalizing depth v t trace n asked with
  | zero => cases done
  | succ fuel ih =>
    intro start valueFits
    obtain ⟨u, askedTerm, evaluated, rest⟩ := Run.andThen_eq_ok_iff.mp done
    have endsTerm : Ends (t.weakHead defs · trace) u askedTerm :=
      ends_of_ok (t.weakHead_steady defs trace) evaluated
    have termFits := eventually_succ.mpr termFits
    simp only [Term.RebuildFits] at termFits
    have partFits := endsTerm.ensures (termFits.mono (fun _ fits => fits.2))
    have headFits : ∀ᶠ fuel in atTop, v.WeakHeadFits defs fuel start := by
      have fits := eventually_succ.mpr valueFits
      simp only [Value.NormalizeFits] at fits
      exact fits.mono (fun _ fits => fits.1)
    obtain ⟨w, asked', ends, standsHead⟩ :=
      stands.ends_weakHead (stable depth) headFits (termFits.mono (fun _ fits => fits.1)) endsTerm
    have still (same : u = n) (leaf : w.Leaf) :
        ∃ w asked, Ends (v.normalize defs · start) w asked ∧
          ∀ trace', (∀ᶠ fuel in atTop, w.QuoteFits defs fuel trace' (UInt64.ofNat depth)) →
            ∃ asked', Ends (w.quote defs · trace' (UInt64.ofNat depth)) n asked' :=
      ⟨w, asked', Value.ends_normalize_leaf leaf ends,
        fun trace' fits => ⟨trace', same ▸ standsHead.ends_quote depthFits fits⟩⟩
    cases u with
    | all erased self param domain codomain =>
      obtain ⟨domain', askedDomain, rebuilt, rest⟩ := Run.andThen_eq_ok_iff.mp rest
      obtain ⟨codomain', _, rebuilt', rest⟩ := Run.andThen_eq_ok_iff.mp rest
      cases rest
      obtain ⟨env, a, σ, env', b, σ', rfl, ofEnv, ofEnv', same, same'⟩ := standsHead.of_all
      refine ⟨.all erased self param (Closure.normalized ⟨env, a, 0⟩) (Closure.normalized ⟨env', b, 0⟩), asked', ?_, ?_⟩
      · apply ends_of_succ
        simp only [Value.normalize]
        exact ends.andThen (.const _ _)
      · intro trace' quoteFits
        apply Value.quote_normalized_all depthFits _ _ quoteFits
        · intro nextFits room
          apply ih rebuilt _ (by omega) (partFits.mono (fun _ fits => fits.1))
          rw [Value.StandsFor, same]
          exact (ofEnv.opened depthFits).reads_ofTerm room a
        · intro nextFits room
          have endsDomain := ends_of_ok (domain.rebuild_steady defs askedTerm) rebuilt
          apply ih rebuilt' _ nextFits (endsDomain.ensures (partFits.mono (fun _ fits => fits.2)))
          rw [Value.StandsFor, same']
          exact ((ofEnv'.opened depthFits).opened (by omega)).reads_ofTerm room b
    | lam erased param body =>
      obtain ⟨body', _, rebuilt, rest⟩ := Run.andThen_eq_ok_iff.mp rest
      cases rest
      obtain ⟨env, b, σ, rfl, ofEnv, same⟩ := standsHead.of_lam
      refine ⟨.lam erased param (Closure.normalized ⟨env, b, 0⟩), asked', ?_, ?_⟩
      · apply ends_of_succ
        simp only [Value.normalize]
        exact ends.andThen (.const _ _)
      · intro trace' quoteFits
        apply Value.quote_normalized_lam depthFits _ quoteFits
        intro nextFits room
        apply ih rebuilt _ nextFits partFits
        rw [Value.StandsFor, same]
        exact (ofEnv.opened depthFits).reads_ofTerm room b
    | app erased fn arg =>
      obtain ⟨fn', askedFn, rebuilt, rest⟩ := Run.andThen_eq_ok_iff.mp rest
      obtain ⟨arg', _, rebuilt', rest⟩ := Run.andThen_eq_ok_iff.mp rest
      cases rest
      obtain ⟨f, a, rfl, ofFn, ofArg⟩ := standsHead.of_app
      have endsFn := ends_of_ok (fn.rebuild_steady defs askedTerm) rebuilt
      exact Value.normalizes_app (ih rebuilt ofFn depthFits (partFits.mono (fun _ fits => fits.1)))
        (ih rebuilt' ofArg depthFits (endsFn.ensures (partFits.mono (fun _ fits => fits.2)))) ends valueFits
    | var index =>
      cases rest
      obtain ⟨_, rfl, -⟩ | ⟨_, rfl, -⟩ := standsHead.of_var
      · exact still rfl trivial
      · exact still rfl trivial
    | ref name =>
      cases rest
      obtain rfl := standsHead.of_ref
      exact still rfl trivial
    | typ =>
      cases rest
      obtain rfl := standsHead.of_typ
      exact still rfl trivial
    | ann checked type term =>
      cases rest
      obtain ⟨_, _, rfl, -⟩ := standsHead.of_ann
      exact still rfl trivial

theorem Closure.normalize_of_call {fuel : Nat} {env : List Value} {body : Term} {args : List Value} {w : Value}
    {asked : Trace} (done : Closure.call defs fuel trace (Closure.normalized ⟨env, body, 0⟩) args = .ok (w, asked)) :
    ∃ less, less < fuel ∧ (Value.ofTerm (args ++ env) body).normalize defs less trace = .ok (w, asked) := by
  cases fuel with
  | zero =>
    rw [Closure.normalized, Closure.call] at done
    cases done
  | succ less =>
    rw [call_normalized] at done
    exact ⟨less, Nat.lt_succ_self less, done⟩

/-- In a run that forms no sum that wraps, `v` normalizes and its normal form reads back under `depth` binders, each
with at most `bound` units of fuel. -/
def Value.NormalizesWithin (defs : Definitions) (bound depth : Nat) (v : Value) : Prop :=
  ∃ trace fuel w asked, fuel ≤ bound ∧ (∀ᶠ fuel in atTop, v.NormalizeFits defs fuel trace) ∧
    v.normalize defs fuel trace = .ok (w, asked) ∧
      ∃ trace' fuel' out, fuel' ≤ bound ∧ (∀ᶠ fuel in atTop, w.QuoteFits defs fuel trace' (UInt64.ofNat depth)) ∧
        w.quote defs fuel' trace' (UInt64.ofNat depth) = .ok out

/-- A call that waits for one normalization pays for it: if the call and reading back its result stay below a bound, the
normalization does with a unit less. -/
theorem Closure.opened_within {bound fuel : Nat} {env : List Value} {body : Term} {args : List Value} {w : Value}
    {asked : Trace} {P : Nat → Value → Trace → Prop}
    (callFits : ∀ᶠ fuel in atTop, Closure.CallFits defs fuel trace (Closure.normalized ⟨env, body, 0⟩) args)
    (resultFits : ∀ᶠ fuel in atTop,
      (Closure.call defs fuel trace (Closure.normalized ⟨env, body, 0⟩) args).Ensures (P fuel))
    (done : Closure.call defs fuel trace (Closure.normalized ⟨env, body, 0⟩) args = .ok (w, asked))
    (within : fuel ≤ bound) :
    env.length + args.length < UInt64.size ∧ (∀ᶠ fuel in atTop, P fuel w asked) ∧
      ∀ next fuel' out, fuel' ≤ bound → (∀ᶠ fuel in atTop, w.QuoteFits defs fuel asked (UInt64.ofNat next)) →
        w.quote defs fuel' asked (UInt64.ofNat next) = .ok out →
          (Value.ofTerm (args ++ env) body).NormalizesWithin defs bound next := by
  obtain ⟨less, fewer, normalized⟩ := normalize_of_call done
  obtain ⟨room, bodyFits, result⟩ := opened_fits callFits resultFits
  obtain ⟨-, holds⟩ := result w asked (ends_of_ok (Value.normalize_steady defs _ _) normalized)
  refine ⟨room, holds, ?_⟩
  intro next fuel' out within' quoteFits quoted
  have enough : less ≤ bound := by omega
  exact ⟨trace, less, w, asked, enough, bodyFits, normalized, asked, fuel', out, within', quoteFits, quoted⟩

theorem Value.lam_within {erased : Bool} {param : Name} {env : List Value} {b : Term} {bound fuel : Nat}
    {out : Term × Trace} (depthFits : depth < UInt64.size)
    (fits : ∀ᶠ fuel in atTop,
      (Value.lam erased param (Closure.normalized ⟨env, b, 0⟩)).QuoteFits defs fuel trace (UInt64.ofNat depth))
    (quoted : (Value.lam erased param (Closure.normalized ⟨env, b, 0⟩)).quote defs (fuel + 1) trace
      (UInt64.ofNat depth) = .ok out)
    (within : fuel ≤ bound) :
    depth + 1 < UInt64.size ∧ env.length + 1 < UInt64.size ∧
      (Value.ofTerm ([.level (UInt64.ofNat depth)] ++ env) b).NormalizesWithin defs bound (depth + 1) := by
  have fits := eventually_succ.mpr fits
  simp only [Value.QuoteFits, ofNat_add_one, Term.toNat_ofNat_of_fits depthFits] at fits
  rw [Value.quote, ofNat_add_one] at quoted
  obtain ⟨w, asked, called, quoted⟩ := Run.andThen_eq_ok_iff.mp quoted
  obtain ⟨_, _, quoted, -⟩ := Run.andThen_eq_ok_iff.mp quoted
  obtain ⟨_, nextFits, -⟩ := fits.exists
  obtain ⟨room, quoteFits, ofBody⟩ := Closure.opened_within (fits.mono (fun _ fits => fits.2.1))
    (fits.mono (fun _ fits => fits.2.2)) called within
  exact ⟨nextFits, room, ofBody _ _ _ within quoteFits quoted⟩

theorem Value.all_within {erased : Bool} {self param : Name} {env env' : List Value} {a b : Term} {bound fuel : Nat}
    {out : Term × Trace} (depthFits : depth < UInt64.size)
    (fits : ∀ᶠ fuel in atTop,
      (Value.all erased self param (Closure.normalized ⟨env, a, 0⟩) (Closure.normalized ⟨env', b, 0⟩)).QuoteFits
        defs fuel trace (UInt64.ofNat depth))
    (quoted : (Value.all erased self param (Closure.normalized ⟨env, a, 0⟩) (Closure.normalized ⟨env', b, 0⟩)).quote
      defs (fuel + 1) trace (UInt64.ofNat depth) = .ok out)
    (within : fuel ≤ bound) :
    depth + 2 < UInt64.size ∧ env.length + 1 < UInt64.size ∧ env'.length + 2 < UInt64.size ∧
      (Value.ofTerm ([.level (UInt64.ofNat depth)] ++ env) a).NormalizesWithin defs bound (depth + 1) ∧
      (Value.ofTerm ([.level (UInt64.ofNat (depth + 1)), .level (UInt64.ofNat depth)] ++ env') b).NormalizesWithin
        defs bound (depth + 2) := by
  have fits := eventually_succ.mpr fits
  simp only [Value.QuoteFits, ofNat_add_one, ofNat_add_two, Term.toNat_ofNat_of_fits depthFits] at fits
  rw [Value.quote, ofNat_add_one, ofNat_add_two] at quoted
  obtain ⟨w, asked, called, quoted⟩ := Run.andThen_eq_ok_iff.mp quoted
  obtain ⟨domain, askedDomain, quotedDomain, quoted⟩ := Run.andThen_eq_ok_iff.mp quoted
  obtain ⟨w', asked', called', quoted⟩ := Run.andThen_eq_ok_iff.mp quoted
  obtain ⟨_, _, quotedCodomain, -⟩ := Run.andThen_eq_ok_iff.mp quoted
  obtain ⟨_, nextFits, -⟩ := fits.exists
  obtain ⟨room, restFits, ofDomain⟩ := Closure.opened_within (fits.mono (fun _ fits => fits.2.1))
    (fits.mono (fun _ fits => fits.2.2)) called within
  have codomainFits := (ends_of_ok (Value.quote_steady defs _ _ _) quotedDomain).ensures
    (restFits.mono (fun _ fits => fits.2))
  obtain ⟨room', quoteFits, ofCodomain⟩ := Closure.opened_within (codomainFits.mono (fun _ fits => fits.1))
    (codomainFits.mono (fun _ fits => fits.2)) called' within
  exact ⟨nextFits, room, room', ofDomain _ _ _ within (restFits.mono (fun _ fits => fits.1)) quotedDomain,
    ofCodomain _ _ _ within quoteFits quotedCodomain⟩

theorem Value.app_within {erased : Bool} {fn arg fn' arg' : Value} {bound fuel fuel' : Nat} {asked asked' : Trace}
    {out : Term × Trace}
    (fits : ∀ᶠ fuel in atTop, fn.NormalizeFits defs fuel trace ∧
      (fn.normalize defs fuel trace).Ensures fun _ trace => arg.NormalizeFits defs fuel trace)
    (normalizedFn : fn.normalize defs fuel trace = .ok (fn', asked))
    (normalizedArg : arg.normalize defs fuel asked = .ok (arg', asked'))
    (quoteFits : ∀ᶠ fuel in atTop, (Value.app erased fn' arg').QuoteFits defs fuel trace' (UInt64.ofNat depth))
    (quoted : (Value.app erased fn' arg').quote defs (fuel' + 1) trace' (UInt64.ofNat depth) = .ok out)
    (within : fuel ≤ bound) (within' : fuel' ≤ bound) :
    fn.NormalizesWithin defs bound depth ∧ arg.NormalizesWithin defs bound depth := by
  have quoteFits := eventually_succ.mpr quoteFits
  simp only [Value.QuoteFits] at quoteFits
  rw [Value.quote] at quoted
  obtain ⟨_, askedFn, quotedFn, quoted⟩ := Run.andThen_eq_ok_iff.mp quoted
  obtain ⟨_, _, quotedArg, -⟩ := Run.andThen_eq_ok_iff.mp quoted
  have argFits := (ends_of_ok (Value.normalize_steady defs _ _) normalizedFn).ensures
    (fits.mono (fun _ fits => fits.2))
  have argQuoteFits := (ends_of_ok (Value.quote_steady defs _ _ _) quotedFn).ensures
    (quoteFits.mono (fun _ fits => fits.2))
  constructor
  · exact ⟨trace, fuel, fn', asked, within, fits.mono (fun _ fits => fits.1), normalizedFn, trace', fuel', _, within',
      quoteFits.mono (fun _ fits => fits.1), quotedFn⟩
  · exact ⟨asked, fuel, arg', asked', within, argFits, normalizedArg, askedFn, fuel', _, within', argQuoteFits,
      quotedArg⟩

/-- Where the value normalizes and its normal form reads back, the term has a normal form by substitution. The
induction is on the larger of the two amounts of fuel: under a binder reading back pays for the next normalization. -/
theorem Value.StandsFor.rebuild_ends (stable : ∀ depth, defs.StableAt depth) {bound : Nat} {start : Trace}
    (stands : v.StandsFor depth t) (depthFits : depth < UInt64.size)
    (termFits : ∀ᶠ fuel in atTop, t.RebuildFits defs fuel start) (normalizes : v.NormalizesWithin defs bound depth) :
    ∃ n asked, Ends (t.rebuild defs · start) n asked := by
  induction bound generalizing depth v t start with
  | zero =>
    obtain ⟨trace, fuel, w, asked, within, -, normalized, -⟩ := normalizes
    obtain rfl : fuel = 0 := Nat.le_zero.mp within
    rw [Value.normalize] at normalized
    cases normalized
  | succ bound ih =>
    obtain ⟨trace, fuel, w, asked, within, valueFits, normalized, trace', fuel', out, within', quoteFits, quoted⟩ :=
      normalizes
    cases fuel with
    | zero =>
      rw [Value.normalize] at normalized
      cases normalized
    | succ fuel =>
    cases fuel' with
    | zero => cases quoted
    | succ fuel' =>
    have less := Nat.le_of_succ_le_succ within
    have less' := Nat.le_of_succ_le_succ within'
    rw [Value.normalize] at normalized
    obtain ⟨w', askedHead, reduced, rest⟩ := Run.andThen_eq_ok_iff.mp normalized
    have ends : Ends (v.weakHead defs · trace) w' askedHead :=
      ends_of_ok (Value.weakHead_steady defs trace v) reduced
    have termFits := eventually_succ.mpr termFits
    simp only [Term.RebuildFits] at termFits
    have valueFits := eventually_succ.mpr valueFits
    simp only [Value.NormalizeFits] at valueFits
    obtain ⟨u, askedTerm, endsTerm, standsHead⟩ := stands.ends_weakHead_term (stable depth)
      (valueFits.mono (fun _ fits => fits.1)) (termFits.mono (fun _ fits => fits.1)) ends
    have partFits := endsTerm.ensures (termFits.mono (fun _ fits => fits.2))
    have still (kept : Ends (fun fuel => t.rebuild defs (fuel + 1) start) u askedTerm) :
        ∃ n asked, Ends (t.rebuild defs · start) n asked := ⟨u, askedTerm, ends_of_succ kept⟩
    simp only [Term.rebuild] at still
    cases u with
    | all erased self param domain codomain =>
      obtain ⟨env, a, σ, env', b, σ', rfl, ofEnv, ofEnv', same, same'⟩ := standsHead.of_all
      cases rest
      obtain ⟨nextFits, room, room', domainWithin, codomainWithin⟩ := Value.all_within depthFits quoteFits quoted less'
      have ofDomain := (ofEnv.opened depthFits).reads_ofTerm room a
      rw [← same] at ofDomain
      have ofCodomain := ((ofEnv'.opened depthFits).opened (by omega)).reads_ofTerm room' b
      rw [← same'] at ofCodomain
      obtain ⟨rebuilt, askedRebuilt, endsDomain⟩ :=
        ih ofDomain (by omega) (partFits.mono (fun _ fits => fits.1)) domainWithin
      obtain ⟨rebuilt', askedRebuilt', endsCodomain⟩ :=
        ih ofCodomain nextFits (endsDomain.ensures (partFits.mono (fun _ fits => fits.2))) codomainWithin
      refine ⟨.all erased self param rebuilt rebuilt', askedRebuilt', ends_of_succ ?_⟩
      simp only [Term.rebuild]
      exact endsTerm.andThen (endsDomain.andThen (endsCodomain.andThen (.const _ _)))
    | lam erased param body =>
      obtain ⟨env, b, σ, rfl, ofEnv, same⟩ := standsHead.of_lam
      cases rest
      obtain ⟨nextFits, room, bodyWithin⟩ := Value.lam_within depthFits quoteFits quoted less'
      have ofBody := (ofEnv.opened depthFits).reads_ofTerm room b
      rw [← same] at ofBody
      obtain ⟨rebuilt, askedRebuilt, endsBody⟩ := ih ofBody nextFits partFits bodyWithin
      refine ⟨.lam erased param rebuilt, askedRebuilt, ends_of_succ ?_⟩
      simp only [Term.rebuild]
      exact endsTerm.andThen (endsBody.andThen (.const _ _))
    | app erased fn arg =>
      obtain ⟨f, a, rfl, ofFn, ofArg⟩ := standsHead.of_app
      obtain ⟨_, askedFn, normalizedFn, rest⟩ := Run.andThen_eq_ok_iff.mp rest
      obtain ⟨_, _, normalizedArg, rest⟩ := Run.andThen_eq_ok_iff.mp rest
      cases rest
      obtain ⟨fnWithin, argWithin⟩ := Value.app_within (ends.ensures (valueFits.mono (fun _ fits => fits.2)))
        normalizedFn normalizedArg quoteFits quoted less less'
      obtain ⟨rebuilt, askedRebuilt, endsFn⟩ := ih ofFn depthFits (partFits.mono (fun _ fits => fits.1)) fnWithin
      obtain ⟨rebuilt', askedRebuilt', endsArg⟩ :=
        ih ofArg depthFits (endsFn.ensures (partFits.mono (fun _ fits => fits.2))) argWithin
      refine ⟨.app erased rebuilt rebuilt', askedRebuilt', ends_of_succ ?_⟩
      simp only [Term.rebuild]
      exact endsTerm.andThen (endsFn.andThen (endsArg.andThen (.const _ _)))
    | var index => exact still (endsTerm.andThen (.const _ _))
    | ref name => exact still (endsTerm.andThen (.const _ _))
    | typ => exact still (endsTerm.andThen (.const _ _))
    | ann checked type term => exact still (endsTerm.andThen (.const _ _))

theorem Definitions.stableAt_of_closed (closed : ∀ name d, defs name = some d → d.term.Closed) (depth : Nat) :
    defs.StableAt depth := by
  intro name u unfolds
  obtain ⟨d, stored, rfl⟩ := exists_of_unfolding unfolds
  exact (closed name d stored).rename _

theorem Term.normalize_of_normalForm (closed : ∀ name d, defs name = some d → d.term.Closed)
    (normalizeFits : t.NormalizeFits defs) (normalFormFits : t.NormalFormFits defs) {fuel : Nat} {n : Term}
    {asked : Trace} (done : t.normalForm defs fuel = .ok (n, asked)) : ∃ asked', Ends (t.normalize defs ·) n asked' := by
  have stable := Definitions.stableAt_of_closed closed
  have stands := Value.standsFor_ofTerm t
  obtain ⟨w, askedHead, ends, readsBack⟩ := Value.StandsFor.normalizesTo stable done stands (by decide)
    (Eventually.of_forall normalFormFits) [] (Eventually.of_forall (fun fuel => (normalizeFits fuel).1))
  have quoteFits := ends.ensures (Eventually.of_forall (fun fuel => (normalizeFits fuel).2))
  obtain ⟨asked', quoted⟩ := readsBack askedHead quoteFits
  exact ⟨asked', ends.andThen quoted⟩

theorem Term.normalForm_of_normalize (closed : ∀ name d, defs name = some d → d.term.Closed)
    (normalizeFits : t.NormalizeFits defs) (normalFormFits : t.NormalFormFits defs) {fuel : Nat} {out : Term × Trace}
    (done : t.normalize defs fuel = .ok out) : ∃ n asked, Ends (t.normalForm defs ·) n asked := by
  have stable := Definitions.stableAt_of_closed closed
  have stands := Value.standsFor_ofTerm t
  obtain ⟨w, askedHead, normalized, quoted⟩ := Run.andThen_eq_ok_iff.mp done
  have ends : Ends ((Value.ofTerm [] t).normalize defs · []) w askedHead :=
    ends_of_ok (Value.normalize_steady defs _ _) normalized
  have quoteFits := ends.ensures (Eventually.of_forall (fun fuel => (normalizeFits fuel).2))
  have normalizes : (Value.ofTerm [] t).NormalizesWithin defs fuel 0 :=
    ⟨[], fuel, w, askedHead, Nat.le_refl _, Eventually.of_forall (fun fuel => (normalizeFits fuel).1), normalized,
      askedHead, fuel, out, Nat.le_refl _, quoteFits, quoted⟩
  exact Value.StandsFor.rebuild_ends stable stands (by decide) (Eventually.of_forall normalFormFits) normalizes

theorem Term.normalize_steady (defs : Definitions) (t : Term) : Steady [] (fun fuel => t.normalize defs fuel) :=
  fun more => .andThen (Value.normalize_steady defs [] _ more) (fun v trace => v.quote_steady defs trace 0 more)

/-- Normalization by way of values computes the normal form by substitution, over definitions that store closed terms:
one ends if and only if the other does, and then with the same term. -/
theorem Term.normalize_agrees_normalForm (defs : Definitions) (closed : ∀ name d, defs name = some d → d.term.Closed)
    (t : Term) (normalizeFits : t.NormalizeFits defs) (normalFormFits : t.NormalFormFits defs) :
    ((∃ fuel out, t.normalize defs fuel = .ok out) ↔ ∃ fuel out, t.normalForm defs fuel = .ok out) ∧
      ∀ fuel fuel' u asked u' asked', t.normalize defs fuel = .ok (u, asked) →
        t.normalForm defs fuel' = .ok (u', asked') → u = u' := by
  refine ⟨⟨?_, ?_⟩, ?_⟩
  · rintro ⟨fuel, out, done⟩
    obtain ⟨n, asked, ends⟩ := normalForm_of_normalize closed normalizeFits normalFormFits done
    obtain ⟨fuel', done'⟩ := ends.exists
    exact ⟨fuel', _, done'⟩
  · rintro ⟨fuel, ⟨n, asked⟩, done⟩
    obtain ⟨asked', ends⟩ := normalize_of_normalForm closed normalizeFits normalFormFits done
    obtain ⟨fuel', done'⟩ := ends.exists
    exact ⟨fuel', _, done'⟩
  · intro fuel fuel' u asked u' asked' normalized done
    obtain ⟨_, ends'⟩ := normalize_of_normalForm closed normalizeFits normalFormFits done
    exact ((ends_of_ok (t.normalize_steady defs) normalized).unique ends').1

/-- A stored identity, called under a binder on the variable of that binder. -/
theorem Term.normalize_agrees_normalForm_identity :
    let defs : Definitions := fun name =>
      if name = [105] then some ⟨[105], .typ, .lam false [120] (.var 0)⟩ else none
    let t : Term := .lam false [121] (.app false (.ref [105]) (.var 0))
    (∀ name d, defs name = some d → d.term.Closed) ∧ t.NormalizeFits defs ∧ t.NormalFormFits defs ∧
      ∃ fuel asked, t.normalize defs fuel = .ok (.lam false [121] (.var 0), asked) := by
  intro defs t
  have closed : ∀ name d, defs name = some d → d.term.Closed := by
    intro name d found
    simp only [defs] at found
    split at found
    next =>
      cases found
      exact Nat.zero_lt_one
    next => cases found
  have one : 1 < UInt64.size := by decide
  have normalizeFits : t.NormalizeFits defs := by
    rintro (_ | _ | _ | _ | _ | _ | _ | fuel) <;>
      simp [t, defs, one, Value.ofTerm, Value.ofTermIn, Value.ofVar, Value.NormalizeFits, Value.normalize,
        Value.WeakHeadFits, Value.weakHead, Run.Ensures, Run.andThen, Closure.call, Closure.CallFits, Value.QuoteFits,
        Closure.normalized, consult, unfolding]
  have normalFormFits : t.NormalFormFits defs := by
    rintro (_ | _ | _ | _ | _ | fuel) <;>
      simp [t, defs, RebuildFits, WeakHeadFits, weakHead, Run.Ensures, Run.andThen, consult, unfolding, SubstFits,
        EachVar, ShiftFits, subst, mapVars, shift]
  have rebuilt : t.normalForm defs 5 = .ok (.lam false [121] (.var 0), [[105]]) := rfl
  obtain ⟨ends, same⟩ := normalize_agrees_normalForm defs closed t normalizeFits normalFormFits
  obtain ⟨fuel, ⟨u, asked⟩, normalized⟩ := ends.mpr ⟨5, _, rebuilt⟩
  refine ⟨closed, normalizeFits, normalFormFits, fuel, asked, ?_⟩
  rw [normalized, same _ _ _ _ _ _ normalized rebuilt]

end SelfLambda
