import SelfLambda.Proofs.Closure.Normalization
import SelfLambda.Proofs.Reduction.WeakForm

/-! What normalization gives is normal: nothing in it is left to compute, at any position, whatever definitions it was
computed under and whether or not sums wrapped on the way. A normal term evaluates to itself and normalizes to itself,
at every binder depth. -/

namespace SelfLambda

open Filter Run

def Value.IsFunction : Value → Prop
  | .lam .. => True
  | _ => False

/-- Nothing is left to compute: there is no annotation, nothing erased, no function that is applied and no reference
that unfolds. -/
def Term.Normal (defs : Definitions) : Term → Prop
  | .var _ => True
  | .ref name => unfolding defs name = none
  | .typ => True
  | .all _ _ _ domain codomain => domain.Normal defs ∧ codomain.Normal defs
  | .lam erased _ body => erased = false ∧ body.Normal defs
  | .app erased fn arg => erased = false ∧ ¬ fn.IsFunction ∧ fn.Normal defs ∧ arg.Normal defs
  | .ann .. => False

inductive Value.Weak (defs : Definitions) : Value → Prop
  | free (index : UInt64) : Weak defs (.free index)
  | level (depth : UInt64) : Weak defs (.level depth)
  | ref {name : Name} (kept : unfolding defs name = none) : Weak defs (.ref name)
  | typ : Weak defs .typ
  | all (erased : Bool) (self param : Name) (domain codomain : Closure Value) :
      Weak defs (.all erased self param domain codomain)
  | lam (param : Name) (body : Closure Value) : Weak defs (.lam false param body)
  | app {fn arg : Value} (ofFn : Weak defs fn) (stuck : ¬ fn.IsFunction) (ofArg : Weak defs arg) :
      Weak defs (.app false fn arg)

variable {defs : Definitions} {trace asked : Trace} {v w : Value}

theorem Value.weak_of_weakHead {fuel : Nat} (done : v.weakHead defs fuel trace = .ok (w, asked)) : w.Weak defs := by
  induction fuel generalizing v w trace asked with
  | zero =>
    rw [Value.weakHead] at done
    cases done
  | succ fuel ih =>
    cases v with
    | free index =>
      rw [Value.weakHead] at done
      cases done
      exact .free index
    | level depth =>
      rw [Value.weakHead] at done
      cases done
      exact .level depth
    | ref name =>
      rw [Value.weakHead, consult] at done
      cases unfolds : unfolding defs name with
      | none =>
        rw [unfolds] at done
        cases done
        exact .ref unfolds
      | some t =>
        rw [unfolds] at done
        exact ih done
    | typ =>
      rw [Value.weakHead] at done
      cases done
      exact .typ
    | all erased self param domain codomain =>
      rw [Value.weakHead] at done
      cases done
      exact .all erased self param domain codomain
    | lam erased param body =>
      cases erased with
      | false =>
        rw [Value.weakHead] at done
        cases done
        exact .lam param body
      | true =>
        rw [Value.weakHead] at done
        obtain ⟨_, _, _, rest⟩ := Run.andThen_eq_ok_iff.mp done
        exact ih rest
    | app erased fn arg =>
      cases erased with
      | true =>
        rw [Value.weakHead] at done
        exact ih done
      | false =>
        rw [Value.weakHead] at done
        obtain ⟨head, _, reduced, rest⟩ := Run.andThen_eq_ok_iff.mp done
        cases head with
        | lam erased param body =>
          obtain ⟨_, _, _, rest⟩ := Run.andThen_eq_ok_iff.mp rest
          exact ih rest
        | _ =>
          obtain ⟨_, _, reducedArg, rest⟩ := Run.andThen_eq_ok_iff.mp rest
          cases rest
          exact .app (ih reduced) id (ih reducedArg)
    | ann checked type term =>
      rw [Value.weakHead] at done
      exact ih done

theorem Value.Weak.weakHead_eq (weak : v.Weak defs) {fuel : Nat} (done : v.weakHead defs fuel trace = .ok (w, asked)) :
    w = v := by
  induction weak generalizing fuel w trace asked with
  | app _ stuck _ fnLaw argLaw =>
    cases fuel with
    | zero =>
      rw [Value.weakHead] at done
      cases done
    | succ fuel =>
      rw [Value.weakHead] at done
      obtain ⟨head, _, reduced, rest⟩ := Run.andThen_eq_ok_iff.mp done
      obtain rfl := fnLaw reduced
      cases head with
      | lam erased param body => exact absurd trivial stuck
      | _ =>
        obtain ⟨_, _, reducedArg, rest⟩ := Run.andThen_eq_ok_iff.mp rest
        cases rest
        rw [argLaw reducedArg]
  | ref kept =>
    cases fuel with
    | zero =>
      rw [Value.weakHead] at done
      cases done
    | succ fuel =>
      rw [Value.weakHead, consult, kept] at done
      cases done
      rfl
  | _ =>
    cases fuel with
    | zero =>
      rw [Value.weakHead] at done
      cases done
    | succ fuel =>
      rw [Value.weakHead] at done
      cases done
      rfl

theorem Value.Weak.isFunction_of_normalize (weak : v.Weak defs) {fuel : Nat}
    (done : v.normalize defs fuel trace = .ok (w, asked)) (function : w.IsFunction) : v.IsFunction := by
  cases fuel with
  | zero =>
    rw [Value.normalize] at done
    cases done
  | succ fuel =>
    rw [Value.normalize] at done
    obtain ⟨head, _, reduced, rest⟩ := Run.andThen_eq_ok_iff.mp done
    obtain rfl := weak.weakHead_eq reduced
    cases head with
    | lam erased param body => trivial
    | app erased fn arg =>
      obtain ⟨_, _, _, rest⟩ := Run.andThen_eq_ok_iff.mp rest
      obtain ⟨_, _, _, rest⟩ := Run.andThen_eq_ok_iff.mp rest
      cases rest
      exact function
    | _ =>
      cases rest
      exact function

theorem Value.isFunction_of_quote {fuel : Nat} {depth : UInt64} {n : Term}
    (done : v.quote defs fuel trace depth = .ok (n, asked)) (function : n.IsFunction) : v.IsFunction := by
  cases fuel with
  | zero => cases done
  | succ fuel =>
    cases v with
    | lam erased param body => trivial
    | level opened =>
      rw [Value.quote] at done
      split at done
      · cases done
        exact function
      · cases done
    | all erased self param domain codomain =>
      rw [Value.quote] at done
      obtain ⟨_, _, _, rest⟩ := Run.andThen_eq_ok_iff.mp done
      obtain ⟨_, _, _, rest⟩ := Run.andThen_eq_ok_iff.mp rest
      obtain ⟨_, _, _, rest⟩ := Run.andThen_eq_ok_iff.mp rest
      obtain ⟨_, _, _, rest⟩ := Run.andThen_eq_ok_iff.mp rest
      cases rest
      exact function
    | app erased fn arg =>
      rw [Value.quote] at done
      obtain ⟨_, _, _, rest⟩ := Run.andThen_eq_ok_iff.mp done
      obtain ⟨_, _, _, rest⟩ := Run.andThen_eq_ok_iff.mp rest
      cases rest
      exact function
    | ann checked type term =>
      rw [Value.quote] at done
      obtain ⟨_, _, _, rest⟩ := Run.andThen_eq_ok_iff.mp done
      obtain ⟨_, _, _, rest⟩ := Run.andThen_eq_ok_iff.mp rest
      cases rest
      exact function
    | _ =>
      cases done
      exact function

theorem Closure.exists_normalize_of_call {fuel : Nat} {c : Closure Value} {args : List Value}
    (done : c.normalized.call defs fuel trace args = .ok (w, asked)) :
    ∃ (v : Value) (start : Trace) (less : Nat), v.normalize defs less start = .ok (w, asked) := by
  obtain ⟨env, body, passes⟩ := c
  cases fuel with
  | zero =>
    rw [Closure.normalized, Closure.call] at done
    cases done
  | succ fuel =>
    rw [Closure.normalized, Closure.call] at done
    obtain ⟨v, start, _, rest⟩ := Run.andThen_eq_ok_iff.mp done
    exact ⟨v, start, fuel, rest⟩

/-- A normalized value reads back as a normal term. The induction is on the fuel of reading back, which pays for every
binder that it opens; the normalization inside may take as much as it likes. -/
theorem Value.normal_of_quote {fuel fuel' : Nat} {depth : UInt64} {trace' asked' : Trace} {n : Term}
    (normalized : v.normalize defs fuel trace = .ok (w, asked))
    (quoted : w.quote defs fuel' trace' depth = .ok (n, asked')) : n.Normal defs := by
  induction fuel' generalizing fuel v w trace asked depth trace' asked' n with
  | zero => cases quoted
  | succ fuel' ih =>
    cases fuel with
    | zero =>
      rw [Value.normalize] at normalized
      cases normalized
    | succ fuel =>
    rw [Value.normalize] at normalized
    obtain ⟨head, _, reduced, rest⟩ := Run.andThen_eq_ok_iff.mp normalized
    cases Value.weak_of_weakHead reduced with
    | free index =>
      cases rest
      cases quoted
      trivial
    | level opened =>
      cases rest
      rw [Value.quote] at quoted
      split at quoted
      · cases quoted
        trivial
      · cases quoted
    | ref kept =>
      cases rest
      cases quoted
      exact kept
    | typ =>
      cases rest
      cases quoted
      trivial
    | all erased self param domain codomain =>
      cases rest
      rw [Value.quote] at quoted
      obtain ⟨_, _, called, quoted⟩ := Run.andThen_eq_ok_iff.mp quoted
      obtain ⟨_, _, quotedDomain, quoted⟩ := Run.andThen_eq_ok_iff.mp quoted
      obtain ⟨_, _, called', quoted⟩ := Run.andThen_eq_ok_iff.mp quoted
      obtain ⟨_, _, quotedCodomain, result⟩ := Run.andThen_eq_ok_iff.mp quoted
      cases result
      obtain ⟨_, _, _, ofDomain⟩ := Closure.exists_normalize_of_call called
      obtain ⟨_, _, _, ofCodomain⟩ := Closure.exists_normalize_of_call called'
      exact ⟨ih ofDomain quotedDomain, ih ofCodomain quotedCodomain⟩
    | lam param body =>
      cases rest
      rw [Value.quote] at quoted
      obtain ⟨_, _, called, quoted⟩ := Run.andThen_eq_ok_iff.mp quoted
      obtain ⟨_, _, quotedBody, result⟩ := Run.andThen_eq_ok_iff.mp quoted
      cases result
      obtain ⟨_, _, _, ofBody⟩ := Closure.exists_normalize_of_call called
      exact ⟨rfl, ih ofBody quotedBody⟩
    | app weakFn stuck _ =>
      obtain ⟨_, _, normalizedFn, rest⟩ := Run.andThen_eq_ok_iff.mp rest
      obtain ⟨_, _, normalizedArg, rest⟩ := Run.andThen_eq_ok_iff.mp rest
      cases rest
      rw [Value.quote] at quoted
      obtain ⟨fn', _, quotedFn, quoted⟩ := Run.andThen_eq_ok_iff.mp quoted
      obtain ⟨_, _, quotedArg, result⟩ := Run.andThen_eq_ok_iff.mp quoted
      cases result
      have stays : ¬ fn'.IsFunction := fun function =>
        stuck (weakFn.isFunction_of_normalize normalizedFn (Value.isFunction_of_quote quotedFn function))
      exact ⟨rfl, stays, ih normalizedFn quotedFn, ih normalizedArg quotedArg⟩

theorem Term.normal_of_normalize {fuel : Nat} {t n : Term} (done : t.normalize defs fuel = .ok (n, asked)) :
    n.Normal defs := by
  obtain ⟨_, _, normalized, quoted⟩ := Run.andThen_eq_ok_iff.mp done
  exact Value.normal_of_quote normalized quoted

theorem Term.Normal.weak {n : Term} (normal : n.Normal defs) : n.Weak defs := by
  induction n with
  | var index => exact .var index
  | ref name => exact .ref normal
  | typ => exact .typ
  | all erased self param domain codomain => exact .all erased self param domain codomain
  | lam erased param body =>
    obtain ⟨rfl, -⟩ := normal
    exact .lam param body
  | app erased fn arg fnLaw argLaw =>
    obtain ⟨rfl, stuck, normalFn, normalArg⟩ := normal
    exact .app (fnLaw normalFn) stuck (argLaw normalArg)
  | ann checked type term => exact normal.elim

theorem Term.Normal.ends_weakHead {n : Term} (normal : n.Normal defs) (trace : Trace) :
    ∃ asked, Ends (n.weakHead defs · trace) n asked :=
  normal.weak.ends_weakHead trace

def Value.levels : Nat → List Value
  | 0 => []
  | depth + 1 => .level (UInt64.ofNat depth) :: levels depth

theorem Value.length_levels (depth : Nat) : (levels depth).length = depth := by
  induction depth with
  | zero => rfl
  | succ depth ih => rw [levels, List.length_cons, ih]

theorem Value.getElem?_levels {depth index : Nat} (inside : index < depth) :
    (levels depth)[index]? = some (.level (UInt64.ofNat (depth - 1 - index))) := by
  induction depth generalizing index with
  | zero => cases inside
  | succ depth ih =>
    cases index with
    | zero => rfl
    | succ index =>
      have position : depth + 1 - 1 - (index + 1) = depth - 1 - index := by omega
      rw [levels, List.getElem?_cons_succ, ih (by omega), position]

/-- A variable under `depth` opened binders is one of their levels or free, and reads back as itself. Depths are words:
past `2 ^ 64` binders the count starts again, in the environment and in reading back alike. -/
theorem Value.quote_ofVar (defs : Definitions) (depth : Nat) (index : UInt64) :
    ∃ v, ofVar (levels depth) (UInt64.ofNat depth) index = v ∧ v.Leaf ∧ v.Weak defs ∧
      ∀ fuel trace, v.quote defs (fuel + 1) trace (UInt64.ofNat depth) = .ok (.var index, trace) := by
  unfold Value.ofVar
  by_cases bound : index < UInt64.ofNat depth
  · have remainder : index.toNat < depth % UInt64.size := by
      rwa [UInt64.lt_iff_toNat_lt, UInt64.toNat_ofNat'] at bound
    have inside : index.toNat < depth := Nat.lt_of_lt_of_le remainder (Nat.mod_le _ _)
    have below : depth % UInt64.size < UInt64.size := Nat.mod_lt _ (by decide)
    have rest : (depth - 1 - index.toNat) % UInt64.size = depth % UInt64.size - 1 - index.toNat := by
      have parts := Nat.div_add_mod depth UInt64.size
      have apart : depth - 1 - index.toNat =
          depth % UInt64.size - 1 - index.toNat + UInt64.size * (depth / UInt64.size) := by omega
      rw [apart, Nat.add_mul_mod_self_left]
      exact Nat.mod_eq_of_lt (by omega)
    have depthValue : (UInt64.ofNat depth).toNat = depth % UInt64.size := UInt64.toNat_ofNat'
    have levelValue : (UInt64.ofNat (depth - 1 - index.toNat)).toNat = depth % UInt64.size - 1 - index.toNat :=
      UInt64.toNat_ofNat'.trans rest
    have opened : UInt64.ofNat (depth - 1 - index.toNat) < UInt64.ofNat depth := by
      rw [UInt64.lt_iff_toNat_lt, depthValue, levelValue]
      omega
    have back : UInt64.ofNat depth - UInt64.ofNat (depth - 1 - index.toNat) - 1 = index := by
      rw [← UInt64.toNat_inj, toNat_sub_sub_one opened, depthValue, levelValue]
      omega
    rw [if_pos bound, getElem?_levels inside]
    refine ⟨_, rfl, trivial, .level _, fun fuel trace => ?_⟩
    rw [Value.quote, if_pos opened, back]
  · rw [if_neg bound]
    refine ⟨_, rfl, trivial, .free _, fun fuel trace => ?_⟩
    rw [Value.quote, UInt64.sub_add_cancel]

theorem Term.Weak.weak_ofTerm {n : Term} (weak : n.Weak defs) (depth : Nat) :
    (Value.ofTerm (Value.levels depth) n).Weak defs ∧
      ((Value.ofTerm (Value.levels depth) n).IsFunction → n.IsFunction) := by
  unfold Value.ofTerm
  rw [Value.length_levels]
  induction weak with
  | var index =>
    obtain ⟨v, same, leaf, weak, -⟩ := Value.quote_ofVar defs depth index
    rw [Value.ofTermIn, same]
    refine ⟨weak, fun function => ?_⟩
    cases v with
    | lam => exact leaf.elim
    | _ => exact function
  | ref kept => exact ⟨.ref kept, id⟩
  | typ => exact ⟨.typ, id⟩
  | all erased self param domain codomain => exact ⟨.all _ _ _ _ _, id⟩
  | lam param body => exact ⟨.lam _ _, id⟩
  | app _ stuck _ fnLaw argLaw => exact ⟨.app fnLaw.1 (fun function => stuck (fnLaw.2 function)) argLaw.1, id⟩

theorem Value.Weak.ends_weakHead (weak : v.Weak defs) (trace : Trace) : ∃ asked, Ends (v.weakHead defs · trace) v asked := by
  induction weak generalizing trace with
  | app _ stuck _ fnLaw argLaw =>
    obtain ⟨askedFn, endsFn⟩ := fnLaw trace
    obtain ⟨askedArg, endsArg⟩ := argLaw askedFn
    refine ⟨askedArg, ends_of_succ ?_⟩
    simp only [Value.weakHead]
    apply endsFn.andThen
    split
    next => exact absurd trivial stuck
    next => exact endsArg.andThen (.const _ _)
  | @ref name kept =>
    refine ⟨name :: trace, ends_of_succ ?_⟩
    simp only [Value.weakHead, consult, kept]
    exact .const _ _
  | _ =>
    refine ⟨trace, ends_of_succ ?_⟩
    simp only [Value.weakHead]
    exact .const _ _

/-- A value normalizes, and its normal form reads back under `depth` binders as `n`, whatever was asked for before. -/
def Value.Returns (defs : Definitions) (depth : Nat) (v : Value) (n : Term) : Prop :=
  ∀ trace, ∃ w asked, Ends (v.normalize defs · trace) w asked ∧
    ∀ trace', ∃ asked', Ends (w.quote defs · trace' (UInt64.ofNat depth)) n asked'

theorem Value.returns_leaf {depth : Nat} {n : Term} (leaf : v.Leaf) (weak : v.Weak defs)
    (quoted : ∀ fuel trace, v.quote defs (fuel + 1) trace (UInt64.ofNat depth) = .ok (n, trace)) :
    v.Returns defs depth n := by
  intro trace
  obtain ⟨asked, ends⟩ := weak.ends_weakHead trace
  refine ⟨v, asked, Value.ends_normalize_leaf leaf ends, fun trace' => ⟨trace', ends_of_succ ?_⟩⟩
  exact Eventually.of_forall (fun fuel => quoted fuel trace')

theorem Closure.ends_call_normalized {env : List Value} {body : Term} {args : List Value}
    (ends : Ends ((Value.ofTerm (args ++ env) body).normalize defs · trace) w asked) :
    Ends (Closure.call defs · trace (Closure.normalized ⟨env, body, 0⟩) args) w asked := by
  apply ends_of_succ
  simpa only [call_normalized] using ends

theorem Term.Normal.returns {n : Term} (normal : n.Normal defs) (depth : Nat) :
    (Value.ofTerm (Value.levels depth) n).Returns defs depth n := by
  induction n generalizing depth with
  | var index =>
    obtain ⟨v, same, leaf, weak, quoted⟩ := Value.quote_ofVar defs depth index
    have value : Value.ofTerm (Value.levels depth) (.var index) = v := by
      rw [Value.ofTerm, Value.length_levels]
      exact same
    rw [value]
    exact Value.returns_leaf leaf weak quoted
  | ref name => exact Value.returns_leaf trivial (.ref normal) (fun _ _ => rfl)
  | typ => exact Value.returns_leaf trivial .typ (fun _ _ => rfl)
  | all erased self param domain codomain domainLaw codomainLaw =>
    intro trace
    obtain ⟨askedHead, ends⟩ := (normal.weak.weak_ofTerm depth).1.ends_weakHead trace
    refine ⟨.all erased self param (Closure.normalized ⟨Value.levels depth, domain, 0⟩)
      (Closure.normalized ⟨Value.levels depth, codomain, 0⟩), askedHead, ?_, fun trace' => ?_⟩
    · apply ends_of_succ
      simp only [Value.normalize]
      exact ends.andThen (.const _ _)
    · obtain ⟨w, asked, endsDomain, readsDomain⟩ := domainLaw normal.1 (depth + 1) trace'
      obtain ⟨askedDomain, quotedDomain⟩ := readsDomain asked
      obtain ⟨w', asked', endsCodomain, readsCodomain⟩ := codomainLaw normal.2 (depth + 2) askedDomain
      obtain ⟨askedCodomain, quotedCodomain⟩ := readsCodomain asked'
      refine ⟨askedCodomain, ends_of_succ ?_⟩
      simp only [Value.quote, ofNat_add_one, ofNat_add_two]
      exact (Closure.ends_call_normalized endsDomain).andThen (quotedDomain.andThen
        ((Closure.ends_call_normalized endsCodomain).andThen (quotedCodomain.andThen (.const _ _))))
  | lam erased param body bodyLaw =>
    intro trace
    obtain ⟨askedHead, ends⟩ := (normal.weak.weak_ofTerm depth).1.ends_weakHead trace
    refine ⟨.lam erased param (Closure.normalized ⟨Value.levels depth, body, 0⟩), askedHead, ?_, fun trace' => ?_⟩
    · apply ends_of_succ
      simp only [Value.normalize]
      exact ends.andThen (.const _ _)
    · obtain ⟨w, asked, endsBody, readsBody⟩ := bodyLaw normal.2 (depth + 1) trace'
      obtain ⟨askedBody, quotedBody⟩ := readsBody asked
      refine ⟨askedBody, ends_of_succ ?_⟩
      simp only [Value.quote, ofNat_add_one]
      exact (Closure.ends_call_normalized endsBody).andThen (quotedBody.andThen (.const _ _))
  | app erased fn arg fnLaw argLaw =>
    intro trace
    obtain ⟨askedHead, ends⟩ := (normal.weak.weak_ofTerm depth).1.ends_weakHead trace
    obtain ⟨f, askedFn, endsFn, readsFn⟩ := fnLaw normal.2.2.1 depth askedHead
    obtain ⟨a, askedArg, endsArg, readsArg⟩ := argLaw normal.2.2.2 depth askedFn
    refine ⟨.app erased f a, askedArg, ?_, fun trace' => ?_⟩
    · apply ends_of_succ
      simp only [Value.normalize]
      exact ends.andThen (endsFn.andThen (endsArg.andThen (.const _ _)))
    · obtain ⟨askedQuoted, quotedFn⟩ := readsFn trace'
      obtain ⟨askedQuoted', quotedArg⟩ := readsArg askedQuoted
      refine ⟨askedQuoted', ends_of_succ ?_⟩
      simp only [Value.quote]
      exact quotedFn.andThen (quotedArg.andThen (.const _ _))
  | ann checked type term => exact normal.elim

/-- What normalization gives is normal, whatever the definitions store; so it normalizes to itself and evaluates to
itself. -/
theorem Term.normalize_normal (defs : Definitions) (t n : Term) (fuel : Nat) (asked : Trace)
    (done : t.normalize defs fuel = .ok (n, asked)) :
    n.Normal defs ∧ (∃ fuel asked, n.normalize defs fuel = .ok (n, asked)) ∧
      ∃ fuel asked, n.evaluate defs fuel = .ok (n, asked) := by
  have normal := Term.normal_of_normalize done
  refine ⟨normal, ?_, ?_⟩
  · obtain ⟨w, asked, ends, readsBack⟩ := normal.returns 0 []
    obtain ⟨asked', quoted⟩ := readsBack asked
    have run : Ends (n.normalize defs ·) n asked' := ends.andThen quoted
    obtain ⟨enough, done⟩ := run.exists
    exact ⟨enough, asked', done⟩
  · obtain ⟨asked, ends⟩ := normal.ends_weakHead []
    obtain ⟨enough, done⟩ := ends.exists
    exact ⟨enough, asked, done⟩

/-- A stored identity under a binder, an erased argument and an annotation; the last name stands for itself. -/
theorem Term.normalize_normal_alias :
    let defs : Definitions := fun name =>
      if name = [105] then some ⟨[105], .typ, .lam false [120] (.var 0)⟩
      else if name = [97] then some ⟨[97], .typ, .ref [97]⟩ else none
    let t : Term := .ann false .typ (.lam false [121] (.app false (.ref [105]) (.app true (.ref [97]) (.var 0))))
    let n : Term := .lam false [121] (.ref [97])
    t.normalize defs 6 = .ok (n, [[97], [105]]) ∧ n.Normal defs ∧ ∃ fuel asked, n.normalize defs fuel = .ok (n, asked) := by
  intro defs t n
  have done : t.normalize defs 6 = .ok (n, [[97], [105]]) := by
    simp [t, n, defs, Term.normalize, Value.ofTerm, Value.ofTermIn, Value.ofVar, Value.normalize, Value.weakHead,
      Value.quote, Run.andThen, Closure.call, Closure.normalized, consult, unfolding]
  obtain ⟨normal, again, -⟩ := Term.normalize_normal defs t n 6 _ done
  exact ⟨done, normal, again⟩

end SelfLambda
