import SelfLambda.Proofs.Closure.NormalResult
import SelfLambda.Proofs.Index.Traversal

/-! Terms and values. The value of a term reads back as a traversal of the term: every binder that reading back opens
finds its own level in the environment, and what comes of the other variables is said by the environment they are read
in. Outside all environments the traversal changes nothing. Nothing here asks that sums do not wrap: an environment and
the depth at which it is read are counted by the same word. -/

namespace SelfLambda

open Run

variable {defs : Definitions} {trace : Trace}

/-- At this depth the value reads back as the term, with a unit of fuel for every node and asking for no name. -/
def Value.ReadsBack (defs : Definitions) (trace : Trace) (depth : UInt64) (v : Value) (t : Term) : Prop :=
  ∀ fuel, t.size ≤ fuel → v.quote defs fuel trace depth = .ok (t, trace)

theorem Term.exists_fuel_succ {t : Term} {fuel : Nat} (enough : t.size ≤ fuel) : ∃ less, fuel = less + 1 :=
  Nat.exists_eq_succ_of_ne_zero (Nat.ne_of_gt (Nat.lt_of_lt_of_le t.size_pos enough))

theorem Value.readsBack_of_succ {depth : UInt64} {v : Value} {t : Term}
    (quoted : ∀ fuel, v.quote defs (fuel + 1) trace depth = .ok (t, trace)) : v.ReadsBack defs trace depth t := by
  intro fuel enough
  obtain ⟨less, rfl⟩ := Term.exists_fuel_succ enough
  exact quoted less

def Value.opened (outer : Nat) (env : List Value) : Nat → List Value
  | 0 => env
  | depth + 1 => .level (UInt64.ofNat (outer + depth)) :: opened outer env depth

theorem Value.length_opened (outer : Nat) (env : List Value) (depth : Nat) :
    (opened outer env depth).length = depth + env.length := by
  induction depth with
  | zero => rw [opened, Nat.zero_add]
  | succ depth ih => rw [opened, List.length_cons, ih, Nat.add_right_comm]

theorem Value.levels_eq_opened (depth : Nat) : levels depth = opened 0 [] depth := by
  induction depth with
  | zero => rfl
  | succ depth ih => rw [levels, opened, ih, Nat.zero_add]

theorem Closure.call_opened (defs : Definitions) (fuel : Nat) (trace : Trace) (outer : Nat) (env : List Value)
    (depth : Nat) (body : Term) :
    Closure.call defs fuel trace ⟨Value.opened outer env depth, body, 0⟩ [.level (UInt64.ofNat (outer + depth))] =
      .ok (Value.ofTerm (Value.opened outer env (depth + 1)) body, trace) :=
  Closure.call_ready defs fuel trace (Value.opened outer env depth) body [.level (UInt64.ofNat (outer + depth))]

theorem Closure.call_opened_two (defs : Definitions) (fuel : Nat) (trace : Trace) (outer : Nat) (env : List Value)
    (depth : Nat) (body : Term) :
    Closure.call defs fuel trace ⟨Value.opened outer env depth, body, 0⟩
        [.level (UInt64.ofNat (outer + depth + 1)), .level (UInt64.ofNat (outer + depth))] =
      .ok (Value.ofTerm (Value.opened outer env (depth + 2)) body, trace) :=
  Closure.call_ready defs fuel trace (Value.opened outer env depth) body
    [.level (UInt64.ofNat (outer + depth + 1)), .level (UInt64.ofNat (outer + depth))]

/-- Reading back a term in an environment is a traversal of the term, if it is one at every variable. -/
theorem Value.readsBack_ofTerm {outer : Nat} {env : List Value} {f : UInt64 → UInt64 → Term} {depth : Nat} (t : Term)
    (leaf : t.EachVar (fun depth index =>
      (ofVar (opened outer env depth) (UInt64.ofNat (depth + env.length)) index).ReadsBack defs trace
        (UInt64.ofNat (outer + depth)) (f (UInt64.ofNat depth) index)) depth) :
    (Value.ofTerm (opened outer env depth) t).ReadsBack defs trace (UInt64.ofNat (outer + depth))
      (t.mapVars f (UInt64.ofNat depth)) := by
  -- only the number of opened binders changes on the way down: the environment and what lies outside it stay
  induction t generalizing depth with
  | var index =>
    rw [Value.ofTerm, length_opened]
    exact leaf
  | ref name => exact readsBack_of_succ (fun _ => rfl)
  | typ => exact readsBack_of_succ (fun _ => rfl)
  | all erased self param domain codomain domainLaw codomainLaw =>
    intro fuel enough
    obtain ⟨less, rfl⟩ := Term.exists_fuel_succ enough
    rw [Term.mapVars, ofNat_add_one, ofNat_add_two] at enough ⊢
    simp only [Term.size] at enough
    have ofDomain := domainLaw leaf.1 less (by omega)
    have ofCodomain := codomainLaw leaf.2 less (by omega)
    rw [← Nat.add_assoc] at ofDomain ofCodomain
    rw [Value.ofTerm, Value.ofTermIn, Value.quote, ofNat_add_one, ofNat_add_two,
      Run.andThen_ok (Closure.call_opened defs less trace outer env depth domain), Run.andThen_ok ofDomain,
      Run.andThen_ok (Closure.call_opened_two defs less trace outer env depth codomain), Run.andThen_ok ofCodomain]
  | lam erased param body bodyLaw =>
    intro fuel enough
    obtain ⟨less, rfl⟩ := Term.exists_fuel_succ enough
    rw [Term.mapVars, ofNat_add_one] at enough ⊢
    simp only [Term.size] at enough
    have ofBody := bodyLaw leaf less (by omega)
    rw [← Nat.add_assoc] at ofBody
    rw [Value.ofTerm, Value.ofTermIn, Value.quote, ofNat_add_one,
      Run.andThen_ok (Closure.call_opened defs less trace outer env depth body), Run.andThen_ok ofBody]
  | app erased fn arg fnLaw argLaw =>
    intro fuel enough
    obtain ⟨less, rfl⟩ := Term.exists_fuel_succ enough
    rw [Term.mapVars] at enough ⊢
    simp only [Term.size] at enough
    have ofFn := fnLaw leaf.1 less (by omega)
    have ofArg := argLaw leaf.2 less (by omega)
    rw [Value.ofTerm] at ofFn ofArg
    rw [Value.ofTerm, Value.ofTermIn, Value.quote, Run.andThen_ok ofFn, Run.andThen_ok ofArg]
  | ann checked type term typeLaw termLaw =>
    intro fuel enough
    obtain ⟨less, rfl⟩ := Term.exists_fuel_succ enough
    rw [Term.mapVars] at enough ⊢
    simp only [Term.size] at enough
    have ofType := typeLaw leaf.1 less (by omega)
    have ofTerm := termLaw leaf.2 less (by omega)
    rw [Value.ofTerm] at ofType ofTerm
    rw [Value.ofTerm, Value.ofTermIn, Value.quote, Run.andThen_ok ofType, Run.andThen_ok ofTerm]

theorem Value.quote_ofTerm_levels {fuel : Nat} (depth : Nat) (t : Term) (enough : t.size ≤ fuel) :
    (Value.ofTerm (levels depth) t).quote defs fuel trace (UInt64.ofNat depth) = .ok (t, trace) := by
  have leaf (depth : Nat) (index : UInt64) :
      (ofVar (opened 0 [] depth) (UInt64.ofNat depth) index).ReadsBack defs trace (UInt64.ofNat (0 + depth))
        (.var index) := by
    obtain ⟨v, same, -, -, quoted⟩ := Value.quote_ofVar defs depth index
    rw [← levels_eq_opened, Nat.zero_add, same]
    exact readsBack_of_succ (fun fuel => quoted fuel trace)
  have readsBack : (Value.ofTerm (opened 0 [] depth) t).ReadsBack defs trace (UInt64.ofNat (0 + depth))
      (t.mapVars (fun _ index => .var index) (UInt64.ofNat depth)) :=
    Value.readsBack_ofTerm t (Term.eachVar_of_forall leaf t depth)
  rw [← levels_eq_opened, Term.mapVars_var, Nat.zero_add] at readsBack
  exact readsBack fuel enough

/-- The value of a term reads back as the term, whatever its indices and however deep its binders, and asks for no name
on the way. With less fuel than the term has nodes it may run out of fuel, but never stops for any other cause. -/
theorem Term.value_reads_back (defs : Definitions) (trace : Trace) (t : Term) :
    (∀ more, (Value.ofTerm [] t).quote defs (t.size + more) trace 0 = .ok (t, trace)) ∧
      ∀ fuel, (Value.ofTerm [] t).quote defs fuel trace 0 = .ok (t, trace) ∨
        (Value.ofTerm [] t).quote defs fuel trace 0 = .error ⟨.outOfFuel, trace⟩ := by
  have readsBack (fuel : Nat) (enough : t.size ≤ fuel) : (Value.ofTerm [] t).quote defs fuel trace 0 = .ok (t, trace) :=
    Value.quote_ofTerm_levels 0 t enough
  refine ⟨fun more => readsBack _ (Nat.le_add_right _ _), fun fuel => ?_⟩
  have later := readsBack (fuel + t.size) (Nat.le_add_left _ _)
  have settles := (Value.ofTerm [] t).quote_steady defs trace 0 (Nat.le_add_right fuel t.size)
  by_cases stopped : ∃ asked, (Value.ofTerm [] t).quote defs fuel trace 0 = .error ⟨.outOfFuel, asked⟩
  · obtain ⟨asked, stopped⟩ := stopped
    -- what was asked for lies between what was asked for before and what is asked for with enough fuel
    have begun := settles.begun
    have ended := settles.asked
    simp only [stopped, later, Run.asked_error, Run.asked_ok] at begun ended
    rw [stopped, ended.eq_of_length (Nat.le_antisymm ended.length_le begun.length_le)]
    exact .inr rfl
  · exact .inl ((settles.ended (not_exists.mp stopped)).symm.trans later)

end SelfLambda
