import SelfLambda.Proofs.Closure.RoundTrip

/-! Calls as substitutions. A closure takes values that were made before and meets them under any number of its own
binders; substitution moves the argument past those binders as it goes in. Read back, the two are the same term. -/

namespace SelfLambda

open Run

variable {defs : Definitions} {trace : Trace} {outer depth : Nat} {env : List Value}

namespace Value

theorem getElem?_opened (outer : Nat) (env : List Value) (depth index : Nat) :
    (opened outer env depth)[index]? =
      if index < depth then some (.level (UInt64.ofNat (outer + (depth - 1 - index)))) else env[index - depth]? := by
  induction depth generalizing index with
  | zero => rfl
  | succ depth ih =>
    cases index with
    | zero => rw [opened, List.getElem?_cons_zero, if_pos (Nat.zero_lt_succ _), Nat.sub_zero, Nat.add_sub_cancel]
    | succ index =>
      have position : depth + 1 - 1 - (index + 1) = depth - 1 - index := by omega
      rw [opened, List.getElem?_cons_succ, ih, position, Nat.add_sub_add_right]
      simp only [Nat.add_lt_add_iff_right]

theorem readsBack_bound {index : UInt64} (inside : index.toNat < depth) (countFits : depth + env.length < UInt64.size)
    (depthFits : outer + depth < UInt64.size) :
    (ofVar (opened outer env depth) (UInt64.ofNat (depth + env.length)) index).ReadsBack defs trace
      (UInt64.ofNat (outer + depth)) (.var index) := by
  have bound : index < UInt64.ofNat (depth + env.length) := (UInt64.lt_ofNat_iff countFits).mpr (by omega)
  have depthValue := Term.toNat_ofNat_of_fits depthFits
  have levelValue : (UInt64.ofNat (outer + (depth - 1 - index.toNat))).toNat = outer + (depth - 1 - index.toNat) :=
    Term.toNat_ofNat_of_fits (by omega)
  have below : UInt64.ofNat (outer + (depth - 1 - index.toNat)) < UInt64.ofNat (outer + depth) := by
    rw [UInt64.lt_ofNat_iff depthFits, levelValue]
    omega
  have back : UInt64.ofNat (outer + depth) - UInt64.ofNat (outer + (depth - 1 - index.toNat)) - 1 = index := by
    rw [← UInt64.toNat_inj, toNat_sub_sub_one below, depthValue, levelValue]
    omega
  rw [ofVar, if_pos bound, getElem?_opened, if_pos inside]
  apply readsBack_of_succ
  intro fuel
  rw [quote, if_pos below, back]

theorem ofVar_opened {index : UInt64} {v : Value} (beyond : depth ≤ index.toNat)
    (countFits : depth + env.length < UInt64.size) (found : env[index.toNat - depth]? = some v) :
    ofVar (opened outer env depth) (UInt64.ofNat (depth + env.length)) index = v := by
  have inside := (List.getElem?_eq_some_iff.mp found).1
  have bound : index < UInt64.ofNat (depth + env.length) := (UInt64.lt_ofNat_iff countFits).mpr (by omega)
  rw [ofVar, if_pos bound, getElem?_opened, if_neg (Nat.not_lt_of_le beyond), found]

/-- A variable beyond the environment reads back as a variable beyond the binders around it, without those that the
environment stands for. Here sums may wrap. -/
theorem readsBack_beyond {index : UInt64} (beyond : depth + env.length ≤ index.toNat) :
    (ofVar (opened outer env depth) (UInt64.ofNat (depth + env.length)) index).ReadsBack defs trace
      (UInt64.ofNat (outer + depth)) (.var (index - UInt64.ofNat env.length + UInt64.ofNat outer)) := by
  have free : ¬index < UInt64.ofNat (depth + env.length) := by
    rw [UInt64.lt_ofNat_iff (Nat.lt_of_le_of_lt beyond index.toNat_lt)]
    exact Nat.not_lt_of_le beyond
  have sum : index - UInt64.ofNat (depth + env.length) + UInt64.ofNat (outer + depth) =
      index - UInt64.ofNat env.length + UInt64.ofNat outer := by
    -- the opened binders are counted on both sides, as words, and cancel
    rw [UInt64.ofNat_add, UInt64.ofNat_add]
    grind
  rw [ofVar, if_neg free]
  apply readsBack_of_succ
  intro fuel
  rw [quote, sum]

theorem readsBack_shift {t : Term} (fits : t.FitsUnder outer) :
    (ofTerm [] t).ReadsBack defs trace (UInt64.ofNat outer) (t.shift (UInt64.ofNat outer) 0) := by
  rw [Term.shift_eq_mapVars]
  refine @readsBack_ofTerm defs trace outer [] (Term.shiftVar (UInt64.ofNat outer) 0) 0 t (fits.imp ?_)
  rintro depth index ⟨depthFits, _⟩
  have depthSmall : depth < UInt64.size := Nat.lt_of_le_of_lt (Nat.le_add_left _ _) depthFits
  rcases Nat.lt_or_ge index.toNat depth with inside | beyond
  · rw [Term.shiftVar_of_lt ((UInt64.lt_ofNat_iff depthSmall).mpr inside)]
    exact readsBack_bound inside depthSmall depthFits
  · have readsBack := @readsBack_beyond defs trace outer depth [] index beyond
    rw [Term.shiftVar_of_le ((UInt64.ofNat_le_iff depthSmall).mpr beyond)]
    rwa [List.length_nil, show UInt64.ofNat 0 = 0 from rfl, UInt64.sub_zero] at readsBack

/-- A body read in an environment of values made outside is the body with their terms put in. -/
theorem readsBack_instantiate {t : Term} {values : List Term} (fits : t.InstantiateFits values) :
    (ofTerm (values.map (ofTerm [])) t).ReadsBack defs trace 0 (t.instantiate values) := by
  refine @readsBack_ofTerm defs trace 0 (values.map (ofTerm [])) (Term.placeVar values) 0 t (fits.imp ?_)
  rintro depth index ⟨depthFits, valueFits⟩
  have depthSmall : depth < UInt64.size := Nat.lt_of_le_of_lt (Nat.le_add_right _ _) depthFits
  have countFits : depth + (values.map (ofTerm [])).length < UInt64.size := by rwa [List.length_map]
  rcases Nat.lt_or_ge index.toNat depth with inside | beyond
  · rw [Term.placeVar_of_lt ((UInt64.lt_ofNat_iff depthSmall).mpr inside)]
    exact readsBack_bound inside countFits (by omega)
  · have order : UInt64.ofNat depth ≤ index := (UInt64.ofNat_le_iff depthSmall).mpr beyond
    rw [Term.placeVar_of_le order, Term.toNat_ofNat_of_fits depthSmall]
    cases found : values[index.toNat - depth]? with
    | some value =>
      have foundValue : (values.map (ofTerm []))[index.toNat - depth]? = some (ofTerm [] value) := by
        rw [List.getElem?_map, found]
        rfl
      rw [ofVar_opened beyond countFits foundValue, Nat.zero_add]
      exact readsBack_shift (valueFits value beyond found)
    | none =>
      have farther : depth + (values.map (ofTerm [])).length ≤ index.toNat := by
        have absent := List.getElem?_eq_none_iff.mp found
        rw [List.length_map]
        omega
      have readsBack := @readsBack_beyond defs trace 0 depth (values.map (ofTerm [])) index farther
      rw [show UInt64.ofNat 0 = 0 from rfl, UInt64.add_zero] at readsBack
      rwa [← List.length_map (ofTerm [])]

end Value

def Closure.callQuoted (defs : Definitions) (fuel : Nat) (trace : Trace) (c : Closure Value) (args : List Value) :
    Run Term :=
  Run.andThen (c.call defs fuel trace args) fun v trace => v.quote defs fuel trace 0

theorem Closure.ends_callQuoted {body : Term} {values : List Term} (fits : body.InstantiateFits values) :
    Ends (fun fuel => Closure.callQuoted defs fuel trace ⟨[], body, 0⟩ (values.map (Value.ofTerm [])))
      (body.instantiate values) trace := by
  filter_upwards [Filter.eventually_ge_atTop (body.instantiate values).size] with fuel enough
  rw [callQuoted, Run.andThen_ok (Closure.call_ready defs fuel trace [] body _), List.append_nil]
  exact Value.readsBack_instantiate fits fuel enough

/-- Calling the value of a function on the value of a term, read back, is the function's body with the term put in. In a
function type the domain is called on a value for the self name, and the codomain on values for the parameter and for the
self name, of which the parameter is the nearer. -/
theorem Term.call_is_substitution (defs : Definitions) (trace : Trace) (erased : Bool) (self param : Name)
    {body arg domain codomain selfTerm paramTerm : Term} (bodyFits : body.InstantiateFits [arg])
    (domainFits : domain.InstantiateFits [selfTerm]) (codomainFits : codomain.InstantiateFits [paramTerm, selfTerm]) :
    (∃ c, Value.ofTerm [] (.lam erased param body) = .lam erased param c ∧
      Ends (fun fuel => c.callQuoted defs fuel trace [Value.ofTerm [] arg]) (body.subst arg 0) trace) ∧
      ∃ d c, Value.ofTerm [] (.all erased self param domain codomain) = .all erased self param d c ∧
        Ends (fun fuel => d.callQuoted defs fuel trace [Value.ofTerm [] selfTerm]) (domain.subst selfTerm 0) trace ∧
        Ends (fun fuel => c.callQuoted defs fuel trace [Value.ofTerm [] paramTerm, Value.ofTerm [] selfTerm])
          ((codomain.subst (paramTerm.shift 1 0) 0).subst selfTerm 0) trace := by
  rw [← instantiate_one, ← instantiate_one, ← instantiate_two codomainFits]
  exact ⟨⟨_, rfl, Closure.ends_callQuoted bodyFits⟩,
    ⟨_, _, rfl, Closure.ends_callQuoted domainFits, Closure.ends_callQuoted codomainFits⟩⟩

/-- An argument that is a free variable goes under a binder of the body; in the codomain self name and parameter are both
met under a binder, each with a free variable for it. -/
theorem Term.call_is_substitution_under_binders :
    let body : Term := .lam false [121] (.app false (.var 1) (.var 2))
    let codomain : Term := .lam false [122] (.app true (.app false (.var 1) (.var 2)) (.var 3))
    body.InstantiateFits [.var 5] ∧ (Term.var 0).InstantiateFits [.var 7] ∧ codomain.InstantiateFits [.var 6, .var 7] ∧
      (body.subst (.var 5) 0 = .lam false [121] (.app false (.var 6) (.var 1))) ∧
      ((codomain.subst (Term.shift (.var 6) 1 0) 0).subst (.var 7) 0 =
        .lam false [122] (.app true (.app false (.var 7) (.var 8)) (.var 1))) ∧
      (∃ c, Value.ofTerm [] (.lam false [120] body) = .lam false [120] c ∧
        Ends (fun fuel => c.callQuoted (fun _ => none) fuel [] [Value.ofTerm [] (.var 5)])
          (.lam false [121] (.app false (.var 6) (.var 1))) []) ∧
      ∃ d c, Value.ofTerm [] (.all false [115] [120] (.var 0) codomain) = .all false [115] [120] d c ∧
        Ends (fun fuel => d.callQuoted (fun _ => none) fuel [] [Value.ofTerm [] (.var 7)]) (.var 7) [] ∧
        Ends (fun fuel => c.callQuoted (fun _ => none) fuel [] [Value.ofTerm [] (.var 6), Value.ofTerm [] (.var 7)])
          (.lam false [122] (.app true (.app false (.var 7) (.var 8)) (.var 1))) [] := by
  intro body codomain
  have bodyFits : body.InstantiateFits [.var 5] := by
    simp [body, Term.InstantiateFits, Term.EachVar, Term.FitsUnder, UInt64.size]
  have domainFits : (Term.var 0).InstantiateFits [.var 7] := by
    simp [Term.InstantiateFits, Term.EachVar, Term.FitsUnder, UInt64.size]
  have codomainFits : codomain.InstantiateFits [.var 6, .var 7] := by
    simp [codomain, Term.InstantiateFits, Term.EachVar, Term.FitsUnder, UInt64.size]
  obtain ⟨ofFunction, ofFunctionType⟩ := call_is_substitution (fun _ => none) [] false [115] [120] bodyFits domainFits
    codomainFits
  exact ⟨bodyFits, domainFits, codomainFits, rfl, rfl, ofFunction, ofFunctionType⟩

end SelfLambda
