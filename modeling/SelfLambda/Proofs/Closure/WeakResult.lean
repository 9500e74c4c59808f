import SelfLambda.Proofs.Closure.RoundTrip

/-! Both ways to a weak-head form, by substitution and by way of values, end in one and leave it as it is. Whatever sums
wrap on the way, only the outer form of a result is looked at, and reading a value back keeps it. -/

namespace SelfLambda

open Filter Run

variable {defs : Definitions} {trace asked : Trace} {t u : Term}

theorem Value.Weak.weak_of_quote {v : Value} (weak : v.Weak defs) {fuel : Nat} {depth : UInt64}
    (quoted : v.quote defs fuel trace depth = .ok (t, asked)) : t.Weak defs := by
  induction fuel generalizing v trace asked t with
  | zero => cases quoted
  | succ fuel ih =>
    cases weak with
    | free index =>
      cases quoted
      exact .var _
    | level opened =>
      rw [Value.quote] at quoted
      split at quoted
      · cases quoted
        exact .var _
      · cases quoted
    | ref kept =>
      cases quoted
      exact .ref kept
    | typ =>
      cases quoted
      exact .typ
    | all erased self param domain codomain =>
      rw [Value.quote] at quoted
      obtain ⟨_, _, _, quoted⟩ := Run.andThen_eq_ok_iff.mp quoted
      obtain ⟨_, _, _, quoted⟩ := Run.andThen_eq_ok_iff.mp quoted
      obtain ⟨_, _, _, quoted⟩ := Run.andThen_eq_ok_iff.mp quoted
      obtain ⟨_, _, _, result⟩ := Run.andThen_eq_ok_iff.mp quoted
      cases result
      exact .all erased self param _ _
    | lam param body =>
      rw [Value.quote] at quoted
      obtain ⟨_, _, _, quoted⟩ := Run.andThen_eq_ok_iff.mp quoted
      obtain ⟨_, _, _, result⟩ := Run.andThen_eq_ok_iff.mp quoted
      cases result
      exact .lam param _
    | app weakFn stuck weakArg =>
      rw [Value.quote] at quoted
      obtain ⟨_, _, quotedFn, quoted⟩ := Run.andThen_eq_ok_iff.mp quoted
      obtain ⟨_, _, quotedArg, result⟩ := Run.andThen_eq_ok_iff.mp quoted
      cases result
      -- reading back makes no function of a head that is none
      exact .app (ih weakFn quotedFn) (mt (Value.isFunction_of_quote quotedFn) stuck) (ih weakArg quotedArg)

namespace Term

theorem weak_of_reduce {fuel : Nat} (done : t.reduce defs fuel = .ok (u, asked)) : u.Weak defs := by
  obtain ⟨_, _, reduced, quoted⟩ := Run.andThen_eq_ok_iff.mp done
  exact (Value.weak_of_weakHead reduced).weak_of_quote quoted

theorem Weak.ends_reduce (weak : u.Weak defs) : ∃ asked, Ends (u.reduce defs ·) u asked := by
  obtain ⟨asked, ends⟩ := (weak.weak_ofTerm 0).1.ends_weakHead []
  have readsBack : Ends ((Value.ofTerm [] u).quote defs · asked 0) u asked := by
    filter_upwards [eventually_ge_atTop u.size] with fuel enough
    exact Value.quote_ofTerm_levels 0 u enough
  exact ⟨asked, ends.andThen readsBack⟩

/-- Where evaluation or reduction ends, it ends in a weak-head form, and with enough fuel both give that form back
unchanged. -/
theorem weak_form_reached_and_kept (defs : Definitions) (t u : Term) (fuel : Nat) (asked : Trace)
    (done : t.evaluate defs fuel = .ok (u, asked) ∨ t.reduce defs fuel = .ok (u, asked)) :
    u.Weak defs ∧ (∃ asked, Ends (u.evaluate defs ·) u asked) ∧ ∃ asked, Ends (u.reduce defs ·) u asked := by
  have weak : u.Weak defs := by
    rcases done with evaluated | reduced
    · exact weak_of_weakHead evaluated
    · exact weak_of_reduce reduced
  exact ⟨weak, weak.ends_weakHead [], weak.ends_reduce⟩

/-- An application that is stuck on a name that stands for itself; its argument is a stored function called on an erased
argument and then on a variable, and what binders hold is left alone. -/
theorem weak_form_reached_and_kept_alias :
    let defs : Definitions := fun name =>
      if name = [107] then some ⟨[107], .typ, .lam true [120] (.lam false [121] (.lam false [122] (.var 1)))⟩
      else if name = [97] then some ⟨[97], .typ, .ref [97]⟩ else none
    let t : Term := .ann false .typ (.app false (.ref [97]) (.app false (.app true (.ref [107]) .typ) (.var 3)))
    let u : Term := .app false (.ref [97]) (.lam false [122] (.var 4))
    t.evaluate defs 9 = .ok (u, [[107], [97]]) ∧ t.reduce defs 9 = .ok (u, [[107], [97]]) ∧ u.Weak defs ∧
      (∃ asked, Ends (u.evaluate defs ·) u asked) ∧ ∃ asked, Ends (u.reduce defs ·) u asked := by
  intro defs t u
  have evaluated : t.evaluate defs 9 = .ok (u, [[107], [97]]) := by
    simp [t, u, defs, evaluate, weakHead, Run.andThen, consult, unfolding, subst, shift, mapVars]
  have reduced : t.reduce defs 9 = .ok (u, [[107], [97]]) := by
    simp [t, u, defs, reduce, Value.ofTerm, Value.ofTermIn, Value.ofVar, Value.weakHead, Value.quote, Run.andThen,
      Closure.call, consult, unfolding]
  exact ⟨evaluated, reduced, weak_form_reached_and_kept defs t u 9 _ (.inl evaluated)⟩

end Term

end SelfLambda
