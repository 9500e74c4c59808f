import SelfLambda.Closure.Quotation

/-! More fuel never changes what a run has done: it asks for the same names first, and a result, or a failure other than
running out of fuel, stays. So the outcome of a term is a property of the term, and the fuel only decides how much of it is
seen. -/

namespace SelfLambda

namespace Run

variable {α β : Type} {start : Trace}

/-- After the names of `start`, `more` asks for all that `run` has asked for; and where `run` has ended, `more` has ended
in the same way. -/
structure Settles (start : Trace) (run more : Run α) : Prop where
  begun : start <:+ run.asked
  asked : run.asked <:+ more.asked
  ended : (∀ asked, run ≠ .error ⟨.outOfFuel, asked⟩) → more = run

theorem Settles.refl {run : Run α} (begun : start <:+ run.asked) : Settles start run run :=
  ⟨begun, List.suffix_rfl, fun _ => rfl⟩

theorem Settles.ok (result : α) (trace : Trace) : Settles trace (.ok (result, trace)) (.ok (result, trace)) :=
  .refl List.suffix_rfl

theorem Settles.outOfFuel {more : Run α} (begun : start <:+ more.asked) :
    Settles start (.error ⟨.outOfFuel, start⟩) more :=
  ⟨List.suffix_rfl, begun, fun ended => absurd rfl (ended start)⟩

theorem Settles.after {name : Name} {run more : Run α} (settles : Settles (name :: start) run more) :
    Settles start run more :=
  ⟨(List.suffix_cons name start).trans settles.begun, settles.asked, settles.ended⟩

theorem Settles.andThen {run more : Run α} {next nextMore : α → Trace → Run β} (first : Settles start run more)
    (second : ∀ result trace, Settles trace (next result trace) (nextMore result trace)) :
    Settles start (run.andThen next) (more.andThen nextMore) := by
  obtain ⟨begun, asked, ended⟩ := first
  match run with
  | .ok (result, trace) =>
    obtain rfl := ended (fun _ same => nomatch same)
    have rest := second result trace
    exact ⟨begun.trans rest.begun, rest.asked, rest.ended⟩
  | .error ⟨.levelOutOfScope, trace⟩ =>
    obtain rfl := ended (fun _ same => nomatch same)
    exact ⟨begun, asked, fun _ => rfl⟩
  | .error ⟨.outOfFuel, trace⟩ =>
    -- what `more` asks for once `run` has stopped comes after all that `run` has asked for
    refine ⟨begun, ?_, fun ended => absurd rfl (ended trace)⟩
    match more with
    | .error _ => exact asked
    | .ok (result, later) =>
      have rest := second result later
      exact asked.trans (rest.begun.trans rest.asked)

theorem Settles.result {run more : Run α} (settles : Settles start run more) {out : α × Trace} (done : run = .ok out) :
    more = .ok out := by
  rw [settles.ended (by rw [done]; exact fun _ same => nomatch same), done]

/-- However much fuel there is, more fuel goes on from there. -/
def Steady (start : Trace) (run : Nat → Run α) : Prop :=
  ∀ {fuel fuel' : Nat}, fuel ≤ fuel' → Settles start (run fuel) (run fuel')

/-- Induction on two amounts of fuel side by side. The larger one next to itself comes before the smaller one that is
zero. -/
theorem settle_of_succ {P : Nat → Nat → Prop} (zero : P 0 0) (first : ∀ fuel, P fuel fuel → P 0 fuel)
    (succ : ∀ fuel fuel', fuel ≤ fuel' → P fuel fuel' → P (fuel + 1) (fuel' + 1)) {fuel fuel' : Nat}
    (more : fuel ≤ fuel') : P fuel fuel' := by
  induction fuel' generalizing fuel with
  | zero =>
    obtain rfl := Nat.le_zero.mp more
    exact zero
  | succ fuel' ih =>
    cases fuel with
    | zero => exact first _ (succ fuel' fuel' (Nat.le_refl _) (ih (Nat.le_refl _)))
    | succ fuel =>
      have more := Nat.le_of_succ_le_succ more
      exact succ fuel fuel' more (ih more)

end Run

open Run

variable {defs : Definitions} {fuel fuel' : Nat}

theorem Term.weakHead_settles (ih : ∀ trace (t : Term), Settles trace (t.weakHead defs fuel trace) (t.weakHead defs fuel' trace))
    (trace : Trace) (t : Term) : Settles trace (t.weakHead defs (fuel + 1) trace) (t.weakHead defs (fuel' + 1) trace) := by
  cases t with
  | var index => exact .ok _ _
  | ref name =>
    simp only [weakHead, consult]
    cases unfolding defs name with
    | none => exact .after (.ok _ _)
    | some u => exact .after (ih _ u)
  | typ => exact .ok _ _
  | all erased self param domain codomain => exact .ok _ _
  | lam erased param body =>
    cases erased with
    | false => exact .ok _ _
    | true => exact ih trace _
  | app erased fn arg =>
    cases erased with
    | true => exact ih trace fn
    | false =>
      simp only [weakHead]
      apply Settles.andThen (ih trace fn)
      intro head trace
      cases head with
      | lam erased param body => exact ih trace _
      | _ => exact .andThen (ih trace arg) (fun _ _ => .ok _ _)
  | ann checked type term => exact ih trace term

theorem Term.weakHead_steady (defs : Definitions) (trace : Trace) (t : Term) :
    Steady trace (fun fuel => t.weakHead defs fuel trace) := by
  intro fuel fuel' more
  refine settle_of_succ (P := fun fuel fuel' => ∀ trace (t : Term),
    Settles trace (t.weakHead defs fuel trace) (t.weakHead defs fuel' trace)) ?_ ?_ ?_ more trace t
  · exact fun _ _ => .refl List.suffix_rfl
  · exact fun fuel same trace t => .outOfFuel (same trace t).begun
  · exact fun fuel fuel' _ ih => weakHead_settles ih

structure ValuesSettle (defs : Definitions) (fuel fuel' : Nat) : Prop where
  call : ∀ trace (c : Closure Value) args, Settles trace (c.call defs fuel trace args) (c.call defs fuel' trace args)
  weakHead : ∀ trace (v : Value), Settles trace (v.weakHead defs fuel trace) (v.weakHead defs fuel' trace)
  normalize : ∀ trace (v : Value), Settles trace (v.normalize defs fuel trace) (v.normalize defs fuel' trace)

namespace ValuesSettle

theorem call_ready (fuel fuel' : Nat) (trace : Trace) (env : List Value) (body : Term) (args : List Value) :
    Settles trace (Closure.call defs fuel trace ⟨env, body, 0⟩ args) (Closure.call defs fuel' trace ⟨env, body, 0⟩ args) := by
  rw [Closure.call, Closure.call]
  exact .ok _ _

theorem call_succ (ih : ValuesSettle defs fuel fuel') (trace : Trace) (c : Closure Value) (args : List Value) :
    Settles trace (c.call defs (fuel + 1) trace args) (c.call defs (fuel' + 1) trace args) := by
  obtain ⟨env, body, passes⟩ := c
  cases passes with
  | zero => exact call_ready _ _ trace env body args
  | succ passes =>
    rw [Closure.call, Closure.call]
    exact .andThen (ih.call trace ⟨env, body, passes⟩ args) (fun v trace => ih.normalize trace v)

theorem weakHead_succ (ih : ValuesSettle defs fuel fuel') (trace : Trace) (v : Value) :
    Settles trace (v.weakHead defs (fuel + 1) trace) (v.weakHead defs (fuel' + 1) trace) := by
  cases v with
  | ref name =>
    simp only [Value.weakHead, consult]
    cases unfolding defs name with
    | none => exact .after (.ok _ _)
    | some u => exact .after (ih.weakHead _ _)
  | lam erased param body =>
    cases erased with
    | false => simpa only [Value.weakHead] using Settles.ok _ _
    | true =>
      simp only [Value.weakHead]
      exact .andThen (ih.call trace body _) (fun v trace => ih.weakHead trace v)
  | app erased fn arg =>
    cases erased with
    | true =>
      simp only [Value.weakHead]
      exact ih.weakHead trace fn
    | false =>
      simp only [Value.weakHead]
      apply Settles.andThen (ih.weakHead trace fn)
      intro head trace
      cases head with
      | lam erased param body => exact .andThen (ih.call trace body _) (fun v trace => ih.weakHead trace v)
      | _ => exact .andThen (ih.weakHead trace arg) (fun _ _ => .ok _ _)
  | ann checked type term =>
    simp only [Value.weakHead]
    exact ih.weakHead trace term
  | _ => simpa only [Value.weakHead] using Settles.ok _ _

theorem normalize_succ (ih : ValuesSettle defs fuel fuel') (trace : Trace) (v : Value) :
    Settles trace (v.normalize defs (fuel + 1) trace) (v.normalize defs (fuel' + 1) trace) := by
  rw [Value.normalize, Value.normalize]
  apply Settles.andThen (ih.weakHead trace v)
  intro w trace
  cases w with
  | app erased fn arg =>
    apply Settles.andThen (ih.normalize trace fn)
    intro fn trace
    exact .andThen (ih.normalize trace arg) (fun _ _ => .ok _ _)
  | _ => exact .ok _ _

theorem zero (same : ValuesSettle defs fuel fuel) : ValuesSettle defs 0 fuel := by
  refine ⟨?_, ?_, ?_⟩
  · intro trace c args
    obtain ⟨env, body, passes⟩ := c
    cases passes with
    | zero => exact call_ready _ _ trace env body args
    | succ passes =>
      rw [Closure.call]
      exact .outOfFuel (same.call trace _ args).begun
  · intro trace v
    rw [Value.weakHead]
    exact .outOfFuel (same.weakHead trace v).begun
  · intro trace v
    rw [Value.normalize]
    exact .outOfFuel (same.normalize trace v).begun

end ValuesSettle

theorem valuesSettle (defs : Definitions) (more : fuel ≤ fuel') : ValuesSettle defs fuel fuel' := by
  refine settle_of_succ ?_ (fun _ same => same.zero) (fun _ _ _ ih => ?_) more
  · refine ⟨fun trace c args => ?_, fun trace v => ?_, fun trace v => ?_⟩
    · obtain ⟨env, body, passes⟩ := c
      cases passes with
      | zero => exact ValuesSettle.call_ready _ _ trace env body args
      | succ passes =>
        rw [Closure.call]
        exact .refl List.suffix_rfl
    · rw [Value.weakHead]
      exact .refl List.suffix_rfl
    · rw [Value.normalize]
      exact .refl List.suffix_rfl
  · exact ⟨ih.call_succ, ih.weakHead_succ, ih.normalize_succ⟩

theorem Value.weakHead_steady (defs : Definitions) (trace : Trace) (v : Value) :
    Steady trace (fun fuel => v.weakHead defs fuel trace) :=
  fun more => (valuesSettle defs more).weakHead trace v

theorem Value.normalize_steady (defs : Definitions) (trace : Trace) (v : Value) :
    Steady trace (fun fuel => v.normalize defs fuel trace) :=
  fun more => (valuesSettle defs more).normalize trace v

theorem Value.quote_settles (more : fuel ≤ fuel')
    (ih : ∀ trace depth (v : Value), Settles trace (v.quote defs fuel trace depth) (v.quote defs fuel' trace depth))
    (trace : Trace) (depth : UInt64) (v : Value) :
    Settles trace (v.quote defs (fuel + 1) trace depth) (v.quote defs (fuel' + 1) trace depth) := by
  have call := (valuesSettle defs more).call
  cases v with
  | level opened =>
    rw [Value.quote, Value.quote]
    split
    · exact .ok _ _
    · exact .refl List.suffix_rfl
  | all erased self param domain codomain =>
    apply Settles.andThen (call trace domain _)
    intro domain trace
    apply Settles.andThen (ih trace _ domain)
    intro domain trace
    apply Settles.andThen (call trace codomain _)
    intro codomain trace
    exact .andThen (ih trace _ codomain) (fun _ _ => .ok _ _)
  | lam erased param body =>
    apply Settles.andThen (call trace body _)
    intro body trace
    exact .andThen (ih trace _ body) (fun _ _ => .ok _ _)
  | app erased fn arg =>
    apply Settles.andThen (ih trace depth fn)
    intro fn trace
    exact .andThen (ih trace depth arg) (fun _ _ => .ok _ _)
  | ann checked type term =>
    apply Settles.andThen (ih trace depth type)
    intro type trace
    exact .andThen (ih trace depth term) (fun _ _ => .ok _ _)
  | _ => exact .ok _ _

theorem Value.quote_steady (defs : Definitions) (trace : Trace) (depth : UInt64) (v : Value) :
    Steady trace (fun fuel => v.quote defs fuel trace depth) := by
  intro fuel fuel' more
  refine settle_of_succ (P := fun fuel fuel' => ∀ trace depth (v : Value),
    Settles trace (v.quote defs fuel trace depth) (v.quote defs fuel' trace depth)) ?_ ?_ ?_ more trace depth v
  · exact fun _ _ _ => .refl List.suffix_rfl
  · exact fun fuel same trace depth v => .outOfFuel (same trace depth v).begun
  · exact fun fuel fuel' more ih => quote_settles more ih

end SelfLambda
