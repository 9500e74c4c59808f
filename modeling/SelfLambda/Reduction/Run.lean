import SelfLambda.Module

/-! Runs of the reducers. A run may go on forever, so every reducer takes fuel; it hands on the names it has asked the
definitions for, and stops with a cause of its own when it cannot give a result. A run that stops still tells the names
asked for until then, so that the runs of growing fuel show what a run without end asks for. -/

namespace SelfLambda

/-- The names asked for so far, the latest first. -/
abbrev Trace := List Name

inductive Cause where
  | outOfFuel
  | levelOutOfScope
  deriving DecidableEq, Repr

structure Stop where
  cause : Cause
  asked : Trace
  deriving DecidableEq, Repr

def Stop.message (stop : Stop) : String :=
  match stop.cause with
  | .outOfFuel => "out of fuel"
  | .levelOutOfScope => "x.level < dep"

abbrev Run (α : Type) := Except Stop (α × Trace)

/-- The names asked for, whether or not the run has come to a result. -/
def Run.asked {α : Type} : Run α → Trace
  | .error stop => stop.asked
  | .ok (_, trace) => trace

@[simp] theorem Run.asked_error {α : Type} (stop : Stop) : Run.asked (.error stop : Run α) = stop.asked := rfl

@[simp] theorem Run.asked_ok {α : Type} (result : α) (trace : Trace) : Run.asked (.ok (result, trace)) = trace := rfl

@[inline] def Run.andThen {α β : Type} (run : Run α) (next : α → Trace → Run β) : Run β :=
  match run with
  | .error stop => .error stop
  | .ok (result, trace) => next result trace

theorem Run.andThen_eq_ok_iff {α β : Type} {run : Run α} {next : α → Trace → Run β} {out : β × Trace} :
    run.andThen next = .ok out ↔ ∃ result trace, run = .ok (result, trace) ∧ next result trace = .ok out := by
  match run with
  | .error stop => simp only [Run.andThen, reduceCtorEq, false_and, exists_false]
  | .ok (result, trace) =>
    constructor
    · intro found
      exact ⟨result, trace, rfl, found⟩
    · rintro ⟨_, _, same, found⟩
      cases same
      exact found

/-- Fuel that no run within reach uses up. -/
def ample : Nat := 4611686018427387904

/-- The stored term of a name, unless the name is undefined or defined as itself. Longer cycles are not seen. -/
def unfolding (defs : Definitions) (name : Name) : Option Term :=
  match defs name with
  | none => none
  | some d => if d.term = .ref name then none else some d.term

theorem exists_of_unfolding {defs : Definitions} {name : Name} {t : Term} (unfolds : unfolding defs name = some t) :
    ∃ d, defs name = some d ∧ d.term = t := by
  unfold unfolding at unfolds
  split at unfolds
  next => cases unfolds
  next d stored =>
    split at unfolds
    next => cases unfolds
    next => exact ⟨d, stored, Option.some.inj unfolds⟩

def consult (defs : Definitions) (trace : Trace) (name : Name) : Option Term × Trace :=
  (unfolding defs name, name :: trace)

def resolve (defs : Definitions) (trace : Trace) (name : Name) : Term × Trace :=
  match consult defs trace name with
  | (some t, trace) => (t, trace)
  | (none, trace) => (.ref name, trace)

end SelfLambda
