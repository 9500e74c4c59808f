import Mathlib.Order.Filter.AtTopBot.Basic
import SelfLambda.Proofs.Reduction.NormalForm

/-! Outcomes without fuel. A family of runs ends with an outcome if all its runs with enough fuel have that outcome; so
parts that need different amounts of fuel are put together without counting. -/

namespace SelfLambda

open Filter

namespace Run

variable {α β : Type}

def Ends (run : Nat → Run α) (result : α) (trace : Trace) : Prop := ∀ᶠ fuel in atTop, run fuel = .ok (result, trace)

theorem eventually_succ {P : Nat → Prop} : (∀ᶠ fuel in atTop, P (fuel + 1)) ↔ ∀ᶠ fuel in atTop, P fuel := by
  have same : (∀ᶠ fuel in map (· + 1) atTop, P fuel) ↔ ∀ᶠ fuel in atTop, P fuel := by rw [map_add_atTop_eq_nat 1]
  rwa [eventually_map] at same

theorem ends_of_succ {run : Nat → Run α} {result : α} {trace : Trace}
    (ends : Ends (fun fuel => run (fuel + 1)) result trace) : Ends run result trace :=
  eventually_succ.mp ends

theorem Ends.andThen {run : Nat → Run α} {next : Nat → α → Trace → Run β} {result : α} {trace : Trace} {out : β}
    {asked : Trace} (first : Ends run result trace) (second : Ends (fun fuel => next fuel result trace) out asked) :
    Ends (fun fuel => (run fuel).andThen (next fuel)) out asked := by
  filter_upwards [first, second] with fuel done rest
  rw [done]
  exact rest

theorem Ends.ensures {run : Nat → Run α} {P : Nat → α → Trace → Prop} {result : α} {trace : Trace}
    (ends : Ends run result trace) (ensures : ∀ᶠ fuel in atTop, (run fuel).Ensures (P fuel)) :
    ∀ᶠ fuel in atTop, P fuel result trace := by
  filter_upwards [ends, ensures] with fuel done holds
  exact holds.apply done

theorem Ends.const (result : α) (trace : Trace) : Ends (fun _ => .ok (result, trace)) result trace :=
  Eventually.of_forall (fun _ => rfl)

theorem Ends.exists {run : Nat → Run α} {result : α} {trace : Trace} (ends : Ends run result trace) :
    ∃ fuel, run fuel = .ok (result, trace) :=
  Filter.Eventually.exists ends

theorem Ends.unique {run : Nat → Run α} {result result' : α} {trace trace' : Trace} (ends : Ends run result trace)
    (ends' : Ends run result' trace') : result = result' ∧ trace = trace' := by
  obtain ⟨fuel, done, done'⟩ := (Filter.Eventually.and ends ends').exists
  rw [done] at done'
  exact Prod.mk.inj (Except.ok.inj done')

/-- A run that more fuel does not change ends as soon as one of its amounts of fuel suffices. -/
theorem ends_of_ok {start : Trace} {run : Nat → Run α} (steady : Steady start run) {fuel : Nat} {result : α} {trace : Trace}
    (done : run fuel = .ok (result, trace)) : Ends run result trace := by
  filter_upwards [eventually_ge_atTop fuel] with more enough
  exact (steady enough).result done

end Run

end SelfLambda
