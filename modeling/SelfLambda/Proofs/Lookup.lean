import Mathlib.Data.List.Forall2

/-! Lookups on two sides that both find nothing or find things that are related, and lookups in an array in which one element
was replaced. Stores of nodes, entries and regions are compared position by position in this way. -/

namespace SelfLambda

variable {β γ : Type} {R R' : β → γ → Prop}

section

variable {x : Option β} {y : Option γ}

theorem rel_imp (related : Option.Rel R x y) (weaker : ∀ b c, R b c → R' b c) : Option.Rel R' x y := by
  cases related with
  | some holds => exact .some (weaker _ _ holds)
  | none => exact .none

theorem rel_none_iff (related : Option.Rel R x y) : x = none ↔ y = none := by
  cases related with
  | some _ => exact ⟨nofun, nofun⟩
  | none => exact ⟨fun _ => rfl, fun _ => rfl⟩

theorem eq_some_of_rel {c : γ} (related : Option.Rel R x (some c)) : ∃ b, x = some b ∧ R b c := by
  cases related with
  | some holds => exact ⟨_, rfl, holds⟩

end

theorem getElem?_cases {xs : List β} {ys : List γ} (related : List.Forall₂ R xs ys) (i : Nat) :
    (xs[i]? = none ∧ ys[i]? = none) ∨ ∃ x y, xs[i]? = some x ∧ ys[i]? = some y ∧ R x y := by
  induction related generalizing i with
  | nil => exact .inl ⟨rfl, rfl⟩
  | cons first _ ih =>
    cases i with
    | zero => exact .inr ⟨_, _, rfl, rfl, first⟩
    | succ i => exact ih i

theorem rel_of_getElem? {xs : List β} {ys : List γ} {i : Nat} {x : β} {y : γ} (related : List.Forall₂ R xs ys)
    (found : xs[i]? = some x) (found' : ys[i]? = some y) : R x y := by
  obtain ⟨missing, -⟩ | ⟨x', y', there, there', holds⟩ := getElem?_cases related i
  · rw [missing] at found
    cases found
  · cases there.symm.trans found
    cases there'.symm.trans found'
    exact holds

theorem getElem?_replaced {xs : Array β} {p : Nat} {old : β} (found : xs[p]? = some old) (new : β) (i : Nat) :
    (xs.setIfInBounds p new)[i]? = if i = p then some new else xs[i]? := by
  obtain ⟨below, -⟩ := Array.getElem?_eq_some_iff.mp found
  rw [Array.getElem?_setIfInBounds, if_pos below]
  simp only [eq_comm]

end SelfLambda
