import SelfLambda.Proofs.Partition.Merge
import Mathlib.Logic.Relation

/-! Partitions as calls make them, one after another, from the empty one. A version depends on the calls on its own path
alone, so a history is a list of calls; versions that branch off an earlier one share the end of theirs. -/

namespace SelfLambda.Partition

variable {α : Type} {entries : List (Entry α)} {p : Partition α}

inductive Call (α : Type) where
  | fresh (descriptor : α) (handle : Nat)
  | merge (first second : Nat)
  deriving DecidableEq, Repr

/-- The calls make this version, the last of them first. -/
inductive Reached : List (Call α) → Partition α → Prop where
  | empty : Reached [] {}
  | fresh {calls : List (Call α)} {p : Partition α} (before : Reached calls p) (descriptor : α) :
    Reached (.fresh descriptor (p.fresh descriptor).2 :: calls) (p.fresh descriptor).1
  | merge {calls : List (Call α)} {p q : Partition α} (before : Reached calls p) {first second : Nat}
    (merged : p.merge first second = .ok q) : Reached (.merge first second :: calls) q

/-- The forest is the one that the calls make: handles share a representative as far as the merged pairs connect them,
and each descriptor is the one that its handle was given out for. -/
structure Accounts (calls : List (Call α)) (f : Forest entries) : Prop where
  connected : ∀ a b, f.rep a = f.rep b ↔ Relation.EqvGen (fun x y => .merge x y ∈ calls) a b
  given : ∀ handle descriptor, .fresh descriptor handle ∈ calls ↔ f.given[handle]? = some descriptor
  inside : ∀ a b, .merge a b ∈ calls → a < entries.length ∧ b < entries.length

theorem accounts_empty : Accounts [] (Forest.empty : Forest ([] : List (Entry α))) := by
  refine ⟨fun a b => ?_, by simp [Forest.empty], by simp⟩
  constructor
  · rintro (rfl : a = b)
    exact .refl a
  · intro connected
    have trivial := Relation.EqvGen.mono (p := Eq) (fun x y impossible => absurd impossible (by simp)) a b connected
    exact (Equivalence.eqvGen_iff eq_equivalence).mp trivial

theorem Accounts.fresh {calls : List (Call α)} {f : Forest entries} (accounts : Accounts calls f) (descriptor : α) :
    Accounts (.fresh descriptor entries.length :: calls) (f.fresh descriptor) := by
  refine ⟨fun a b => ?_, fun handle other => ?_, fun a b merged => ?_⟩
  · simpa [Forest.fresh] using accounts.connected a b
  · simp only [List.mem_cons, Call.fresh.injEq, accounts.given handle other, Forest.fresh]
    constructor
    · rintro (⟨rfl, rfl⟩ | old)
      · rw [← f.given_length, List.getElem?_concat_length]
      · rw [List.getElem?_append_left (List.getElem?_eq_some_iff.mp old).1]
        exact old
    · intro found
      rcases Forest.getElem?_concat_cases found with old | ⟨rfl, rfl⟩
      · exact Or.inr old
      · exact Or.inl ⟨rfl, f.given_length⟩
  · have earlier := accounts.inside a b (by simpa using merged)
    rw [List.length_append]
    exact ⟨Nat.lt_add_right _ earlier.1, Nat.lt_add_right _ earlier.2⟩

/-- Renaming one of two labels to the other connects the labelled parts, and nothing else. -/
theorem relabel_connected {calls : List (Call α)} {rep : Nat → Nat} {a b lost won : Nat}
    (connected : ∀ x y, rep x = rep y ↔ Relation.EqvGen (fun x y => .merge x y ∈ calls) x y)
    (labels : lost = rep a ∧ won = rep b ∨ lost = rep b ∧ won = rep a) (x y : Nat) :
    (if rep x = lost then won else rep x) = (if rep y = lost then won else rep y) ↔
      Relation.EqvGen (fun x y => .merge x y ∈ Call.merge a b :: calls) x y := by
  have earlier {x y : Nat} (same : rep x = rep y) :
      Relation.EqvGen (fun x y => .merge x y ∈ Call.merge a b :: calls) x y :=
    Relation.EqvGen.mono (fun _ _ old => List.mem_cons_of_mem _ old) x y ((connected x y).mp same)
  have across {x y : Nat} (left : rep x = lost) (right : rep y = won) :
      Relation.EqvGen (fun x y => .merge x y ∈ Call.merge a b :: calls) x y := by
    have joint : Relation.EqvGen (fun x y => .merge x y ∈ Call.merge a b :: calls) a b :=
      .rel a b List.mem_cons_self
    rcases labels with ⟨rfl, rfl⟩ | ⟨rfl, rfl⟩
    · exact .trans x a y (earlier left) (.trans a b y joint (earlier right.symm))
    · exact .trans x b y (earlier left) (.trans b a y (.symm a b joint) (earlier right.symm))
  constructor
  · intro same
    by_cases left : rep x = lost
    · rw [if_pos left] at same
      by_cases right : rep y = lost
      · exact earlier (left.trans right.symm)
      · rw [if_neg right] at same
        exact across left same.symm
    · rw [if_neg left] at same
      by_cases right : rep y = lost
      · rw [if_pos right] at same
        exact .symm y x (across right same)
      · rw [if_neg right] at same
        exact earlier same
  · intro path
    induction path with
    | rel x y pair =>
      rcases List.mem_cons.mp pair with new | old
      · cases new
        rcases labels with ⟨rfl, rfl⟩ | ⟨rfl, rfl⟩
        · rw [if_pos rfl]
          by_cases same : rep b = rep a
          · rw [if_pos same]
          · rw [if_neg same]
        · rw [if_pos rfl]
          by_cases same : rep a = rep b
          · rw [if_pos same]
          · rw [if_neg same]
      · rw [(connected x y).mpr (.rel x y old)]
    | refl x => rfl
    | symm x y _ ih => exact ih.symm
    | trans x y z _ _ first second => exact first.trans second

theorem Accounts.merge {calls : List (Call α)} {f : Forest entries} (accounts : Accounts calls f) {a b : Nat}
    (ha : a < entries.length) (hb : b < entries.length) {joined : List (Entry α)} {g : Forest joined}
    (merged : f.Merged a b g) : Accounts (.merge a b :: calls) g := by
  refine ⟨fun x y => ?_, fun handle descriptor => ?_, fun x y pair => ?_⟩
  · rw [merged.rep_eq, merged.rep_eq]
    refine relabel_connected accounts.connected ?_ x y
    rcases Nat.lt_or_ge (f.level (f.rep b)) (f.level (f.rep a)) with lower | le
    · exact Or.inr (Forest.loser_winner_of_lt lower)
    · exact Or.inl (Forest.loser_winner_of_le le)
  · rw [merged.given_eq, ← accounts.given]
    simp
  · rw [merged.length_eq]
    rcases List.mem_cons.mp pair with new | old
    · cases new
      exact ⟨ha, hb⟩
    · exact accounts.inside x y old

theorem lt_of_merge_ok (f : Forest entries) (held : p.entries.Holds entries) {a b : Nat} {q : Partition α}
    (merged : p.merge a b = .ok q) : a < entries.length ∧ b < entries.length := by
  rcases Nat.lt_or_ge a entries.length with ha | ha
  · rcases Nat.lt_or_ge b entries.length with hb | hb
    · exact ⟨ha, hb⟩
    · obtain ⟨descriptor, -, found⟩ := f.find_eq held ha
      rw [Partition.merge, found, Forest.find_outOfRange held hb] at merged
      cases merged
  · rw [Partition.merge, Forest.find_outOfRange held ha] at merged
    cases merged

theorem Reached.accounts {calls : List (Call α)} {p : Partition α} (reached : Reached calls p) :
    ∃ entries, p.entries.Holds entries ∧ ∃ f : Forest entries, Accounts calls f := by
  induction reached with
  | empty => exact ⟨[], RadixArray.holds_nil, Forest.empty, accounts_empty⟩
  | @fresh calls p before descriptor ih =>
    obtain ⟨entries, held, f, accounts⟩ := ih
    have handle : (p.fresh descriptor).2 = entries.length := held.size_eq
    have holds : (p.entries.push (.root 0 descriptor)).Holds (entries ++ [.root 0 descriptor]) :=
      held.push (by decide) _
    refine ⟨_, holds, f.fresh descriptor, ?_⟩
    rw [handle]
    exact accounts.fresh descriptor
  | @merge calls p q before a b merged ih =>
    obtain ⟨entries, held, f, accounts⟩ := ih
    obtain ⟨ha, hb⟩ := lt_of_merge_ok f held merged
    obtain ⟨other, joined, mergedOther, holds, g, forest⟩ := f.merge_ok held ha hb
    cases merged.symm.trans mergedOther
    exact ⟨joined, holds, g, accounts.merge ha hb forest⟩

/-- The smallest equivalence on the first `size` handles that holds every pair merged by the calls. -/
def Connected (calls : List (Call α)) (size : Nat) : Fin size → Fin size → Prop :=
  Relation.EqvGen fun x y => .merge x.val y.val ∈ calls

theorem connected_of_eqvGen {calls : List (Call α)} {size : Nat}
    (inside : ∀ a b, .merge a b ∈ calls → a < size ∧ b < size) {a b : Nat}
    (path : Relation.EqvGen (fun x y => .merge x y ∈ calls) a b) :
    a = b ∨ ∃ (ha : a < size) (hb : b < size), Connected calls size ⟨a, ha⟩ ⟨b, hb⟩ := by
  induction path with
  | rel a b pair =>
    obtain ⟨ha, hb⟩ := inside a b pair
    exact Or.inr ⟨ha, hb, .rel _ _ pair⟩
  | refl a => exact Or.inl rfl
  | symm a b _ ih =>
    rcases ih with rfl | ⟨ha, hb, connected⟩
    · exact Or.inl rfl
    · exact Or.inr ⟨hb, ha, .symm _ _ connected⟩
  | trans a b c _ _ first second =>
    rcases first with rfl | ⟨ha, hb, left⟩
    · exact second
    · rcases second with rfl | ⟨_, hc, right⟩
      · exact Or.inr ⟨ha, hb, left⟩
      · exact Or.inr ⟨ha, hc, .trans _ _ _ left right⟩

theorem Accounts.connected_iff {calls : List (Call α)} {f : Forest entries} (accounts : Accounts calls f)
    (a b : Fin entries.length) : Connected calls entries.length a b ↔ f.rep a = f.rep b := by
  constructor
  · intro path
    induction path with
    | rel a b pair => exact (accounts.connected a b).mpr (.rel _ _ pair)
    | refl a => rfl
    | symm a b _ ih => exact ih.symm
    | trans a b c _ _ first second => exact first.trans second
  · intro same
    rcases connected_of_eqvGen accounts.inside ((accounts.connected a b).mp same) with equal | ⟨_, _, connected⟩
    · rw [Fin.ext equal]
      exact .refl b
    · exact connected

/-- Two handles of a version are equivalent exactly when the merges on its path connect them. The representative of a
handle is a handle of the same class, with the descriptor that it was given out for. -/
theorem equivalent_iff_connected {calls : List (Call α)} {p : Partition α} (reached : Reached calls p)
    (a b : Fin p.size) :
    (∃ answer, p.equivalent a b = .ok answer ∧ (answer = true ↔ Connected calls p.size a b)) ∧
      ∃ c, p.find a = .ok c ∧ (∃ handle : Fin p.size, handle.val = c.handle ∧ Connected calls p.size a handle) ∧
        ∀ descriptor, .fresh descriptor c.handle ∈ calls ↔ descriptor = c.descriptor := by
  obtain ⟨entries, held, f, accounts⟩ := reached.accounts
  obtain ⟨a, ha⟩ := a
  obtain ⟨b, hb⟩ := b
  have sizeEq : p.size = entries.length := held.size_eq
  generalize p.size = size at ha hb sizeEq
  subst sizeEq
  obtain ⟨descriptorA, given, findA⟩ := f.find_eq held ha
  obtain ⟨descriptorB, -, findB⟩ := f.find_eq held hb
  constructor
  · refine ⟨f.rep a == f.rep b, ?_, ?_⟩
    · simp only [equivalent, findA, findB]
      rfl
    · rw [beq_iff_eq]
      exact (accounts.connected_iff ⟨a, ha⟩ ⟨b, hb⟩).symm
  · refine ⟨_, findA, ⟨⟨f.rep a, f.rep_lt ha⟩, rfl, ?_⟩, fun descriptor => ?_⟩
    · exact (accounts.connected_iff ⟨a, ha⟩ ⟨f.rep a, f.rep_lt ha⟩).mpr (f.rep_rep a).symm
    · rw [accounts.given, given]
      exact ⟨fun same => (Option.some.inj same).symm, fun same => congrArg some same.symm⟩

theorem equivalent_iff_connected_pair :
    ∃ (p : Partition Nat) (ha : 0 < p.size) (hb : 1 < p.size), Reached [.merge 0 1, .fresh 7 1, .fresh 5 0] p ∧
      p.equivalent 0 1 = .ok true ∧ Connected [.merge 0 1, .fresh 7 1, .fresh 5 0] p.size ⟨0, ha⟩ ⟨1, hb⟩ := by
  have reached : Reached [.merge 0 1, .fresh 7 1, .fresh 5 0] _ := .merge (.fresh (.fresh .empty 5) 7) rfl
  obtain ⟨⟨answer, equivalent, connected⟩, -⟩ := equivalent_iff_connected reached ⟨0, by decide⟩ ⟨1, by decide⟩
  cases equivalent
  exact ⟨_, by decide, by decide, reached, rfl, connected.mp rfl⟩

end SelfLambda.Partition
