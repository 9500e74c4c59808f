import SelfLambda.Partition
import SelfLambda.Proofs.RadixArray
import Mathlib.Data.Finset.Card
import Mathlib.Data.Finset.Range
import Mathlib.Order.Interval.Finset.Nat

/-! The links of a partition form a forest. What the entries do not store is kept beside them: the representative of
each handle, its level (the rank it has, or had when it went under another), and the descriptor it was made with. Levels
grow strictly on the way up, and a representative of level `n` has at least `2 ^ n` handles in its class, so a way up
is shorter than the number of handles. -/

namespace SelfLambda.Partition

variable {α : Type} {entries : List (Entry α)} {p : Partition α}

def members (rep : Nat → Nat) (size root : Nat) : Finset Nat := (Finset.range size).filter (rep · = root)

structure Forest (entries : List (Entry α)) where
  rep : Nat → Nat
  level : Nat → Nat
  given : List α
  given_length : given.length = entries.length
  outside : ∀ i, entries.length ≤ i → rep i = i ∧ level i = 0
  root : ∀ i rank descriptor, entries[i]? = some (.root rank descriptor) →
    rep i = i ∧ level i = rank ∧ given[i]? = some descriptor
  link : ∀ i parent, entries[i]? = some (.link parent) →
    parent < entries.length ∧ rep i = rep parent ∧ level i < level parent
  rooted : ∀ i, i < entries.length → ∃ descriptor, entries[rep i]? = some (.root (level (rep i)) descriptor)
  below : ∀ i, i < entries.length → level i ≤ level (rep i)
  weight : ∀ i, i < entries.length → 2 ^ level (rep i) ≤ (members rep entries.length (rep i)).card

namespace Forest

theorem rep_lt (f : Forest entries) {i : Nat} (hi : i < entries.length) : f.rep i < entries.length := by
  obtain ⟨descriptor, entry⟩ := f.rooted i hi
  exact (List.getElem?_eq_some_iff.mp entry).1

theorem rep_rep (f : Forest entries) (i : Nat) : f.rep (f.rep i) = f.rep i := by
  by_cases hi : i < entries.length
  · obtain ⟨descriptor, entry⟩ := f.rooted i hi
    exact (f.root _ _ _ entry).1
  · have self := (f.outside i (Nat.le_of_not_lt hi)).1
    rw [self, self]

theorem rep_entry (f : Forest entries) {i : Nat} (hi : i < entries.length) :
    ∃ descriptor, f.given[f.rep i]? = some descriptor ∧
      entries[f.rep i]? = some (.root (f.level (f.rep i)) descriptor) := by
  obtain ⟨descriptor, entry⟩ := f.rooted i hi
  exact ⟨descriptor, (f.root _ _ _ entry).2.2, entry⟩

theorem level_lt_length (f : Forest entries) {i : Nat} (hi : i < entries.length) :
    f.level (f.rep i) < entries.length := by
  have fewer : (members f.rep entries.length (f.rep i)).card ≤ entries.length := by
    simpa [members] using Finset.card_filter_le (Finset.range entries.length) (f.rep · = f.rep i)
  calc f.level (f.rep i) < 2 ^ f.level (f.rep i) := Nat.lt_two_pow_self
    _ ≤ (members f.rep entries.length (f.rep i)).card := f.weight i hi
    _ ≤ entries.length := fewer

def empty : Forest ([] : List (Entry α)) where
  rep := id
  level := fun _ => 0
  given := []
  given_length := rfl
  outside := fun _ _ => ⟨rfl, rfl⟩
  root := by simp
  link := by simp
  rooted := by simp
  below := by simp
  weight := by simp

theorem getElem?_concat_cases {β : Type} {elements : List β} {last element : β} {i : Nat}
    (found : (elements ++ [last])[i]? = some element) :
    elements[i]? = some element ∨ i = elements.length ∧ element = last := by
  rcases Nat.lt_or_ge i elements.length with inside | outside
  · rw [List.getElem?_append_left inside] at found
    exact Or.inl found
  · rw [List.getElem?_append_right outside, List.getElem?_singleton] at found
    by_cases first : i - elements.length = 0
    · rw [if_pos first] at found
      exact Or.inr ⟨by omega, (Option.some.inj found).symm⟩
    · rw [if_neg first] at found
      cases found

def fresh (f : Forest entries) (descriptor : α) : Forest (entries ++ [.root 0 descriptor]) where
  rep := f.rep
  level := f.level
  given := f.given ++ [descriptor]
  given_length := by simp [f.given_length]
  outside := by
    intro i hi
    rw [List.length_append] at hi
    exact f.outside i (Nat.le_trans (Nat.le_add_right _ _) hi)
  root := by
    intro i rank other entry
    rcases getElem?_concat_cases entry with old | ⟨rfl, new⟩
    · have bound := (List.getElem?_eq_some_iff.mp old).1
      rw [List.getElem?_append_left (by rw [f.given_length]; exact bound)]
      exact f.root i rank other old
    · cases new
      refine ⟨(f.outside _ (Nat.le_refl _)).1, (f.outside _ (Nat.le_refl _)).2, ?_⟩
      rw [← f.given_length, List.getElem?_concat_length]
  link := by
    intro i parent entry
    rcases getElem?_concat_cases entry with old | ⟨rfl, new⟩
    · obtain ⟨bound, same, lower⟩ := f.link i parent old
      exact ⟨by rw [List.length_append]; omega, same, lower⟩
    · cases new
  rooted := by
    intro i hi
    rw [List.length_append, List.length_singleton] at hi
    rcases Nat.lt_succ_iff_lt_or_eq.mp hi with inside | rfl
    · rw [List.getElem?_append_left (f.rep_lt inside)]
      exact f.rooted i inside
    · obtain ⟨self, zero⟩ := f.outside _ (Nat.le_refl _)
      rw [self, zero, List.getElem?_concat_length]
      exact ⟨descriptor, rfl⟩
  below := by
    intro i hi
    rcases Nat.lt_or_ge i entries.length with inside | outside
    · exact f.below i inside
    · rw [(f.outside i outside).1]
  weight := by
    intro i hi
    rcases Nat.lt_or_ge i entries.length with inside | outside
    · refine Nat.le_trans (f.weight i inside) (Finset.card_le_card (Finset.filter_subset_filter _ ?_))
      rw [List.length_append]
      exact Finset.range_mono (Nat.le_add_right _ _)
    · obtain ⟨self, zero⟩ := f.outside i outside
      rw [self, zero, pow_zero, Nat.one_le_iff_ne_zero, Finset.card_ne_zero]
      exact ⟨i, by simpa [members, self] using hi⟩

theorem entry_eq (held : p.entries.Holds entries) (i : Nat) :
    p.entry i = match entries[i]? with
      | some entry => .ok entry
      | none => .error (.access .outOfRange) := by
  rw [entry, held.get_eq]
  cases entries[i]? <;> rfl

/-- A way up takes no more links than there are levels above its start. -/
theorem climb_eq (f : Forest entries) (held : p.entries.Holds entries) {steps i : Nat} (hi : i < entries.length)
    (enough : f.level (f.rep i) < f.level i + steps) :
    ∃ descriptor, f.given[f.rep i]? = some descriptor ∧
      p.climb steps i = .ok ⟨f.rep i, f.level (f.rep i), descriptor⟩ := by
  induction steps generalizing i with
  | zero => exact absurd (f.below i hi) (Nat.not_le_of_lt enough)
  | succ steps ih =>
    have here := entry_eq held i
    rw [List.getElem?_eq_getElem hi] at here
    cases entry : entries[i] with
    | root rank descriptor =>
      obtain ⟨self, rankEq, given⟩ := f.root i rank descriptor (by rw [List.getElem?_eq_getElem hi, entry])
      refine ⟨descriptor, by rw [self]; exact given, ?_⟩
      rw [climb, here, entry, self, rankEq]
    | link parent =>
      obtain ⟨bound, same, lower⟩ := f.link i parent (by rw [List.getElem?_eq_getElem hi, entry])
      have above := ih bound (by rw [← same]; omega)
      rw [climb, here, entry, same]
      exact above

theorem find_eq (f : Forest entries) (held : p.entries.Holds entries) {i : Nat} (hi : i < entries.length) :
    ∃ descriptor, f.given[f.rep i]? = some descriptor ∧
      p.find i = .ok ⟨f.rep i, f.level (f.rep i), descriptor⟩ := by
  have short := f.level_lt_length hi
  rw [find, size, held.size_eq]
  exact f.climb_eq held hi (by omega)

theorem find_outOfRange (held : p.entries.Holds entries) {i : Nat} (hi : entries.length ≤ i) :
    p.find i = .error (.access .outOfRange) := by
  rw [find, climb, entry_eq held, List.getElem?_eq_none hi]

end Forest

end SelfLambda.Partition
