import SelfLambda.Proofs.Partition.History

/-! What one merge does, seen from every handle. One or two entries are written, but any number of handles reach them over
chains of any length; each finds the class that the two classes make if it was in one of them, and its own class as it was
if not. -/

namespace SelfLambda.Partition

variable {α : Type} {entries : List (Entry α)} {p : Partition α}

/-- The class that two classes make. It is the one of higher rank as it was; of equal ranks it is the second, a rank
higher. -/
def Class.united (first second : Class α) : Class α :=
  if second.rank < first.rank then first
  else if first.rank = second.rank then { second with rank := second.rank + 1 } else second

namespace Forest

theorem find_of_rep (f : Forest entries) (held : p.entries.Holds entries) {i root : Nat} {descriptor : α}
    (hi : i < entries.length) (rep : f.rep i = root) (given : f.given[root]? = some descriptor) :
    p.find i = .ok ⟨root, f.level root, descriptor⟩ := by
  obtain ⟨other, givenOther, found⟩ := f.find_eq held hi
  rw [rep] at givenOther found
  obtain rfl : other = descriptor := Option.some.inj (givenOther.symm.trans given)
  exact found

theorem Merged.find_eq {f : Forest entries} {joined : List (Entry α)} {g : Forest joined} {a b i : Nat}
    {q : Partition α} {descriptorA descriptorB descriptor : α} (merged : f.Merged a b g) (holds : q.entries.Holds joined)
    (distinct : f.rep a ≠ f.rep b) (givenA : f.given[f.rep a]? = some descriptorA)
    (givenB : f.given[f.rep b]? = some descriptorB) (hi : i < entries.length)
    (given : f.given[f.rep i]? = some descriptor) :
    q.find i = .ok (if f.rep i = f.rep a ∨ f.rep i = f.rep b
      then Class.united ⟨f.rep a, f.level (f.rep a), descriptorA⟩ ⟨f.rep b, f.level (f.rep b), descriptorB⟩
      else ⟨f.rep i, f.level (f.rep i), descriptor⟩) := by
  have repEq := merged.rep_eq i
  have levelEq := merged.level_eq
  rw [← merged.length_eq] at hi
  rw [← merged.given_eq] at givenA givenB given
  rcases Nat.lt_or_ge (f.level (f.rep b)) (f.level (f.rep a)) with higher | le
  · obtain ⟨loserEq, winnerEq⟩ := loser_winner_of_lt higher
    have unchanged : ∀ j, g.level j = f.level j := by
      intro j
      rw [levelEq, if_neg (fun tie => Nat.ne_of_gt higher tie.2.2)]
    rw [loserEq, winnerEq] at repEq
    by_cases joint : f.rep i = f.rep a ∨ f.rep i = f.rep b
    · have winner : g.rep i = f.rep a := by
        rcases joint with won | lost
        · rw [repEq, won, if_neg distinct]
        · rw [repEq, if_pos lost]
      rw [if_pos joint, g.find_of_rep holds hi winner givenA, unchanged, Class.united, if_pos higher]
    · obtain ⟨-, notLost⟩ := not_or.mp joint
      rw [if_neg notLost] at repEq
      rw [if_neg joint, g.find_of_rep holds hi repEq given, unchanged]
  · obtain ⟨loserEq, winnerEq⟩ := loser_winner_of_le le
    rw [loserEq, winnerEq] at repEq
    rw [winnerEq] at levelEq
    by_cases joint : f.rep i = f.rep a ∨ f.rep i = f.rep b
    · have winner : g.rep i = f.rep b := by
        rcases joint with lost | won
        · rw [repEq, if_pos lost]
        · rw [repEq, won, if_neg (Ne.symm distinct)]
      rw [if_pos joint, g.find_of_rep holds hi winner givenB, levelEq, Class.united, if_neg (Nat.not_lt_of_le le)]
      -- the second representative won, and only a tie raises its rank
      by_cases tie : f.level (f.rep a) = f.level (f.rep b)
      · rw [if_pos ⟨rfl, distinct, tie⟩, if_pos tie]
      · rw [if_neg (fun raised => tie raised.2.2), if_neg tie]
    · obtain ⟨notLost, notWon⟩ := not_or.mp joint
      rw [if_neg notLost] at repEq
      rw [if_neg joint, g.find_of_rep holds hi repEq given, levelEq, if_neg (fun raised => notWon raised.1)]

end Forest

/-- Merging two handles of one class changes no class. Merging two classes gives all their handles the class that the two
make, and leaves every other handle its representative, rank and descriptor. -/
theorem merge_seen_from_every_handle {calls : List (Call α)} {p : Partition α} (reached : Reached calls p) {a b : Nat}
    (ha : a < p.size) (hb : b < p.size) :
    ∃ c d q, p.find a = .ok c ∧ p.find b = .ok d ∧ p.merge a b = .ok q ∧ q.size = p.size ∧
      (c.handle = d.handle → ∀ i, q.find i = p.find i) ∧
      (c.handle ≠ d.handle → ∀ i, i < p.size → ∃ e, p.find i = .ok e ∧
        q.find i = .ok (if e.handle = c.handle ∨ e.handle = d.handle then c.united d else e)) ∧
      ∀ i, p.size ≤ i → q.find i = p.find i := by
  obtain ⟨entries, held, f, -⟩ := reached.accounts
  have sizeEq : p.size = entries.length := held.size_eq
  rw [sizeEq] at ha hb ⊢
  obtain ⟨descriptorA, givenA, findA⟩ := f.find_eq held ha
  obtain ⟨descriptorB, givenB, findB⟩ := f.find_eq held hb
  obtain ⟨q, joined, mergeEq, holds, g, merged⟩ := f.merge_ok held ha hb
  refine ⟨_, _, q, findA, findB, mergeEq, holds.size_eq.trans merged.length_eq, ?_, ?_, ?_⟩
  · intro same i
    have kept : p.merge a b = .ok p := by
      simp only [merge, findA, findB, bind, Except.bind]
      exact if_pos same
    rw [kept] at mergeEq
    cases mergeEq
    rfl
  · intro distinct i hi
    obtain ⟨descriptor, given, findI⟩ := f.find_eq held hi
    exact ⟨_, findI, merged.find_eq holds distinct givenA givenB hi given⟩
  · intro i hi
    rw [Forest.find_outOfRange held hi, Forest.find_outOfRange holds (by rw [merged.length_eq]; exact hi)]

/-- Two handles of equal rank: the second stands for both, a rank higher, and the handles of another class keep theirs, one
of them over a link. -/
theorem merge_seen_from_every_handle_tie :
    ∃ p q : Partition Nat, Reached [.merge 0 1, .fresh 8 3, .fresh 7 2, .fresh 6 1, .fresh 5 0] p ∧
      p.merge 2 3 = .ok q ∧ p.find 2 = .ok ⟨2, 0, 7⟩ ∧ p.find 3 = .ok ⟨3, 0, 8⟩ ∧ q.find 2 = .ok ⟨3, 1, 8⟩ ∧
      q.find 3 = .ok ⟨3, 1, 8⟩ ∧ q.find 0 = .ok ⟨1, 1, 6⟩ := by
  have reached : Reached [.merge 0 1, .fresh 8 3, .fresh 7 2, .fresh 6 1, .fresh 5 0] _ :=
    .merge (.fresh (.fresh (.fresh (.fresh .empty 5) 6) 7) 8) rfl
  obtain ⟨c, d, q, findA, findB, mergeEq, -, -, effect, -⟩ :=
    merge_seen_from_every_handle reached (show 2 < _ by decide) (show 3 < _ by decide)
  cases findA
  cases findB
  have apart := effect (by decide)
  obtain ⟨_, find2, after2⟩ := apart 2 (by decide)
  obtain ⟨_, find3, after3⟩ := apart 3 (by decide)
  obtain ⟨_, find0, after0⟩ := apart 0 (by decide)
  cases find2
  cases find3
  cases find0
  exact ⟨_, q, reached, mergeEq, rfl, rfl, after2, after3, after0⟩

end SelfLambda.Partition
