import SelfLambda.Proofs.Partition.Forest

/-! Merging two classes. One representative hangs under the other, whose rank grows only when the two were equal; the
forest that results is known exactly, and so is every handle's representative in it. -/

namespace SelfLambda.Partition.Forest

variable {α : Type} {entries : List (Entry α)} {p : Partition α}

/-- The entries once the representative `loser` hangs under `winner`, whose rank is written anew. -/
def hung (entries : List (Entry α)) (loser winner rank : Nat) (descriptor : α) : List (Entry α) :=
  (entries.set loser (.link winner)).set winner (.root rank descriptor)

theorem length_hung (entries : List (Entry α)) (loser winner rank : Nat) (descriptor : α) :
    (hung entries loser winner rank descriptor).length = entries.length := by
  rw [hung, List.length_set, List.length_set]

theorem getElem?_hung {loser winner rank : Nat} {descriptor : α} (hl : loser < entries.length)
    (hw : winner < entries.length) (i : Nat) :
    (hung entries loser winner rank descriptor)[i]? =
      if winner = i then some (.root rank descriptor)
      else if loser = i then some (.link winner) else entries[i]? := by
  rw [hung, List.getElem?_set, List.getElem?_set, List.length_set, if_pos hl, if_pos hw]

theorem card_joined (n : Nat) (rep : Nat → Nat) {loser winner : Nat} (distinct : loser ≠ winner) :
    (members (fun i => if rep i = loser then winner else rep i) n winner).card =
      (members rep n loser).card + (members rep n winner).card := by
  unfold members
  rw [← Finset.card_union_of_disjoint, ← Finset.filter_or]
  · congr 1
    apply Finset.filter_congr
    intro i _
    by_cases lost : rep i = loser
    · simp [lost]
    · simp [lost]
  · refine Finset.disjoint_filter.mpr fun i _ lost won => distinct (lost.symm.trans won)

theorem card_apart (n : Nat) (rep : Nat → Nat) {loser winner other : Nat} (notLoser : other ≠ loser)
    (notWinner : other ≠ winner) :
    (members (fun i => if rep i = loser then winner else rep i) n other).card = (members rep n other).card := by
  congr 1
  apply Finset.filter_congr
  intro i _
  by_cases lost : rep i = loser
  · simp [lost, Ne.symm notLoser, Ne.symm notWinner]
  · simp [lost]

section Hang

variable {loser winner rank : Nat} {descriptor : α}

/-- A representative goes under another one of a level that ends up higher and is paid for by both classes. -/
def hang (f : Forest entries) (hl : loser < entries.length) (rootLoser : f.rep loser = loser)
    (entryWinner : entries[winner]? = some (.root (f.level winner) descriptor)) (distinct : loser ≠ winner)
    (higher : f.level loser < rank) (grows : f.level winner ≤ rank)
    (paid : 2 ^ rank ≤ (members f.rep entries.length loser).card + (members f.rep entries.length winner).card) :
    Forest (hung entries loser winner rank descriptor) where
  rep := fun i => if f.rep i = loser then winner else f.rep i
  level := fun i => if i = winner then rank else f.level i
  given := f.given
  given_length := by rw [length_hung, f.given_length]
  outside := by
    intro i hi
    rw [length_hung] at hi
    have hw := (List.getElem?_eq_some_iff.mp entryWinner).1
    obtain ⟨self, zero⟩ := f.outside i hi
    rw [self, if_neg (by omega), if_neg (by omega)]
    exact ⟨rfl, zero⟩
  root := by
    intro i other kept entry
    have hw := (List.getElem?_eq_some_iff.mp entryWinner).1
    obtain ⟨rootWinner, -, givenWinner⟩ := f.root _ _ _ entryWinner
    rw [getElem?_hung hl hw] at entry
    by_cases won : winner = i
    · rw [if_pos won] at entry
      cases entry
      subst won
      rw [rootWinner, if_neg (Ne.symm distinct), if_pos rfl]
      exact ⟨rfl, rfl, givenWinner⟩
    · rw [if_neg won] at entry
      by_cases lost : loser = i
      · rw [if_pos lost] at entry
        cases entry
      · rw [if_neg lost] at entry
        obtain ⟨self, rankEq, givenEq⟩ := f.root i other kept entry
        rw [self, if_neg (Ne.symm lost), if_neg (Ne.symm won)]
        exact ⟨rfl, rankEq, givenEq⟩
  link := by
    intro i parent entry
    have hw := (List.getElem?_eq_some_iff.mp entryWinner).1
    have rootWinner := (f.root _ _ _ entryWinner).1
    rw [length_hung]
    rw [getElem?_hung hl hw] at entry
    by_cases won : winner = i
    · rw [if_pos won] at entry
      cases entry
    · rw [if_neg won] at entry
      by_cases lost : loser = i
      · rw [if_pos lost] at entry
        cases entry
        subst lost
        rw [rootLoser, rootWinner, if_pos rfl, if_neg (Ne.symm distinct), if_neg distinct, if_pos rfl]
        exact ⟨hw, rfl, higher⟩
      · rw [if_neg lost] at entry
        obtain ⟨bound, same, lower⟩ := f.link i parent entry
        refine ⟨bound, by rw [same], ?_⟩
        rw [if_neg (Ne.symm won)]
        by_cases top : parent = winner
        · rw [if_pos top]
          rw [top] at lower
          omega
        · rw [if_neg top]
          exact lower
  rooted := by
    intro i hi
    rw [length_hung] at hi
    have hw := (List.getElem?_eq_some_iff.mp entryWinner).1
    rw [getElem?_hung hl hw]
    by_cases lost : f.rep i = loser
    · rw [if_pos lost, if_pos rfl, if_pos rfl]
      exact ⟨descriptor, rfl⟩
    · rw [if_neg lost]
      by_cases won : f.rep i = winner
      · rw [if_pos won.symm, if_pos won]
        exact ⟨descriptor, rfl⟩
      · rw [if_neg (Ne.symm won), if_neg (Ne.symm lost), if_neg won]
        exact f.rooted i hi
  below := by
    intro i hi
    rw [length_hung] at hi
    have rootWinner := (f.root _ _ _ entryWinner).1
    have under := f.below i hi
    by_cases lost : f.rep i = loser
    · have other : i ≠ winner := by
        rintro rfl
        exact distinct (lost.symm.trans rootWinner)
      rw [if_pos lost, if_pos rfl, if_neg other]
      rw [lost] at under
      omega
    · rw [if_neg lost]
      by_cases won : i = winner
      · rw [won, rootWinner]
      · rw [if_neg won]
        by_cases top : f.rep i = winner
        · rw [if_pos top]
          rw [top] at under
          omega
        · rw [if_neg top]
          exact under
  weight := by
    intro i hi
    rw [length_hung] at hi
    rw [length_hung]
    by_cases joined : f.rep i = loser ∨ f.rep i = winner
    · have target : (if f.rep i = loser then winner else f.rep i) = winner := by
        rcases joined with lost | won
        · rw [if_pos lost]
        · rw [won, if_neg (Ne.symm distinct)]
      rw [target, if_pos rfl, card_joined _ _ distinct]
      exact paid
    · obtain ⟨lost, won⟩ := not_or.mp joined
      rw [if_neg lost, if_neg won, card_apart _ _ lost won]
      exact f.weight i hi

end Hang

theorem hung_of_entry {loser winner rank : Nat} {descriptor : α} (distinct : loser ≠ winner)
    (entry : entries[winner]? = some (.root rank descriptor)) :
    hung entries loser winner rank descriptor = entries.set loser (.link winner) := by
  obtain ⟨bound, same⟩ := List.getElem?_eq_some_iff.mp entry
  rw [hung, List.set_comm _ _ distinct, ← same, List.set_getElem_self]

def loser (f : Forest entries) (a b : Nat) : Nat :=
  if f.level (f.rep b) < f.level (f.rep a) then f.rep b else f.rep a

def winner (f : Forest entries) (a b : Nat) : Nat :=
  if f.level (f.rep b) < f.level (f.rep a) then f.rep a else f.rep b

theorem loser_winner_of_le {f : Forest entries} {a b : Nat} (le : f.level (f.rep a) ≤ f.level (f.rep b)) :
    f.loser a b = f.rep a ∧ f.winner a b = f.rep b :=
  ⟨if_neg (Nat.not_lt_of_le le), if_neg (Nat.not_lt_of_le le)⟩

theorem loser_winner_of_lt {f : Forest entries} {a b : Nat} (lt : f.level (f.rep b) < f.level (f.rep a)) :
    f.loser a b = f.rep b ∧ f.winner a b = f.rep a :=
  ⟨if_pos lt, if_pos lt⟩

/-- What merging the classes of `a` and `b` makes of a forest. -/
structure Merged (f : Forest entries) (a b : Nat) {joined : List (Entry α)} (g : Forest joined) : Prop where
  length_eq : joined.length = entries.length
  given_eq : g.given = f.given
  rep_eq : ∀ i, g.rep i = if f.rep i = f.loser a b then f.winner a b else f.rep i
  level_eq : ∀ i, g.level i =
    if i = f.winner a b ∧ f.rep a ≠ f.rep b ∧ f.level (f.rep a) = f.level (f.rep b) then f.level i + 1 else f.level i

theorem replace_ok (held : p.entries.Holds entries) {i : Nat} (hi : i < entries.length) (entry : Entry α) :
    ∃ q, p.replace i entry = .ok q ∧ q.entries.Holds (entries.set i entry) := by
  obtain ⟨b, written, holds⟩ := held.set hi entry
  refine ⟨⟨b⟩, ?_, holds⟩
  rw [replace, written]
  rfl

theorem hang_lower (f : Forest entries) {lost won : Nat} (hl : lost < entries.length) (hw : won < entries.length)
    (lower : f.level (f.rep lost) < f.level (f.rep won)) :
    ∃ g : Forest (entries.set (f.rep lost) (.link (f.rep won))), g.given = f.given ∧
      (∀ i, g.rep i = if f.rep i = f.rep lost then f.rep won else f.rep i) ∧ ∀ i, g.level i = f.level i := by
  obtain ⟨descriptor, given, entry⟩ := f.rep_entry hw
  have distinct : f.rep lost ≠ f.rep won := by
    intro same
    rw [same] at lower
    exact Nat.lt_irrefl _ lower
  have paid := Nat.le_trans (f.weight won hw)
    (Nat.le_add_left _ (members f.rep entries.length (f.rep lost)).card)
  rw [← hung_of_entry distinct entry]
  refine ⟨f.hang (f.rep_lt hl) (f.rep_rep lost) entry distinct lower (Nat.le_refl _) paid, rfl, fun _ => rfl, ?_⟩
  intro i
  by_cases top : i = f.rep won
  · exact (if_pos top).trans (by rw [top])
  · exact if_neg top

theorem hang_level (f : Forest entries) {lost won : Nat} (hl : lost < entries.length) (hw : won < entries.length)
    (distinct : f.rep lost ≠ f.rep won) (level : f.level (f.rep lost) = f.level (f.rep won)) {descriptor : α}
    (entry : entries[f.rep won]? = some (.root (f.level (f.rep won)) descriptor)) :
    ∃ g : Forest (hung entries (f.rep lost) (f.rep won) (f.level (f.rep won) + 1) descriptor), g.given = f.given ∧
      (∀ i, g.rep i = if f.rep i = f.rep lost then f.rep won else f.rep i) ∧
        ∀ i, g.level i = if i = f.rep won then f.level i + 1 else f.level i := by
  have paid : 2 ^ (f.level (f.rep won) + 1) ≤
      (members f.rep entries.length (f.rep lost)).card + (members f.rep entries.length (f.rep won)).card := by
    have lostWeight := f.weight lost hl
    rw [level] at lostWeight
    calc 2 ^ (f.level (f.rep won) + 1) = 2 ^ f.level (f.rep won) + 2 ^ f.level (f.rep won) := by
          rw [Nat.pow_succ, Nat.mul_two]
      _ ≤ _ := Nat.add_le_add lostWeight (f.weight won hw)
  refine ⟨f.hang (f.rep_lt hl) (f.rep_rep lost) entry distinct (by omega) (Nat.le_succ _) paid, rfl, fun _ => rfl, ?_⟩
  intro i
  by_cases top : i = f.rep won
  · rw [if_pos top, top]
    exact if_pos rfl
  · rw [if_neg top]
    exact if_neg top

theorem merge_ok (f : Forest entries) (held : p.entries.Holds entries) {a b : Nat} (ha : a < entries.length)
    (hb : b < entries.length) :
    ∃ q joined, p.merge a b = .ok q ∧ q.entries.Holds joined ∧ ∃ g : Forest joined, f.Merged a b g := by
  obtain ⟨descriptorA, -, findA⟩ := f.find_eq held ha
  obtain ⟨descriptorB, givenB, findB⟩ := f.find_eq held hb
  simp only [merge, findA, findB, bind, Except.bind]
  by_cases same : f.rep a = f.rep b
  · obtain ⟨loserEq, winnerEq⟩ := loser_winner_of_le (Nat.le_of_eq (congrArg f.level same))
    refine ⟨p, entries, by rw [if_pos same]; rfl, held, f, rfl, rfl, fun i => ?_, fun i => ?_⟩
    · rw [loserEq, winnerEq, same]
      by_cases inside : f.rep i = f.rep b
      · rw [if_pos inside, inside]
      · rw [if_neg inside]
    · rw [if_neg (fun merged => merged.2.1 same)]
  · rw [if_neg same]
    rcases Nat.lt_trichotomy (f.level (f.rep a)) (f.level (f.rep b)) with lower | level | higher
    · obtain ⟨loserEq, winnerEq⟩ := loser_winner_of_le (Nat.le_of_lt lower)
      obtain ⟨q, written, holds⟩ := replace_ok held (f.rep_lt ha) (.link (f.rep b))
      obtain ⟨g, givenEq, repEq, levelEq⟩ := f.hang_lower ha hb lower
      refine ⟨q, _, by rw [if_pos lower]; exact written, holds, g, List.length_set, givenEq, fun i => ?_, fun i => ?_⟩
      · rw [loserEq, winnerEq]
        exact repEq i
      · rw [if_neg (fun merged => Nat.ne_of_lt lower merged.2.2)]
        exact levelEq i
    · obtain ⟨loserEq, winnerEq⟩ := loser_winner_of_le (Nat.le_of_eq level)
      obtain ⟨linked, written, holds⟩ := replace_ok held (f.rep_lt ha) (.link (f.rep b))
      obtain ⟨q, ranked, holdsRanked⟩ := replace_ok holds (by rw [List.length_set]; exact f.rep_lt hb)
        (.root (f.level (f.rep b) + 1) descriptorB)
      obtain ⟨other, givenOther, entryB⟩ := f.rep_entry hb
      obtain rfl : other = descriptorB := Option.some.inj (givenOther.symm.trans givenB)
      obtain ⟨g, givenEq, repEq, levelEq⟩ := f.hang_level ha hb same level entryB
      refine ⟨q, _, ?_, holdsRanked, g, length_hung _ _ _ _ _, givenEq, fun i => ?_, fun i => ?_⟩
      · rw [if_neg (by omega), if_neg (by omega), written]
        exact ranked
      · rw [loserEq, winnerEq]
        exact repEq i
      · rw [winnerEq, levelEq i]
        simp [same, level]
    · obtain ⟨loserEq, winnerEq⟩ := loser_winner_of_lt higher
      obtain ⟨q, written, holds⟩ := replace_ok held (f.rep_lt hb) (.link (f.rep a))
      obtain ⟨g, givenEq, repEq, levelEq⟩ := f.hang_lower hb ha higher
      refine ⟨q, _, ?_, holds, g, List.length_set, givenEq, fun i => ?_, fun i => ?_⟩
      · rw [if_neg (by omega), if_pos higher]
        exact written
      · rw [loserEq, winnerEq]
        exact repEq i
      · rw [if_neg (fun merged => Nat.ne_of_gt higher merged.2.2)]
        exact levelEq i

end SelfLambda.Partition.Forest
