import SelfLambda.Proofs.Partition.History

/-! Ranks bound the ways up. From every handle of a version the links lead to a representative, in no more steps than
its rank, and a representative of rank `n` stands for at least `2 ^ n` handles. So every call on handles that were given
out has an answer, all others are refused for being out of range, and no rank comes near the end of a 64-bit word. -/

namespace SelfLambda.Partition

variable {α β : Type} {entries : List (Entry α)} {p : Partition α} {a b i j steps : Nat}

inductive Leads (p : Partition α) : Nat → Nat → Nat → Prop where
  | here (i : Nat) : Leads p 0 i i
  | up {steps i parent top : Nat} (linked : p.entry i = .ok (.link parent)) (onward : Leads p steps parent top) :
    Leads p (steps + 1) i top

def classOf (p : Partition α) (root : Nat) : Finset Nat :=
  (Finset.range p.size).filter fun i => (p.find i).toOption.map Class.handle = some root

/-- The links are a forest over the handles that were given out, and its ranks are logarithms. -/
structure Ranked (p : Partition α) : Prop where
  inside : ∀ i parent, p.entry i = .ok (.link parent) → parent < p.size
  acyclic : ∀ i steps, ¬p.Leads (steps + 1) i i
  rooted : ∀ i, i < p.size → ∃ steps top rank descriptor, p.Leads steps i top ∧
    p.entry top = .ok (.root rank descriptor) ∧ steps ≤ rank ∧ p.find i = .ok ⟨top, rank, descriptor⟩
  weight : ∀ root rank descriptor, p.entry root = .ok (.root rank descriptor) → 2 ^ rank ≤ (p.classOf root).card

/-- There is an answer exactly in range, and a refusal for being out of range exactly outside. -/
def AnswersIf (inRange : Prop) (result : Except Failure β) : Prop :=
  ((∃ answer, result = .ok answer) ↔ inRange) ∧ (result = .error (.access .outOfRange) ↔ ¬inRange)

theorem AnswersIf.of_cases {inRange : Prop} {result : Except Failure β}
    (inside : inRange → ∃ answer, result = .ok answer)
    (outside : ¬inRange → result = .error (.access .outOfRange)) : AnswersIf inRange result := by
  refine ⟨⟨?_, inside⟩, ?_, outside⟩
  · rintro ⟨answer, done⟩
    by_contra beyond
    rw [outside beyond] at done
    cases done
  · intro refused within
    obtain ⟨answer, done⟩ := inside within
    rw [done] at refused
    cases refused

theorem exists_leads_of_climb {c : Class α} (found : p.climb steps i = .ok c) :
    ∃ n, n < steps ∧ p.Leads n i c.handle ∧ p.entry c.handle = .ok (.root c.rank c.descriptor) := by
  induction steps generalizing i with
  | zero => cases found
  | succ steps ih =>
    rw [climb] at found
    split at found
    next => cases found
    next rank descriptor rooted =>
      cases found
      exact ⟨0, Nat.zero_lt_succ _, .here i, rooted⟩
    next parent linked =>
      obtain ⟨n, less, leads, rooted⟩ := ih found
      exact ⟨n + 1, Nat.succ_lt_succ less, .up linked leads, rooted⟩

namespace Forest

theorem entry_eq_ok_iff (held : p.entries.Holds entries) {entry : Entry α} :
    p.entry i = .ok entry ↔ entries[i]? = some entry := by
  rw [entry_eq held]
  cases entries[i]? with
  | none => simp only [reduceCtorEq]
  | some other => simp only [Except.ok.injEq, Option.some.injEq]

theorem level_add_le (f : Forest entries) (held : p.entries.Holds entries) (leads : p.Leads steps i j) :
    f.level i + steps ≤ f.level j := by
  induction leads with
  | here i => exact Nat.le_refl _
  | up linked _ ih =>
    have lower := (f.link _ _ ((entry_eq_ok_iff held).mp linked)).2.2
    omega

theorem classOf_eq (f : Forest entries) (held : p.entries.Holds entries) (root : Nat) :
    p.classOf root = members f.rep entries.length root := by
  have sizeEq : p.size = entries.length := held.size_eq
  rw [classOf, members, sizeEq]
  apply Finset.filter_congr
  intro i hi
  obtain ⟨descriptor, -, found⟩ := f.find_eq held (Finset.mem_range.mp hi)
  rw [found]
  exact Option.some_inj

theorem ranked (f : Forest entries) (held : p.entries.Holds entries) : p.Ranked := by
  have sizeEq : p.size = entries.length := held.size_eq
  constructor
  case inside =>
    intro i parent linked
    rw [sizeEq]
    exact (f.link i parent ((entry_eq_ok_iff held).mp linked)).1
  case acyclic =>
    intro i steps circle
    have higher := f.level_add_le held circle
    omega
  case rooted =>
    intro i hi
    rw [sizeEq] at hi
    -- as many entries as the rank has levels, and one more for the representative, are enough to find it
    obtain ⟨descriptor, given, climbed⟩ := f.climb_eq held hi
      (show f.level (f.rep i) < f.level i + (f.level (f.rep i) + 1) by omega)
    obtain ⟨n, less, leads, rooted⟩ := exists_leads_of_climb climbed
    obtain ⟨other, givenOther, found⟩ := f.find_eq held hi
    obtain rfl : other = descriptor := Option.some.inj (givenOther.symm.trans given)
    exact ⟨n, _, _, _, leads, rooted, Nat.le_of_lt_succ less, found⟩
  case weight =>
    intro root rank descriptor rooted
    have entry := (entry_eq_ok_iff held).mp rooted
    obtain ⟨self, rankEq, -⟩ := f.root root rank descriptor entry
    have weight := f.weight root (List.getElem?_eq_some_iff.mp entry).1
    rw [self, rankEq] at weight
    rw [f.classOf_eq held]
    exact weight

theorem find_both_outOfRange (f : Forest entries) (held : p.entries.Holds entries)
    (outside : ¬(a < p.size ∧ b < p.size)) (next : Class α → Class α → Except Failure β) :
    (p.find a >>= fun x => p.find b >>= next x) = .error (.access .outOfRange) := by
  have sizeEq : p.size = entries.length := held.size_eq
  rw [sizeEq] at outside
  by_cases ha : a < entries.length
  · obtain ⟨descriptor, -, found⟩ := f.find_eq held ha
    have hb : entries.length ≤ b := Nat.le_of_not_lt fun hb => outside ⟨ha, hb⟩
    rw [found, find_outOfRange held hb]
    rfl
  · rw [find_outOfRange held (Nat.le_of_not_lt ha)]
    rfl

theorem find_answers (f : Forest entries) (held : p.entries.Holds entries) (i : Nat) :
    AnswersIf (i < p.size) (p.find i) := by
  have sizeEq : p.size = entries.length := held.size_eq
  rw [sizeEq]
  apply AnswersIf.of_cases
  · intro hi
    obtain ⟨descriptor, -, found⟩ := f.find_eq held hi
    exact ⟨_, found⟩
  · intro hi
    exact find_outOfRange held (Nat.le_of_not_lt hi)

theorem descriptor_answers (f : Forest entries) (held : p.entries.Holds entries) (i : Nat) :
    AnswersIf (i < p.size) (p.descriptor i) := by
  obtain ⟨found, refused⟩ := f.find_answers held i
  apply AnswersIf.of_cases
  · intro hi
    obtain ⟨c, done⟩ := found.mpr hi
    rw [descriptor, done]
    exact ⟨_, rfl⟩
  · intro hi
    rw [descriptor, refused.mpr hi]
    rfl

theorem equivalent_answers (f : Forest entries) (held : p.entries.Holds entries) (a b : Nat) :
    AnswersIf (a < p.size ∧ b < p.size) (p.equivalent a b) := by
  apply AnswersIf.of_cases
  · rintro ⟨ha, hb⟩
    obtain ⟨c, found⟩ := (f.find_answers held a).1.mpr ha
    obtain ⟨d, found'⟩ := (f.find_answers held b).1.mpr hb
    rw [equivalent, found, found']
    exact ⟨_, rfl⟩
  · intro outside
    exact f.find_both_outOfRange held outside _

theorem merge_answers (f : Forest entries) (held : p.entries.Holds entries) (a b : Nat) :
    AnswersIf (a < p.size ∧ b < p.size) (p.merge a b) := by
  apply AnswersIf.of_cases
  · intro within
    have sizeEq : p.size = entries.length := held.size_eq
    rw [sizeEq] at within
    obtain ⟨q, _, merged, -⟩ := f.merge_ok held within.1 within.2
    exact ⟨q, merged⟩
  · intro outside
    exact f.find_both_outOfRange held outside _

end Forest

theorem Ranked.rank_lt (ranked : p.Ranked) {bits : Nat} (small : p.size < 2 ^ bits) {c : Class α}
    (found : p.find i = .ok c) : c.rank < bits := by
  obtain ⟨n, -, -, rooted⟩ := exists_leads_of_climb found
  have fewer : (p.classOf c.handle).card ≤ p.size := by
    simpa [classOf] using Finset.card_filter_le (Finset.range p.size) _
  have powers : 2 ^ c.rank < 2 ^ bits := by
    calc 2 ^ c.rank ≤ (p.classOf c.handle).card := ranked.weight _ _ _ rooted
      _ ≤ p.size := fewer
      _ < 2 ^ bits := small
  exact (Nat.pow_lt_pow_iff_right (by decide)).mp powers

/-- Every version is a ranked forest. Looking a handle up, its descriptor, comparing and merging two handles succeed
exactly for handles that were given out and are refused as out of range exactly for others; and as long as the handles
fit in a word, one more than a rank does too. -/
theorem ranks_logarithmic {calls : List (Call α)} {p : Partition α} (reached : Reached calls p) :
    p.Ranked ∧
      (∀ i, AnswersIf (i < p.size) (p.find i) ∧ AnswersIf (i < p.size) (p.descriptor i)) ∧
      (∀ a b, AnswersIf (a < p.size ∧ b < p.size) (p.equivalent a b) ∧
        AnswersIf (a < p.size ∧ b < p.size) (p.merge a b)) ∧
      (p.size < 2 ^ 64 → ∀ i c, p.find i = .ok c → c.rank + 1 < 2 ^ 64) := by
  obtain ⟨entries, held, f, -⟩ := reached.accounts
  have ranked := f.ranked held
  refine ⟨ranked, ?_, ?_, ?_⟩
  · intro i
    exact ⟨f.find_answers held i, f.descriptor_answers held i⟩
  · intro a b
    exact ⟨f.equivalent_answers held a b, f.merge_answers held a b⟩
  · intro small i c found
    have below := ranked.rank_lt small found
    omega

/-- Four handles merged in pairs, and the pairs with each other: the last handle stands for all with rank two, and the
first is two links away. -/
theorem ranks_logarithmic_pairs :
    ∃ p : Partition Nat, Reached [.merge 0 2, .merge 2 3, .merge 0 1, .fresh 8 3, .fresh 7 2, .fresh 6 1, .fresh 5 0] p ∧
      p.Ranked ∧ p.find 0 = .ok ⟨3, 2, 8⟩ ∧ p.Leads 2 0 3 ∧ p.merge 0 4 = .error (.access .outOfRange) := by
  have reached : Reached [.merge 0 2, .merge 2 3, .merge 0 1, .fresh 8 3, .fresh 7 2, .fresh 6 1, .fresh 5 0] _ :=
    .merge (.merge (.merge (.fresh (.fresh (.fresh (.fresh .empty 5) 6) 7) 8) rfl) rfl) rfl
  obtain ⟨ranked, -, answers, -⟩ := ranks_logarithmic reached
  exact ⟨_, reached, ranked, rfl, .up rfl (.up rfl (.here 3)), (answers 0 4).2.2.mpr (by decide)⟩

end SelfLambda.Partition
