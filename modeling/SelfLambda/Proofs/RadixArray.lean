import SelfLambda.RadixArray

/-! An array holds a list: its operations read and change the elements of that list at their positions. Whatever the
width of the nodes, from two places on, no way to an element below the size meets an empty place. -/

namespace SelfLambda

namespace Trie

variable {α : Type} {bits : Nat}

/-- Two indices take the same way down exactly when their digits agree from the top. -/
theorem mod_succ_eq_iff (bits height i j : Nat) :
    i % Nat.pow (width bits) (height + 1) = j % Nat.pow (width bits) (height + 1) ↔
      digit bits height i = digit bits height j ∧
        i % Nat.pow (width bits) height = j % Nat.pow (width bits) height := by
  have positive : 0 < Nat.pow (width bits) height := Nat.pow_pos (width_pos bits)
  have split (k : Nat) : k % Nat.pow (width bits) (height + 1) = k % Nat.pow (width bits) height +
      Nat.pow (width bits) height * (k / Nat.pow (width bits) height % width bits) := Nat.mod_pow_succ
  rw [split i, split j]
  simp only [digit, Fin.mk.injEq]
  constructor
  · intro same
    have low : i % Nat.pow (width bits) height = j % Nat.pow (width bits) height := by
      have := congrArg (· % Nat.pow (width bits) height) same
      simpa only [Nat.add_mul_mod_self_left, Nat.mod_mod] using this
    refine ⟨?_, low⟩
    rw [low] at same
    exact Nat.eq_of_mul_eq_mul_left positive (Nat.add_left_cancel same)
  · rintro ⟨high, low⟩
    rw [high, low]

theorem get_emptyNode (height : Nat) (slot : Fin (width bits)) :
    Vector.get (emptyNode height : Trie α bits (height + 1)) slot = none :=
  Vector.getElem_replicate slot.isLt

theorem get_fill {height : Nat} (node : Trie α bits (height + 1)) (slot other : Fin (width bits))
    (child : Trie α bits height) :
    Vector.get (node.fill slot child) other = if slot = other then some child else Vector.get node other := by
  simp only [Fin.ext_iff]
  exact Vector.getElem_set slot.isLt other.isLt

theorem get?_emptyNode (height i : Nat) : (emptyNode height : Trie α bits (height + 1)).get? i = none := by
  rw [get?, get_emptyNode]

theorem get?_succ {height : Nat} (node : Trie α bits (height + 1)) (i : Nat) :
    node.get? i = (Vector.get node (digit bits height i)).bind (·.get? i) := by
  rw [get?]
  cases Vector.get node (digit bits height i) <;> rfl

/-- An element put at an index is what every index with the same way finds; no other way changes. -/
theorem get?_put (height : Nat) (node : Option (Trie α bits height)) (i j : Nat) (element : α) :
    (put height node i element).get? j =
      if i % Nat.pow (width bits) height = j % Nat.pow (width bits) height then some element
      else node.bind (·.get? j) := by
  induction height with
  | zero => simp [put, get?, Nat.mod_one]
  | succ height ih =>
    have below : (node.getD (emptyNode height)).get? j = node.bind (·.get? j) := by
      cases node with
      | none => exact get?_emptyNode height j
      | some node => rfl
    rw [get?_succ] at below
    rw [get?_succ, put, get_fill]
    simp only [mod_succ_eq_iff]
    by_cases high : digit bits height i = digit bits height j
    · rw [if_pos high, Option.bind_some, ih, high, below]
      simp only [true_and]
    · rw [if_neg high, below, if_neg (fun same => high same.1)]

end Trie

namespace RadixArray

variable {α : Type} {bits : Nat} {a : RadixArray α bits} {elements : List α}

/-- The array is the list, element by element, and has room for all of them. -/
structure Holds (a : RadixArray α bits) (elements : List α) : Prop where
  size_eq : a.size = elements.length
  room : a.size ≤ capacity bits a.height
  element : ∀ i, i < elements.length → a.root.bind (·.get? i) = elements[i]?

theorem holds_nil : ({} : RadixArray α bits).Holds [] := ⟨rfl, Nat.zero_le _, fun _ h => absurd h (Nat.not_lt_zero _)⟩

theorem Holds.get_eq (holds : a.Holds elements) (i : Nat) :
    a.get i = match elements[i]? with
      | some element => .ok element
      | none => .error .outOfRange := by
  unfold get
  rw [holds.size_eq]
  by_cases below : i < elements.length
  · rw [if_pos below, holds.element i below, List.getElem?_eq_getElem below]
  · rw [if_neg below, List.getElem?_eq_none (Nat.le_of_not_lt below)]

theorem mod_capacity_eq_iff {height i j : Nat} (hi : i < capacity bits height) (hj : j < capacity bits height) :
    i % Nat.pow (Trie.width bits) (height + 1) = j % Nat.pow (Trie.width bits) (height + 1) ↔ i = j := by
  unfold capacity at hi hj
  rw [Nat.mod_eq_of_lt hi, Nat.mod_eq_of_lt hj]

theorem Holds.set (holds : a.Holds elements) {i : Nat} (hi : i < elements.length) (element : α) :
    ∃ b, a.set i element = .ok b ∧ b.Holds (elements.set i element) := by
  have below : i < a.size := by rw [holds.size_eq]; exact hi
  refine ⟨{ a with root := some (Trie.put (a.height + 1) a.root i element) }, by rw [RadixArray.set, if_pos below], ?_⟩
  refine ⟨by rw [List.length_set]; exact holds.size_eq, holds.room, fun j hj => ?_⟩
  rw [List.length_set] at hj
  have reached : j < a.size := by rw [holds.size_eq]; exact hj
  rw [Option.bind_some, Trie.get?_put, holds.element j hj, List.getElem?_set]
  have roomI := Nat.lt_of_lt_of_le below holds.room
  have roomJ := Nat.lt_of_lt_of_le reached holds.room
  simp only [mod_capacity_eq_iff roomI roomJ, hi, if_true]

theorem Holds.set_outOfRange (holds : a.Holds elements) {i : Nat} (hi : elements.length ≤ i) (element : α) :
    a.set i element = .error .outOfRange := by
  rw [RadixArray.set, holds.size_eq, if_neg (Nat.not_lt_of_le hi)]

theorem holds_put {height : Nat} {root : Option (Trie α bits (height + 1))}
    (room : elements.length < capacity bits height)
    (present : ∀ i, i < elements.length → root.bind (·.get? i) = elements[i]?) (element : α) :
    (⟨elements.length + 1, height, some (Trie.put (height + 1) root elements.length element)⟩ : RadixArray α bits).Holds
      (elements ++ [element]) := by
  refine ⟨by simp, room, fun i hi => ?_⟩
  have within : i ≤ elements.length := by
    rw [List.length_append, List.length_singleton] at hi
    exact Nat.le_of_lt_succ hi
  rw [Option.bind_some, Trie.get?_put]
  simp only [mod_capacity_eq_iff room (Nat.lt_of_le_of_lt within room)]
  by_cases last : elements.length = i
  · rw [if_pos last, ← last, List.getElem?_concat_length]
  · have inside : i < elements.length := Nat.lt_of_le_of_ne within (Ne.symm last)
    rw [if_neg last, present i inside, List.getElem?_append_left inside]

theorem get?_raised {height : Nat} (root : Trie α bits (height + 1)) {i : Nat} (hi : i < capacity bits height) :
    ((Trie.emptyNode (height + 1)).fill ⟨0, Trie.width_pos bits⟩ root).get? i = root.get? i := by
  have first : (⟨0, Trie.width_pos bits⟩ : Fin (Trie.width bits)) = Trie.digit bits (height + 1) i := by
    unfold capacity at hi
    simp only [Trie.digit, Fin.mk.injEq]
    rw [Nat.div_eq_of_lt hi, Nat.zero_mod]
  rw [Trie.get?_succ, Trie.get_fill, if_pos first, Option.bind_some]

theorem capacity_lt_succ (positive : 0 < bits) (height : Nat) : capacity bits height < capacity bits (height + 1) := by
  have wide : 1 < Trie.width bits := Nat.one_lt_two_pow (Nat.ne_of_gt positive)
  exact Nat.pow_lt_pow_right wide (Nat.lt_succ_self _)

theorem Holds.push (holds : a.Holds elements) (positive : 0 < bits) (element : α) :
    (a.push element).Holds (elements ++ [element]) := by
  obtain ⟨size, height, root⟩ := a
  obtain ⟨rfl, room, present⟩ := holds
  cases root with
  | none =>
    have empty : elements.length = 0 := by
      rcases Nat.eq_zero_or_pos elements.length with empty | filled
      · exact empty
      · have absent := present 0 filled
        rw [List.getElem?_eq_getElem filled] at absent
        cases absent
    have roomy : elements.length < capacity bits height := by
      rw [empty]
      exact Nat.pow_pos (Trie.width_pos bits)
    exact holds_put roomy present element
  | some root =>
    simp only [RadixArray.push]
    by_cases full : elements.length = capacity bits height
    · rw [if_pos full]
      refine holds_put (full ▸ capacity_lt_succ positive height) (fun i hi => ?_) element
      rw [Option.bind_some, get?_raised root (full ▸ hi)]
      exact present i hi
    · rw [if_neg full]
      exact holds_put (Nat.lt_of_le_of_ne room full) present element

end RadixArray

end SelfLambda
