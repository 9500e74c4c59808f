import Mathlib.Data.Finset.Card
import SelfLambda.Proofs.Module.Concatenation

/-! Modules as maps from names to definitions, in the order in which the names first came. One insertion changes what stands
at one position and for one name: the position is that of the name, or the next free one if the name is new. What a module
has after a run of insertions follows, insertion by insertion. -/

namespace SelfLambda

namespace Module

variable {m : Module} {d : Definition} {n : Name} {ds : List Definition}

/-- The place that is told is that of the name, and the next free one where the name is new. -/
theorem position_place (d : Definition) (entries : List Definition) :
    (place d entries).2 = (entries.map Definition.name).idxOf d.name := by
  induction entries with
  | nil => rfl
  | cons entry entries ih =>
    rw [place, List.map_cons, List.idxOf_cons]
    by_cases same : entry.name = d.name
    · simp only [same, if_true, beq_self_eq_true, cond_true]
    · simp only [same, if_false, beq_eq_false_iff_ne.mpr same, cond_false, ih]

theorem getElem?_place (d : Definition) (entries : List Definition) (i : Nat) :
    (place d entries).1[i]? = if i = (place d entries).2 then some d else entries[i]? := by
  induction entries generalizing i with
  | nil => cases i <;> rfl
  | cons entry entries ih =>
    rw [place]
    by_cases same : entry.name = d.name
    · simp only [same, if_true]
      cases i <;> rfl
    · simp only [same, if_false]
      cases i with
      | zero => rfl
      | succ i => simpa only [List.getElem?_cons_succ, Nat.add_right_cancel_iff] using ih i

theorem find?_place (d : Definition) (n : Name) (entries : List Definition) :
    (place d entries).1.find? (fun entry => entry.name == n) =
      if n = d.name then some d else entries.find? (fun entry => entry.name == n) := by
  induction entries with
  | nil =>
    rw [place, List.find?_singleton, List.find?_nil]
    simp only [beq_iff_eq, eq_comm (b := n)]
  | cons entry entries ih =>
    rw [place]
    by_cases same : entry.name = d.name
    · by_cases sought : n = d.name
      · simp [same, sought]
      · simp [same, sought, Ne.symm sought]
    · by_cases sought : entry.name = n
      · have other : n ≠ d.name := sought ▸ same
        simp [sought, other]
      · simp only [same, if_false, List.find?_cons, beq_eq_false_iff_ne.mpr sought, ih]

theorem position_add (m : Module) (d : Definition) : (m.add d).2 = m.names.idxOf d.name := position_place d m.entries

theorem get?_insert (m : Module) (d : Definition) (i : Nat) :
    (m.insert d).get? i = if i = (m.add d).2 then some d else m.get? i :=
  getElem?_place d m.entries i

theorem find?_insert (m : Module) (d : Definition) (n : Name) :
    (m.insert d).find? n = if n = d.name then some d else m.find? n :=
  find?_place d n m.entries

theorem names_insert (m : Module) (d : Definition) :
    (m.insert d).names = if d.name ∈ m.names then m.names else m.names ++ [d.name] :=
  names_place d m.entries

theorem getElem?_names (m : Module) (i : Nat) : m.names[i]? = (m.get? i).map Definition.name := List.getElem?_map

theorem length_names (m : Module) : m.names.length = m.size := List.length_map _

theorem get?_eq_none_iff {i : Nat} : m.get? i = none ↔ m.size ≤ i := List.getElem?_eq_none_iff

theorem find?_eq_none_iff : m.find? n = none ↔ n ∉ m.names := by
  rw [find?, List.find?_eq_none, names, List.mem_map]
  simp only [beq_iff_eq, not_exists, not_and]

/-- What a name stands for is what is at its position. -/
theorem get?_idxOf_names (m : Module) (n : Name) : m.get? (m.names.idxOf n) = m.find? n := by
  obtain ⟨entries⟩ := m
  change entries[(entries.map Definition.name).idxOf n]? = entries.find? (fun entry => entry.name == n)
  induction entries with
  | nil => rfl
  | cons entry entries ih =>
    rw [List.map_cons, List.idxOf_cons, List.find?_cons]
    cases entry.name == n with
    | true => rfl
    | false => exact ih

theorem insertAll_concat (m : Module) (ds : List Definition) (d : Definition) :
    m.insertAll (ds ++ [d]) = (m.insertAll ds).insert d :=
  insertAll_append m ds [d]

theorem mem_names_insertAll : n ∈ (insertAll {} ds).names ↔ n ∈ ds.map Definition.name := by
  induction ds using List.reverseRecOn with
  | nil => rfl
  | append_singleton ds d ih =>
    rw [insertAll_concat, mem_names_insert, ih, List.map_append, List.mem_append, List.map_singleton, List.mem_singleton,
      or_comm]

theorem pairwise_names_insertAll (ds : List Definition) :
    (insertAll {} ds).names.Pairwise fun a b =>
      (ds.map Definition.name).idxOf a < (ds.map Definition.name).idxOf b := by
  induction ds using List.reverseRecOn with
  | nil => exact .nil
  | append_singleton ds d ih =>
    have came {a : Name} (member : a ∈ (insertAll {} ds).names) :
        ((ds ++ [d]).map Definition.name).idxOf a = (ds.map Definition.name).idxOf a := by
      rw [List.map_append, List.idxOf_append_of_mem (mem_names_insertAll.mp member)]
    have before : (insertAll {} ds).names.Pairwise fun a b =>
        ((ds ++ [d]).map Definition.name).idxOf a < ((ds ++ [d]).map Definition.name).idxOf b := by
      refine ih.imp_of_mem fun memberA memberB earlier => ?_
      rwa [came memberA, came memberB]
    rw [insertAll_concat, names_insert]
    split
    · exact before
    next new =>
      -- a new name comes after all that came before
      refine List.pairwise_append.mpr ⟨before, List.pairwise_singleton _ d.name, ?_⟩
      intro a member b last
      obtain rfl := List.mem_singleton.mp last
      have absent : d.name ∉ ds.map Definition.name := fun present => new (mem_names_insertAll.mpr present)
      have early : (ds.map Definition.name).idxOf a < (ds.map Definition.name).length :=
        List.idxOf_lt_length_iff.mpr (mem_names_insertAll.mp member)
      rw [came member, List.map_append, List.idxOf_append_of_notMem absent]
      exact Nat.lt_add_right _ early

theorem size_insertAll (ds : List Definition) :
    (insertAll {} ds).size = (ds.map Definition.name).toFinset.card := by
  have distinct : (insertAll {} ds).names.Nodup := nodup_insertAll (m := {}) List.nodup_nil ds
  have same : (insertAll {} ds).names.toFinset = (ds.map Definition.name).toFinset := by
    ext n
    rw [List.mem_toFinset, List.mem_toFinset, mem_names_insertAll]
  rw [← same, List.toFinset_card_of_nodup distinct, length_names]

theorem find?_insertAll_eq_none_iff : (insertAll {} ds).find? n = none ↔ n ∉ ds.map Definition.name := by
  rw [find?_eq_none_iff, mem_names_insertAll]

theorem find?_insertAll_of_notMem (absent : n ∉ ds.map Definition.name) : (m.insertAll ds).find? n = m.find? n := by
  induction ds generalizing m with
  | nil => rfl
  | cons d ds ih =>
    rw [List.map_cons, List.mem_cons, not_or] at absent
    change ((m.insert d).insertAll ds).find? n = m.find? n
    rw [ih absent.2, find?_insert, if_neg absent.1]

theorem find?_insertAll_eq_some_iff : (insertAll {} ds).find? n = some d ↔
    ∃ before after, ds = before ++ d :: after ∧ d.name = n ∧ n ∉ after.map Definition.name := by
  constructor
  · intro found
    induction ds using List.reverseRecOn with
    | nil => cases found
    | append_singleton ds e ih =>
      rw [insertAll_concat, find?_insert] at found
      split at found
      next last =>
        cases found
        exact ⟨ds, [], rfl, last.symm, List.not_mem_nil⟩
      next other =>
        obtain ⟨before, after, rfl, named, absent⟩ := ih found
        refine ⟨before, after ++ [e], List.append_assoc _ _ _, named, ?_⟩
        rw [List.map_append, List.mem_append, not_or]
        exact ⟨absent, fun member => other (List.mem_singleton.mp member)⟩
  · rintro ⟨before, after, rfl, rfl, absent⟩
    rw [insertAll_append]
    change (((insertAll {} before).insert d).insertAll after).find? d.name = some d
    rw [find?_insertAll_of_notMem absent, find?_insert, if_pos rfl]

end Module

end SelfLambda
