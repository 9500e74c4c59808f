import SelfLambda.Proofs.RadixArray.Sharing

/-! Versions of an array. Each call goes to any version there is and adds one more at the end, so the versions of a
history branch as they like. The same calls on plain lists say what every version is; no width of nodes from two places
on makes a difference, and no later call changes an earlier version. The same holds of versions that share the nodes of
one heap: no call finds a node missing or changes one that was there. -/

namespace SelfLambda.RadixArray

variable {α β : Type} {bits : Nat} {a : RadixArray α bits} {elements : List α}

inductive Call (α : Type) where
  | push (version : Nat) (element : α)
  | set (version index : Nat) (element : α)
  deriving DecidableEq, Repr

namespace Call

def version : Call α → Nat
  | push version _ => version
  | set version _ _ => version

def onArray : Call α → RadixArray α bits → Except AccessError (RadixArray α bits)
  | push _ element, a => .ok (a.push element)
  | set _ index element, a => a.set index element

def onHandle (initial : α) : Call α → NodeHeap α bits → ArrayHandle → Except AccessError (NodeHeap α bits × ArrayHandle)
  | push _ element, heap, h => h.push initial heap element
  | set _ index element, heap, h => h.set initial heap index element

def onList : Call α → List α → Except AccessError (List α)
  | push _ element, elements => .ok (elements ++ [element])
  | set _ index element, elements =>
    if index < elements.length then .ok (elements.set index element) else .error .outOfRange

end Call

/-- What a call makes of the versions: a call that succeeds adds one, any other adds none. -/
def extend (apply : Call α → β → Except AccessError β) (versions : List β) (call : Call α) : List β :=
  match versions[call.version]? with
  | none => versions
  | some before =>
    match apply call before with
    | .ok after => versions ++ [after]
    | .error _ => versions

def arrays (bits : Nat) (calls : List (Call α)) : List (RadixArray α bits) := calls.foldl (extend Call.onArray) [{}]

def lists (calls : List (Call α)) : List (List α) := calls.foldl (extend Call.onList) [[]]

structure Shared (α : Type) (bits : Nat) where
  heap : NodeHeap α bits := {}
  handles : List ArrayHandle := [{}]

def Shared.extend (initial : α) (s : Shared α bits) (call : Call α) : Shared α bits :=
  match s.handles[call.version]? with
  | none => s
  | some before =>
    match call.onHandle initial s.heap before with
    | .ok (heap, after) => ⟨heap, s.handles ++ [after]⟩
    | .error _ => s

def shared (bits : Nat) (initial : α) (calls : List (Call α)) : Shared α bits := calls.foldl (Shared.extend initial) {}

structure Denotes (a : RadixArray α bits) (elements : List α) : Prop where
  size : a.size = elements.length
  get : ∀ i (inside : i < elements.length), a.get i = .ok elements[i]

/-- An array that is the list for all its operations: it also refuses just the indices beyond the list, and an element
put at an index or at the end leaves an array that denotes the list with the element put there. -/
structure Behaves (a : RadixArray α bits) (elements : List α) : Prop extends a.Denotes elements where
  get_refused : ∀ i, a.get i = .error .outOfRange ↔ a.size ≤ i
  set : ∀ i element, i < a.size → ∃ b, a.set i element = .ok b ∧ b.Denotes (elements.set i element)
  set_refused : ∀ i element, a.set i element = .error .outOfRange ↔ a.size ≤ i
  push : ∀ element, (a.push element).Denotes (elements ++ [element])

theorem Holds.denotes (holds : a.Holds elements) : a.Denotes elements := by
  refine ⟨holds.size_eq, fun i inside => ?_⟩
  rw [holds.get_eq, List.getElem?_eq_getElem inside]

theorem Holds.behaves (holds : a.Holds elements) (positive : 0 < bits) : a.Behaves elements := by
  refine ⟨holds.denotes, fun i => ?_, fun i element inside => ?_, fun i element => ?_, fun element => ?_⟩
  · rw [holds.get_eq, holds.size_eq, ← List.getElem?_eq_none_iff]
    cases elements[i]? with
    | none => simp only
    | some element => simp only [reduceCtorEq]
  · rw [holds.size_eq] at inside
    obtain ⟨b, written, after⟩ := holds.set inside element
    exact ⟨b, written, after.denotes⟩
  · rw [holds.size_eq]
    constructor
    · intro refused
      by_contra inside
      obtain ⟨b, written, -⟩ := holds.set (Nat.lt_of_not_le inside) element
      rw [written] at refused
      cases refused
    · intro outside
      exact holds.set_outOfRange outside element
  · exact (holds.push positive element).denotes

theorem Holds.call (holds : a.Holds elements) (positive : 0 < bits) (call : Call α) :
    (∃ b after, call.onArray a = .ok b ∧ call.onList elements = .ok after ∧ b.Holds after) ∨
      ∃ cause, call.onArray a = .error cause ∧ call.onList elements = .error cause := by
  cases call with
  | push version element => exact .inl ⟨_, _, rfl, rfl, holds.push positive element⟩
  | set version index element =>
    by_cases inside : index < elements.length
    · obtain ⟨b, written, after⟩ := holds.set inside element
      exact .inl ⟨b, _, written, by rw [Call.onList, if_pos inside], after⟩
    · exact .inr ⟨_, holds.set_outOfRange (Nat.le_of_not_lt inside) element, by rw [Call.onList, if_neg inside]⟩

theorem holds_extend {versions : List (RadixArray α bits)} {lists : List (List α)} (positive : 0 < bits)
    (related : List.Forall₂ Holds versions lists) (call : Call α) :
    List.Forall₂ Holds (extend Call.onArray versions call) (extend Call.onList lists call) := by
  unfold extend
  obtain ⟨missing, missingList⟩ | ⟨a, elements, found, foundList, holds⟩ := getElem?_cases related call.version
  · rw [missing, missingList]
    exact related
  · rw [found, foundList]
    obtain ⟨b, after, called, calledList, holdsAfter⟩ | ⟨cause, called, calledList⟩ := holds.call positive call
    · simp only [called, calledList]
      exact List.rel_append related (.cons holdsAfter .nil)
    · simp only [called, calledList]
      exact related

theorem holds_extendAll {versions : List (RadixArray α bits)} {lists : List (List α)} (positive : 0 < bits)
    (related : List.Forall₂ Holds versions lists) (calls : List (Call α)) :
    List.Forall₂ Holds (calls.foldl (extend Call.onArray) versions) (calls.foldl (extend Call.onList) lists) := by
  induction calls generalizing versions lists with
  | nil => exact related
  | cons call calls ih => exact ih (holds_extend positive related call)

theorem getElem?_extend {apply : Call α → β → Except AccessError β} {versions : List β} {position : Nat} {v : β}
    (found : versions[position]? = some v) (call : Call α) : (extend apply versions call)[position]? = some v := by
  unfold extend
  split
  next => exact found
  next =>
    split
    next => rw [List.getElem?_append_left (List.getElem?_eq_some_iff.mp found).1, found]
    next => exact found

theorem getElem?_extendAll {apply : Call α → β → Except AccessError β} {versions : List β} {position : Nat} {v : β}
    (found : versions[position]? = some v) (calls : List (Call α)) :
    (calls.foldl (extend apply) versions)[position]? = some v := by
  induction calls generalizing versions with
  | nil => exact found
  | cons call calls ih => exact ih (getElem?_extend found call)

structure Reads (heap : NodeHeap α bits) (h : ArrayHandle) (elements : List α) : Prop where
  size : h.size = elements.length
  get : ∀ i (inside : i < elements.length), h.get heap i = .ok elements[i]
  get_refused : ∀ i, h.get heap i = .error .outOfRange ↔ h.size ≤ i

def Leads (heap : NodeHeap α bits) (h : ArrayHandle) (elements : List α) : Prop :=
  ∃ a : RadixArray α bits, h.Stands heap a ∧ a.Holds elements

variable {heap heap' : NodeHeap α bits} {h : ArrayHandle} {s : Shared α bits}

theorem Leads.extend (leads : Leads heap h elements) (more : heap.Extends heap') : Leads heap' h elements := by
  obtain ⟨a, stands, holds⟩ := leads
  exact ⟨a, stands.extend more, holds⟩

theorem Leads.reads (leads : Leads heap h elements) : Reads heap h elements := by
  obtain ⟨a, stands, holds⟩ := leads
  have size : h.size = elements.length := stands.size.trans holds.size_eq
  refine ⟨size, fun i inside => ?_, fun i => ?_⟩
  · rw [stands.get_eq holds, List.getElem?_eq_getElem inside]
  · rw [stands.get_eq holds, size, ← List.getElem?_eq_none_iff]
    cases elements[i]? with
    | none => simp only
    | some element => simp only [reduceCtorEq]

/-- A call on an array in a heap does what it does to the array: it makes another, with new nodes only for the way down and
one root more, or fails. -/
theorem Call.onHandle_cases (stands : h.Stands heap a) (initial : α) (call : Call α) :
    (∃ heap' h' b, call.onHandle initial heap h = .ok (heap', h') ∧ call.onArray a = .ok b ∧ heap.Extends heap' ∧
      heap'.nodes.size ≤ heap.nodes.size + (h'.height + 2) ∧ h'.Stands heap' b) ∨
      ∃ cause, call.onHandle initial heap h = .error cause ∧ call.onArray a = .error cause := by
  cases call with
  | push version element =>
    obtain ⟨heap', h', pushed, more, grown, after⟩ := stands.push initial element
    exact .inl ⟨heap', h', _, pushed, rfl, more, grown, after⟩
  | set version index element =>
    obtain ⟨heap', h', b, written, writtenArray, more, grown, after⟩ | refused := stands.set initial index element
    · have few : heap'.nodes.size ≤ heap.nodes.size + (h'.height + 2) := by
        rw [grown]
        exact Nat.add_le_add_left (Nat.le_succ _) _
      exact .inl ⟨heap', h', b, written, writtenArray, more, few, after⟩
    · exact .inr ⟨_, refused⟩

theorem Leads.call (leads : Leads heap h elements) (positive : 0 < bits) (initial : α) (call : Call α) :
    (∃ heap' h' after, call.onHandle initial heap h = .ok (heap', h') ∧ call.onList elements = .ok after ∧
      heap.Extends heap' ∧ heap'.nodes.size ≤ heap.nodes.size + (h'.height + 2) ∧ Leads heap' h' after) ∨
      ∃ cause, call.onHandle initial heap h = .error cause ∧ call.onList elements = .error cause := by
  obtain ⟨a, stands, holds⟩ := leads
  obtain ⟨heap', h', b, called, calledArray, more, few, standsAfter⟩ | ⟨cause, called, calledArray⟩ :=
    call.onHandle_cases stands initial
  · obtain ⟨b', after, again, calledList, holdsAfter⟩ | ⟨cause, refused, -⟩ := holds.call positive call
    · cases calledArray.symm.trans again
      exact .inl ⟨heap', h', after, called, calledList, more, few, b, standsAfter, holdsAfter⟩
    · cases calledArray.symm.trans refused
  · obtain ⟨b', after, again, -, -⟩ | ⟨cause', refused, calledList⟩ := holds.call positive call
    · cases calledArray.symm.trans again
    · cases calledArray.symm.trans refused
      exact .inr ⟨cause, called, calledList⟩

/-- What a call leaves as it was: nodes at their addresses and versions in their order. What it adds is at most one version,
and few nodes. -/
structure Shared.Grows (s s' : Shared α bits) : Prop where
  nodes : s.heap.Extends s'.heap
  handles : s.handles <+: s'.handles
  copies : ∀ h, s'.handles.getLast? = some h → s'.heap.nodes.size ≤ s.heap.nodes.size + (h.height + 2)

theorem Shared.grows_refl (s : Shared α bits) : s.Grows s :=
  ⟨fun _ _ found => found, List.prefix_refl _, fun _ _ => Nat.le_add_right _ _⟩

theorem leads_extend {lists : List (List α)} (positive : 0 < bits) (initial : α)
    (related : List.Forall₂ (Leads s.heap) s.handles lists) (call : Call α) :
    List.Forall₂ (Leads (s.extend initial call).heap) (s.extend initial call).handles (extend Call.onList lists call) ∧
      s.Grows (s.extend initial call) := by
  unfold Shared.extend extend
  obtain ⟨missing, missingList⟩ | ⟨h, elements, found, foundList, leads⟩ := getElem?_cases related call.version
  · rw [missing, missingList]
    exact ⟨related, s.grows_refl⟩
  · rw [found, foundList]
    obtain ⟨heap', h', after, called, calledList, more, few, leadsAfter⟩ | ⟨cause, called, calledList⟩ :=
      leads.call positive initial call
    · simp only [called, calledList]
      refine ⟨List.rel_append (related.imp fun _ _ leads => leads.extend more) (.cons leadsAfter .nil), more,
        List.prefix_append _ _, fun h last => ?_⟩
      rw [List.getLast?_concat] at last
      exact Option.some.inj last ▸ few
    · simp only [called, calledList]
      exact ⟨related, s.grows_refl⟩

theorem leads_extendAll {lists : List (List α)} (positive : 0 < bits) (initial : α)
    (related : List.Forall₂ (Leads s.heap) s.handles lists) (calls : List (Call α)) :
    let s' := calls.foldl (Shared.extend initial) s
    List.Forall₂ (Leads s'.heap) s'.handles (calls.foldl (extend Call.onList) lists) ∧
      s.heap.Extends s'.heap ∧ s.handles <+: s'.handles := by
  induction calls generalizing s lists with
  | nil => exact ⟨related, fun _ _ found => found, List.prefix_refl _⟩
  | cons call calls ih =>
    obtain ⟨relatedAfter, grows⟩ := leads_extend positive initial related call
    obtain ⟨relatedLast, more, longer⟩ := ih relatedAfter
    exact ⟨relatedLast, grows.nodes.trans more, grows.handles.trans longer⟩

/-- Whatever calls are made on whichever versions, each version is the list that these calls make, and stays that list
whatever calls come later. So do versions that share one heap of nodes: each is read from the nodes as they are at the end,
no node that was there is changed, and a call makes few new ones. -/
theorem versions_refine_lists (positive : 0 < bits) (calls later : List (Call α)) :
    List.Forall₂ Behaves (arrays bits calls) (lists calls) ∧
      (∀ (version : Nat) (a : RadixArray α bits) (elements : List α), (arrays bits calls)[version]? = some a →
        (lists calls)[version]? = some elements →
        (arrays bits (calls ++ later))[version]? = some a ∧ (lists (calls ++ later))[version]? = some elements ∧
          a.Behaves elements) ∧
      ∀ initial : α,
        let before := shared bits initial calls
        let after := shared bits initial (calls ++ later)
        List.Forall₂ (Reads before.heap) before.handles (lists calls) ∧ before.heap.Extends after.heap ∧
          (∀ (version : Nat) (h : ArrayHandle) (elements : List α), before.handles[version]? = some h →
            (lists calls)[version]? = some elements →
            after.handles[version]? = some h ∧ Reads after.heap h elements) ∧
          ∀ call, before.Grows (shared bits initial (calls ++ [call])) := by
  have related : List.Forall₂ Behaves (arrays bits calls) (lists calls) :=
    (holds_extendAll positive (.cons holds_nil .nil) calls).imp fun _ _ holds => holds.behaves positive
  refine ⟨related, fun version a elements found foundList => ⟨?_, ?_, ?_⟩, fun initial => ?_⟩
  · rw [arrays, List.foldl_append]
    exact getElem?_extendAll found later
  · rw [lists, List.foldl_append]
    exact getElem?_extendAll foundList later
  · exact rel_of_getElem? related found foundList
  · intro before after
    have start : List.Forall₂ (Leads ({} : Shared α bits).heap) [{}] [[]] :=
      .cons ⟨{}, ArrayHandle.stands_empty _, holds_nil⟩ .nil
    obtain ⟨leads, -⟩ := leads_extendAll positive initial start calls
    obtain ⟨-, more, longer⟩ := leads_extendAll positive initial leads later
    rw [← List.foldl_append] at more longer
    refine ⟨leads.imp fun _ _ leads => leads.reads, more, fun version h elements found foundList => ⟨?_, ?_⟩, fun call => ?_⟩
    · obtain ⟨added, same⟩ := longer
      obtain ⟨inside, -⟩ := List.getElem?_eq_some_iff.mp found
      rw [show after.handles = before.handles ++ added from same.symm, List.getElem?_append_left inside, found]
    · exact ((rel_of_getElem? leads found foundList).extend more).reads
    · obtain ⟨-, grows⟩ := leads_extend positive initial leads call
      rw [shared, List.foldl_append]
      exact grows

/-- Nodes of two places: the third element raises the root. Two versions branch off the one with three elements, and a
call beyond its end adds none. In the heap the roots of these three versions are at 4, 6 and 8, and the elements below them at
2 and 5, or at 7 and 9 where a call put one. -/
theorem versions_refine_lists_branching :
    let calls : List (Call Nat) := [.push 0 7, .push 1 8, .push 2 9, .set 3 0 5, .push 3 6, .set 3 3 4]
    0 < 1 ∧ List.Forall₂ Behaves (arrays 1 calls) (lists calls) ∧
      lists calls = [[], [7], [7, 8], [7, 8, 9], [5, 8, 9], [7, 8, 9, 6]] ∧
      List.Forall₂ (Reads (shared 1 0 calls).heap) (shared 1 0 calls).handles (lists calls) ∧
      (shared 1 0 calls).handles.map (·.root) = [none, some 1, some 2, some 4, some 6, some 8] ∧
      (shared 1 0 calls).heap.nodes.toList.map (·.children.toList) =
        [[none, none], [none, none], [none, none], [some 2, none], [some 2, some 5], [none, none], [some 7, some 5],
          [none, none], [some 2, some 9], [none, none]] := by
  intro calls
  obtain ⟨related, -, inHeap⟩ := versions_refine_lists (by decide : 0 < 1) calls []
  obtain ⟨reads, -⟩ := inHeap 0
  exact ⟨by decide, related, rfl, reads, by decide, by decide⟩

end SelfLambda.RadixArray
