import SelfLambda.Proofs.Lookup
import SelfLambda.Proofs.RadixArray

/-! Arrays in a heap of nodes that they share. A node names its children by address. An update copies each node it comes
to, goes on below the copy, and on its return writes the new child into the copy; a read or a write at an address without a
node is refused. No update comes to such an address or changes a node that was there before it, so every array keeps its
trie, and as many nodes are new as the trie has levels. -/

namespace SelfLambda

/-- One kind of node for every level: the bottom uses its elements, a level above that its children. -/
structure TrieNode (α : Type) (bits : Nat) where
  children : Vector (Option Nat) (Trie.width bits)
  elements : Vector α (Trie.width bits)

def TrieNode.blank {α : Type} {bits : Nat} (initial : α) : TrieNode α bits :=
  ⟨Vector.replicate (Trie.width bits) none, Vector.replicate (Trie.width bits) initial⟩

structure NodeHeap (α : Type) (bits : Nat) where
  nodes : Array (TrieNode α bits) := #[]

namespace NodeHeap

variable {α : Type} {bits : Nat} {heap heap' : NodeHeap α bits} {area area' : Nat → Prop}

theorem and_mask (bits n : Nat) : n &&& (Trie.width bits - 1) = n % Trie.width bits :=
  Nat.and_two_pow_sub_one_eq_mod n bits

def place (bits level index : Nat) : Fin (Trie.width bits) :=
  ⟨(index >>> (level * bits)) &&& (Trie.width bits - 1), by rw [and_mask]; exact Nat.mod_lt _ (Trie.width_pos bits)⟩

theorem place_eq_digit (bits level index : Nat) : place bits level index = Trie.digit bits level index := by
  have power : Nat.pow (Trie.width bits) level = 2 ^ (level * bits) := (Nat.pow_mul' 2 level bits).symm
  rw [place, Trie.digit, Fin.mk.injEq, and_mask, Nat.shiftRight_eq_div_pow, power]

def allocate (heap : NodeHeap α bits) (node : TrieNode α bits) : NodeHeap α bits := ⟨heap.nodes.push node⟩

def update? (heap : NodeHeap α bits) (address : Nat) (f : TrieNode α bits → TrieNode α bits) : Option (NodeHeap α bits) := do
  let node ← heap.nodes[address]?
  return ⟨heap.nodes.setIfInBounds address (f node)⟩

def copy? (heap : NodeHeap α bits) (initial : α) : Option Nat → Option (NodeHeap α bits × Nat)
  | none => some (heap.allocate (.blank initial), heap.nodes.size)
  | some address => do
    let node ← heap.nodes[address]?
    return (heap.allocate node, heap.nodes.size)

/-- Puts an element at an index below a copy of the node, and tells the address of the copy. -/
def put? (initial : α) : Nat → NodeHeap α bits → Option Nat → Nat → α → Option (NodeHeap α bits × Nat)
  | 0, heap, node, index, element => do
    let (heap, copy) ← heap.copy? initial node
    let slot := place bits 0 index
    let heap ← heap.update? copy fun node => { node with elements := node.elements.set slot.val element slot.isLt }
    return (heap, copy)
  | level + 1, heap, node, index, element => do
    let (heap, copy) ← heap.copy? initial node
    let slot := place bits (level + 1) index
    let copied ← heap.nodes[copy]?
    let (heap, child) ← put? initial level heap (copied.children.get slot) index element
    let heap ← heap.update? copy fun node => { node with children := node.children.set slot.val (some child) slot.isLt }
    return (heap, copy)

def get? : Nat → NodeHeap α bits → Nat → Nat → Option α
  | 0, heap, address, index => do
    let node ← heap.nodes[address]?
    return node.elements.get (place bits 0 index)
  | level + 1, heap, address, index => do
    let node ← heap.nodes[address]?
    let child ← node.children.get (place bits (level + 1) index)
    get? level heap child index

/-- The node and those below it make up a trie, and those below it have addresses in the area only. -/
def Shapes (heap : NodeHeap α bits) (area : Nat → Prop) : (level : Nat) → TrieNode α bits → Trie α bits (level + 1) → Prop
  | 0, node, trie => ∀ slot element, Vector.get trie slot = some element → node.elements.get slot = element
  | level + 1, node, trie => ∀ slot, Option.Rel
      (fun address child => area address ∧ ∃ below, heap.nodes[address]? = some below ∧ heap.Shapes area level below child)
      (node.children.get slot) (Vector.get trie slot)

def Carries (heap : NodeHeap α bits) (area : Nat → Prop) (level address : Nat) (trie : Trie α bits (level + 1)) : Prop :=
  area address ∧ ∃ node, heap.nodes[address]? = some node ∧ heap.Shapes area level node trie

theorem shapes_succ {level : Nat} {node : TrieNode α bits} {trie : Trie α bits (level + 2)} :
    heap.Shapes area (level + 1) node trie ↔
      ∀ slot, Option.Rel (heap.Carries area level) (node.children.get slot) (Vector.get trie slot) := Iff.rfl

/-- Only nodes of the area matter to a trie in it. -/
theorem Shapes.frame (keeps : ∀ address node, area address → heap.nodes[address]? = some node →
      area' address ∧ heap'.nodes[address]? = some node) :
    ∀ {level : Nat} {node : TrieNode α bits} {trie : Trie α bits (level + 1)}, heap.Shapes area level node trie →
      heap'.Shapes area' level node trie
  | 0, _, _, shapes => shapes
  | _ + 1, _, _, shapes => fun slot => rel_imp (shapes slot) fun address _ ⟨inside, below, found, shapesBelow⟩ =>
      have ⟨insideAfter, foundAfter⟩ := keeps address below inside found
      ⟨insideAfter, below, foundAfter, shapesBelow.frame keeps⟩

theorem Carries.frame {level address : Nat} {trie : Trie α bits (level + 1)}
    (keeps : ∀ address node, area address → heap.nodes[address]? = some node →
      area' address ∧ heap'.nodes[address]? = some node)
    (carries : heap.Carries area level address trie) : heap'.Carries area' level address trie := by
  obtain ⟨inside, node, found, shapes⟩ := carries
  obtain ⟨insideAfter, foundAfter⟩ := keeps address node inside found
  exact ⟨insideAfter, node, foundAfter, shapes.frame keeps⟩

theorem shapes_blank (heap : NodeHeap α bits) (area : Nat → Prop) (initial : α) (level : Nat) :
    heap.Shapes area level (.blank initial) (Trie.emptyNode level) := by
  cases level with
  | zero =>
    intro slot element found
    rw [Trie.get_emptyNode] at found
    cases found
  | succ level =>
    rw [shapes_succ]
    intro slot
    have blank : (TrieNode.blank initial : TrieNode α bits).children.get slot = none := Vector.getElem_replicate slot.isLt
    rw [Trie.get_emptyNode, blank]
    exact .none

theorem get_set {β : Type} (places : Vector β (Trie.width bits)) (slot other : Fin (Trie.width bits)) (x : β) :
    (places.set slot.val x slot.isLt).get other = if slot = other then x else places.get other := by
  simp only [Fin.ext_iff]
  exact Vector.getElem_set slot.isLt other.isLt

theorem Shapes.write {node : TrieNode α bits} {trie : Trie α bits 1} (shapes : heap.Shapes area 0 node trie)
    (slot : Fin (Trie.width bits)) (element : α) :
    heap.Shapes area 0 { node with elements := node.elements.set slot.val element slot.isLt } (trie.fill slot element) := by
  intro other found there
  have filled := Trie.get_fill trie slot other element
  rw [there] at filled
  rw [get_set]
  split at filled
  next same => rw [if_pos same, Option.some.inj filled]
  next different => rw [if_neg different, shapes other found filled.symm]

theorem Shapes.link {level address : Nat} {node : TrieNode α bits} {trie : Trie α bits (level + 2)}
    {child : Trie α bits (level + 1)} (shapes : heap.Shapes area (level + 1) node trie)
    (carries : heap.Carries area level address child) (slot : Fin (Trie.width bits)) :
    heap.Shapes area (level + 1) { node with children := node.children.set slot.val (some address) slot.isLt }
      (trie.fill slot child) := by
  rw [shapes_succ] at shapes ⊢
  intro other
  rw [Trie.get_fill, get_set]
  split
  next => exact .some carries
  next => exact shapes other

theorem lt_size {address : Nat} {node : TrieNode α bits} (found : heap.nodes[address]? = some node) :
    address < heap.nodes.size := by
  obtain ⟨below, -⟩ := Array.getElem?_eq_some_iff.mp found
  exact below

theorem size_allocate (heap : NodeHeap α bits) (node : TrieNode α bits) :
    (heap.allocate node).nodes.size = heap.nodes.size + 1 := Array.size_push node

theorem getElem?_allocate_size (heap : NodeHeap α bits) (node : TrieNode α bits) :
    (heap.allocate node).nodes[heap.nodes.size]? = some node := Array.getElem?_push_size

theorem getElem?_allocate_of_lt {address : Nat} (node : TrieNode α bits) (below : address < heap.nodes.size) :
    (heap.allocate node).nodes[address]? = heap.nodes[address]? := by
  rw [allocate, Array.getElem?_push, if_neg (Nat.ne_of_lt below)]

theorem update?_of_getElem? {address : Nat} {node : TrieNode α bits} (found : heap.nodes[address]? = some node)
    (f : TrieNode α bits → TrieNode α bits) : ∃ heap', heap.update? address f = some heap' ∧
      heap'.nodes.size = heap.nodes.size ∧ heap'.nodes[address]? = some (f node) ∧
      ∀ other, other ≠ address → heap'.nodes[other]? = heap.nodes[other]? := by
  refine ⟨⟨heap.nodes.setIfInBounds address (f node)⟩, by rw [update?, found]; rfl, Array.size_setIfInBounds, ?_, ?_⟩
  · rw [getElem?_replaced found, if_pos rfl]
  · intro other different
    rw [getElem?_replaced found, if_neg different]

theorem copy?_of_carries {level : Nat} {node : Option Nat} {trie : Option (Trie α bits (level + 1))}
    (carried : Option.Rel (heap.Carries area level) node trie) (initial : α) :
    ∃ copied, heap.copy? initial node = some (heap.allocate copied, heap.nodes.size) ∧
      heap.Shapes area level copied (trie.getD (Trie.emptyNode level)) := by
  cases carried with
  | none => exact ⟨.blank initial, rfl, shapes_blank heap area initial level⟩
  | some carries =>
    obtain ⟨-, copied, found, shapes⟩ := carries
    exact ⟨copied, by rw [copy?, found]; rfl, shapes⟩

/-- A child that was made after a copy of its parent is written into the copy. The copy lies between the old nodes and the
new ones below it, so no trie notices the write. -/
theorem update?_copy {level child : Nat} {copied : TrieNode α bits} {trie : Trie α bits (level + 2)}
    {below : NodeHeap α bits} {sub : Trie α bits (level + 1)} (shapes : heap.Shapes area (level + 1) copied trie)
    (old : ∀ address, area address → address < heap.nodes.size)
    (kept : ∀ other < heap.nodes.size + 1, below.nodes[other]? = (heap.allocate copied).nodes[other]?)
    (carries : below.Carries (fun other => area other ∨ heap.nodes.size + 1 ≤ other) level child sub)
    (slot : Fin (Trie.width bits)) :
    ∃ heap', (below.update? heap.nodes.size fun node =>
        { node with children := node.children.set slot.val (some child) slot.isLt }) = some heap' ∧
      heap'.nodes.size = below.nodes.size ∧ (∀ other < heap.nodes.size, heap'.nodes[other]? = heap.nodes[other]?) ∧
      heap'.Carries (fun other => area other ∨ heap.nodes.size ≤ other) (level + 1) heap.nodes.size
        (trie.fill slot sub) := by
  have fresh : below.nodes[heap.nodes.size]? = some copied := by
    rw [kept _ (Nat.lt_succ_self _), getElem?_allocate_size]
  obtain ⟨heap', updated, size, written, others⟩ := update?_of_getElem? fresh fun node =>
    { node with children := node.children.set slot.val (some child) slot.isLt }
  have keptAfter (other : Nat) (inside : other < heap.nodes.size) : heap'.nodes[other]? = heap.nodes[other]? := by
    rw [others other (Nat.ne_of_lt inside), kept other (Nat.lt_succ_of_lt inside), getElem?_allocate_of_lt copied inside]
  have shapesAfter : heap'.Shapes (fun other => area other ∨ heap.nodes.size ≤ other) (level + 1) copied trie := by
    refine shapes.frame fun address node inside found => ⟨.inl inside, ?_⟩
    rw [keptAfter address (old address inside), found]
  have carriesAfter : heap'.Carries (fun other => area other ∨ heap.nodes.size ≤ other) level child sub := by
    refine carries.frame fun other node inside found => ?_
    have apart : other ≠ heap.nodes.size := by
      rcases inside with inside | later
      · exact Nat.ne_of_lt (old other inside)
      · exact Nat.ne_of_gt later
    exact ⟨inside.imp_right Nat.le_of_succ_le, (others other apart).trans found⟩
  exact ⟨heap', updated, size, keptAfter, .inr (Nat.le_refl _), _, written, shapesAfter.link carriesAfter slot⟩

/-- An update finds every node it needs, adds one node for each level, and leaves those that were there as they were. Its
trie lies in the area of the old one and in new nodes. -/
theorem put?_of_carries (initial : α) {level : Nat} {node : Option Nat} {trie : Option (Trie α bits (level + 1))}
    (carried : Option.Rel (heap.Carries area level) node trie) (old : ∀ address, area address → address < heap.nodes.size)
    (index : Nat) (element : α) : ∃ heap' address, put? initial level heap node index element = some (heap', address) ∧
      heap'.nodes.size = heap.nodes.size + (level + 1) ∧
      (∀ other < heap.nodes.size, heap'.nodes[other]? = heap.nodes[other]?) ∧
      heap'.Carries (fun other => area other ∨ heap.nodes.size ≤ other) level address
        (Trie.put (level + 1) trie index element) := by
  induction level generalizing heap node with
  | zero =>
    obtain ⟨copied, copiedHere, shapes⟩ := copy?_of_carries carried initial
    obtain ⟨heap', updated, size, written, others⟩ := update?_of_getElem? (getElem?_allocate_size heap copied) fun node =>
      { node with elements := node.elements.set (place bits 0 index).val element (place bits 0 index).isLt }
    have filled := shapes.write (place bits 0 index) element
    refine ⟨heap', heap.nodes.size, ?_, ?_, ?_, .inr (Nat.le_refl _), _, written, ?_⟩
    · simp only [put?, copiedHere, Option.bind_eq_bind, Option.bind_some, updated, Option.pure_def]
    · rw [size, size_allocate]
    · intro other below
      rw [others other (Nat.ne_of_lt below), getElem?_allocate_of_lt copied below]
    · rw [place_eq_digit] at filled ⊢
      exact filled
  | succ level ih =>
    obtain ⟨copied, copiedHere, shapes⟩ := copy?_of_carries carried initial
    have shapesCopied : (heap.allocate copied).Shapes area (level + 1) copied
        (trie.getD (Trie.emptyNode (level + 1))) := by
      refine shapes.frame fun address node inside found => ⟨inside, ?_⟩
      rw [getElem?_allocate_of_lt copied (old address inside), found]
    have oldCopied (address : Nat) (inside : area address) : address < (heap.allocate copied).nodes.size := by
      rw [size_allocate]
      exact Nat.lt_succ_of_lt (old address inside)
    obtain ⟨below, child, put, sizeBelow, keptBelow, carries⟩ :=
      ih (shapes_succ.mp shapesCopied (place bits (level + 1) index)) oldCopied
    rw [size_allocate] at sizeBelow keptBelow carries
    obtain ⟨heap', updated, size, kept, carriesAfter⟩ := update?_copy shapes old keptBelow carries (place bits (level + 1) index)
    refine ⟨heap', heap.nodes.size, ?_, ?_, kept, ?_⟩
    · simp only [put?, copiedHere, Option.bind_eq_bind, Option.bind_some, getElem?_allocate_size, put, updated,
        Option.pure_def]
    · rw [size, sizeBelow, Nat.add_assoc, Nat.add_comm 1]
    · rw [place_eq_digit] at carriesAfter
      exact carriesAfter

theorem get?_of_carries {level address index : Nat} {trie : Trie α bits (level + 1)} {element : α}
    (carries : heap.Carries area level address trie) (found : trie.get? index = some element) :
    get? level heap address index = some element := by
  induction level generalizing address with
  | zero =>
    obtain ⟨-, node, there, shapes⟩ := carries
    rw [Trie.get?_succ] at found
    obtain ⟨held, heldThere, held_eq⟩ := Option.bind_eq_some_iff.mp found
    rw [get?, there, place_eq_digit]
    exact congrArg some ((shapes _ held heldThere).trans (Option.some.inj held_eq))
  | succ level ih =>
    obtain ⟨-, node, there, shapes⟩ := carries
    rw [Trie.get?_succ] at found
    obtain ⟨below, belowThere, foundBelow⟩ := Option.bind_eq_some_iff.mp found
    have related := shapes_succ.mp shapes (Trie.digit bits (level + 1) index)
    rw [belowThere] at related
    obtain ⟨child, childThere, carries⟩ := eq_some_of_rel related
    simp only [get?, there, place_eq_digit, childThere, Option.bind_eq_bind, Option.bind_some]
    exact ih carries foundBelow

def Extends (heap heap' : NodeHeap α bits) : Prop :=
  ∀ (address : Nat) (node : TrieNode α bits), heap.nodes[address]? = some node → heap'.nodes[address]? = some node

theorem Extends.trans {heap'' : NodeHeap α bits} (first : heap.Extends heap') (second : heap'.Extends heap'') :
    heap.Extends heap'' := by
  intro address node found
  exact second address node (first address node found)

theorem extends_of_kept (kept : ∀ other < heap.nodes.size, heap'.nodes[other]? = heap.nodes[other]?) :
    heap.Extends heap' := by
  intro address node found
  rw [kept address (lt_size found), found]

theorem extends_allocate (heap : NodeHeap α bits) (node : TrieNode α bits) : heap.Extends (heap.allocate node) :=
  extends_of_kept fun _ below => getElem?_allocate_of_lt node below

theorem Extends.carries {level address : Nat} {trie : Trie α bits (level + 1)} (more : heap.Extends heap')
    (carries : heap.Carries area level address trie) : heap'.Carries (· < heap'.nodes.size) level address trie :=
  carries.frame fun address node _ found => ⟨lt_size (more address node found), more address node found⟩

theorem carries_allocate {level : Nat} {node : TrieNode α bits} {trie : Trie α bits (level + 1)}
    (shapes : heap.Shapes area level node trie) :
    (heap.allocate node).Carries (· < (heap.allocate node).nodes.size) level heap.nodes.size trie := by
  have fresh := getElem?_allocate_size heap node
  refine ⟨lt_size fresh, node, fresh, shapes.frame fun address other _ found => ?_⟩
  have still := extends_allocate heap node address other found
  exact ⟨lt_size still, still⟩

end NodeHeap

structure ArrayHandle where
  size : Nat := 0
  height : Nat := 0
  root : Option Nat := none
  deriving DecidableEq, Repr

namespace ArrayHandle

open RadixArray (AccessError)

variable {α : Type} {bits : Nat} {heap heap' : NodeHeap α bits} {h : ArrayHandle} {a : RadixArray α bits} {elements : List α}

def get (h : ArrayHandle) (heap : NodeHeap α bits) (index : Nat) : Except AccessError α :=
  if h.size ≤ index then .error .outOfRange
  else match h.root.bind fun root => NodeHeap.get? h.height heap root index with
    | some element => .ok element
    | none => .error .gap

def build (initial : α) (heap : NodeHeap α bits) (size height : Nat) (root : Option Nat) (index : Nat) (element : α) :
    Except AccessError (NodeHeap α bits × ArrayHandle) :=
  match NodeHeap.put? initial height heap root index element with
  | some (heap, root) => .ok (heap, ⟨size, height, some root⟩)
  | none => .error .gap

def set (h : ArrayHandle) (initial : α) (heap : NodeHeap α bits) (index : Nat) (element : α) :
    Except AccessError (NodeHeap α bits × ArrayHandle) :=
  if h.size ≤ index then .error .outOfRange
  else build initial heap h.size h.height h.root index element

def push (h : ArrayHandle) (initial : α) (heap : NodeHeap α bits) (element : α) :
    Except AccessError (NodeHeap α bits × ArrayHandle) :=
  match h.root with
  | none => build initial (heap.allocate (.blank initial)) (h.size + 1) h.height (some heap.nodes.size) h.size element
  | some root =>
    if h.size = 1 <<< ((h.height + 1) * bits) then
      let blank : TrieNode α bits := .blank initial
      let top := { blank with children := blank.children.set 0 (some root) (Trie.width_pos bits) }
      build initial (heap.allocate top) (h.size + 1) (h.height + 1) (some heap.nodes.size) h.size element
    else build initial heap (h.size + 1) h.height (some root) h.size element

theorem shiftLeft_eq_capacity (bits height : Nat) : 1 <<< ((height + 1) * bits) = RadixArray.capacity bits height := by
  rw [Nat.one_shiftLeft]
  exact Nat.pow_mul' 2 (height + 1) bits

/-- The nodes below the root make up the trie of the array. -/
structure Stands (heap : NodeHeap α bits) (h : ArrayHandle) (a : RadixArray α bits) : Prop where
  size : h.size = a.size
  height : h.height = a.height
  root : Option.Rel (heap.Carries (· < heap.nodes.size) a.height) h.root a.root

theorem stands_empty (heap : NodeHeap α bits) : Stands heap {} {} := ⟨rfl, rfl, .none⟩

theorem Stands.extend (stands : Stands heap h a) (more : heap.Extends heap') : Stands heap' h a :=
  ⟨stands.size, stands.height, rel_imp stands.root fun _ _ carries => more.carries carries⟩

theorem Stands.get_eq (stands : Stands heap h a) (holds : a.Holds elements) (i : Nat) :
    h.get heap i = match elements[i]? with
      | some element => .ok element
      | none => .error .outOfRange := by
  obtain ⟨size, height, root⟩ := h
  obtain ⟨rfl, rfl, rooted⟩ := stands
  unfold get
  simp only
  rw [holds.size_eq]
  by_cases below : i < elements.length
  · rw [if_neg (Nat.not_le_of_lt below), List.getElem?_eq_getElem below]
    have found := holds.element i below
    rw [List.getElem?_eq_getElem below] at found
    obtain ⟨trie, rootThere, foundTrie⟩ := Option.bind_eq_some_iff.mp found
    rw [rootThere] at rooted
    obtain ⟨address, rfl, carries⟩ := eq_some_of_rel rooted
    rw [Option.bind_some, NodeHeap.get?_of_carries carries foundTrie]
  · rw [if_pos (Nat.le_of_not_lt below), List.getElem?_eq_none (Nat.le_of_not_lt below)]

theorem build_stands (initial : α) {height : Nat} {root : Option Nat} {trie : Option (Trie α bits (height + 1))}
    (rooted : Option.Rel (heap.Carries (· < heap.nodes.size) height) root trie) (size index : Nat) (element : α) :
    ∃ heap' h', build initial heap size height root index element = .ok (heap', h') ∧ heap.Extends heap' ∧
      heap'.nodes.size = heap.nodes.size + (h'.height + 1) ∧
      Stands heap' h' ⟨size, height, some (Trie.put (height + 1) trie index element)⟩ := by
  obtain ⟨heap', address, put, grown, kept, carries⟩ :=
    NodeHeap.put?_of_carries initial rooted (fun _ inside => inside) index element
  refine ⟨heap', ⟨size, height, some address⟩, by rw [build, put], NodeHeap.extends_of_kept kept, grown, rfl, rfl, .some ?_⟩
  exact carries.frame fun _ _ _ found => ⟨NodeHeap.lt_size found, found⟩

/-- An element put at an index of the array: its trie is the one with the element put there, and as many nodes are new as
the trie has levels. -/
theorem Stands.set (stands : Stands heap h a) (initial : α) (index : Nat) (element : α) :
    (∃ heap' h' b, h.set initial heap index element = .ok (heap', h') ∧ a.set index element = .ok b ∧
      heap.Extends heap' ∧ heap'.nodes.size = heap.nodes.size + (h'.height + 1) ∧ Stands heap' h' b) ∨
    (h.set initial heap index element = .error .outOfRange ∧ a.set index element = .error .outOfRange) := by
  obtain ⟨size, height, root⟩ := h
  obtain ⟨rfl, rfl, rooted⟩ := stands
  by_cases below : index < a.size
  · obtain ⟨heap', h', built, more, grown, after⟩ := build_stands initial rooted a.size index element
    refine .inl ⟨heap', h', _, ?_, ?_, more, grown, after⟩
    · rw [ArrayHandle.set, if_neg (Nat.not_le_of_lt below), built]
    · rw [RadixArray.set, if_pos below]
  · refine .inr ⟨?_, ?_⟩
    · rw [ArrayHandle.set, if_pos (Nat.le_of_not_lt below)]
    · rw [RadixArray.set, if_neg below]

theorem carries_top {height root : Nat} {trie : Trie α bits (height + 1)} (initial : α)
    (carries : heap.Carries (· < heap.nodes.size) height root trie) :
    let blank : TrieNode α bits := .blank initial
    let top := { blank with children := blank.children.set 0 (some root) (Trie.width_pos bits) }
    (heap.allocate top).Carries (· < (heap.allocate top).nodes.size) (height + 1) heap.nodes.size
      ((Trie.emptyNode (height + 1)).fill ⟨0, Trie.width_pos bits⟩ trie) := by
  intro blank top
  have shapes := NodeHeap.shapes_blank heap (· < heap.nodes.size) initial (height + 1)
  exact NodeHeap.carries_allocate (shapes.link carries ⟨0, Trie.width_pos bits⟩)

theorem Stands.push (stands : Stands heap h a) (initial : α) (element : α) :
    ∃ heap' h', h.push initial heap element = .ok (heap', h') ∧ heap.Extends heap' ∧
      heap'.nodes.size ≤ heap.nodes.size + (h'.height + 2) ∧ Stands heap' h' (a.push element) := by
  obtain ⟨size, height, root⟩ := h
  obtain ⟨sizeA, heightA, rootA⟩ := a
  obtain ⟨rfl, rfl, rooted⟩ := stands
  change Option.Rel _ root rootA at rooted
  cases rooted with
  | none =>
    have blank := NodeHeap.carries_allocate (NodeHeap.shapes_blank heap (· < heap.nodes.size) initial height)
    obtain ⟨heap', h', built, more, grown, after⟩ := build_stands initial (.some blank) (size + 1) size element
    refine ⟨heap', h', built, (NodeHeap.extends_allocate heap _).trans more, ?_, after⟩
    rw [grown, NodeHeap.size_allocate]
    omega
  | @some address trie carries =>
    simp only [ArrayHandle.push, RadixArray.push, shiftLeft_eq_capacity]
    by_cases full : size = RadixArray.capacity bits height
    · simp only [if_pos full]
      obtain ⟨heap', h', built, more, grown, after⟩ :=
        build_stands initial (.some (carries_top initial carries)) (size + 1) size element
      refine ⟨heap', h', built, (NodeHeap.extends_allocate heap _).trans more, ?_, after⟩
      rw [grown, NodeHeap.size_allocate]
      omega
    · simp only [if_neg full]
      obtain ⟨heap', h', built, more, grown, after⟩ := build_stands initial (.some carries) (size + 1) size element
      refine ⟨heap', h', built, more, ?_, after⟩
      rw [grown]
      omega

end ArrayHandle

end SelfLambda
