/-! Persistent arrays. Elements lie at the bottom of a trie whose nodes have `width bits` places each; the digits of an
index to that base, from the top, are the places on the way to its element. An update copies the nodes on one such way
and shares all others, so every earlier array stays as it was. -/

namespace SelfLambda

namespace Trie

def width (bits : Nat) : Nat := Nat.pow 2 bits

theorem width_pos (bits : Nat) : 0 < width bits := Nat.two_pow_pos bits

end Trie

/-- A trie of the given height: an element at height 0, a node of partly filled places above. -/
def Trie (α : Type) (bits : Nat) : Nat → Type
  | 0 => α
  | height + 1 => Vector (Option (Trie α bits height)) (Trie.width bits)

namespace Trie

variable {α : Type} {bits : Nat}

/-- The digit of `index` that is its place in a node over tries of this height. -/
def digit (bits height index : Nat) : Fin (width bits) :=
  ⟨index / Nat.pow (width bits) height % width bits, Nat.mod_lt _ (width_pos bits)⟩

def emptyNode (height : Nat) : Trie α bits (height + 1) := Vector.replicate (width bits) none

def fill {height : Nat} (node : Trie α bits (height + 1)) (slot : Fin (width bits)) (child : Trie α bits height) :
    Trie α bits (height + 1) :=
  Vector.set node slot.val (some child) slot.isLt

def get? : {height : Nat} → Trie α bits height → Nat → Option α
  | 0, element, _ => some element
  | height + 1, node, index =>
    match Vector.get node (digit bits height index) with
    | none => none
    | some child => child.get? index

def put : (height : Nat) → Option (Trie α bits height) → Nat → α → Trie α bits height
  | 0, _, _, element => element
  | height + 1, node, index, element =>
    let node : Trie α bits (height + 1) := node.getD (emptyNode height)
    let slot := digit bits height index
    node.fill slot (put height (Vector.get node slot) index element)

end Trie

/-- The root, where there is one, is a trie one higher than `height`. -/
structure RadixArray (α : Type) (bits : Nat) where
  size : Nat := 0
  height : Nat := 0
  root : Option (Trie α bits (height + 1)) := none

namespace RadixArray

variable {α : Type} {bits : Nat}

inductive AccessError where
  | outOfRange
  | gap
  deriving DecidableEq, Repr

def AccessError.message : AccessError → String
  | outOfRange => "persistent array index out of range"
  | gap => "persistent array node missing"

def capacity (bits height : Nat) : Nat := Nat.pow (Trie.width bits) (height + 1)

def get (a : RadixArray α bits) (index : Nat) : Except AccessError α :=
  if index < a.size then
    match a.root.bind (fun root => root.get? index) with
    | some element => .ok element
    | none => .error .gap
  else .error .outOfRange

def set (a : RadixArray α bits) (index : Nat) (element : α) : Except AccessError (RadixArray α bits) :=
  if index < a.size then .ok { a with root := some (Trie.put (a.height + 1) a.root index element) }
  else .error .outOfRange

/-- Adds an element at the end. A full root goes into the first place of a new one. -/
def push (a : RadixArray α bits) (element : α) : RadixArray α bits :=
  match a.root with
  | none => { a with size := a.size + 1, root := some (Trie.put (a.height + 1) none a.size element) }
  | some root =>
    if a.size = capacity bits a.height then
      let raised := (Trie.emptyNode (a.height + 1)).fill ⟨0, Trie.width_pos bits⟩ root
      ⟨a.size + 1, a.height + 1, some (Trie.put (a.height + 2) (some raised) a.size element)⟩
    else { a with size := a.size + 1, root := some (Trie.put (a.height + 1) (some root) a.size element) }

def toList (a : RadixArray α bits) : List α := (List.range a.size).filterMap fun index => (a.get index).toOption

end RadixArray

end SelfLambda
