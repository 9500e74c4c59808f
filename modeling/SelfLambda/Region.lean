/-! Regions hand out places for objects block by block and give them all back at once. How many objects a region holds
is worked out from the number of its blocks and a cursor into the newest one; the cursor is zero both when there is no
block and when the newest one is full. -/

namespace SelfLambda

def Region.defaultBlockSize : Nat := 1024

/-- Blocks are listed newest first. -/
structure Region (α : Type) where
  blockSize : Nat := Region.defaultBlockSize
  blocks : List (Array α) := []
  next : Nat := 0
  deriving Repr

namespace Region

variable {α : Type}

def size (r : Region α) : Nat :=
  if r.next = 0 then r.blockSize * r.blocks.length
  else r.blockSize * (r.blocks.length - 1) + r.next

/-- Puts an object at the cursor, in a new block if the cursor is zero. Only calls whose
constructor returns are meant: one that throws makes no object. -/
def make (r : Region α) (object : α) : Region α :=
  let blocks := if r.next = 0 then #[] :: r.blocks else r.blocks
  let blocks := match blocks with
    | [] => []
    | newest :: older => newest.push object :: older
  { r with blocks, next := if r.blockSize ≤ r.next + 1 then 0 else r.next + 1 }

def contents (r : Region α) : List α := (r.blocks.reverse.map Array.toList).flatten

/-- The objects that giving the blocks back destroys: of the newest block those before the cursor, unless that is zero,
and of every other block as many as a block holds. -/
def released (r : Region α) : List α :=
  let count := if r.next = 0 then r.blockSize else r.next
  match r.blocks with
  | [] => []
  | newest :: older =>
    (older.reverse.map fun block => (block.extract 0 r.blockSize).toList).flatten ++ (newest.extract 0 count).toList

def emptied (r : Region α) : Region α := { r with blocks := [], next := 0 }

end Region

/-- Regions by number, over which objects are numbered in the order in which they are made. -/
structure Regions (α : Type) where
  regions : Array (Region (Nat × α)) := #[]
  made : Nat := 0

namespace Regions

variable {α : Type}

def create (rs : Regions α) (blockSize : Nat) : Regions α :=
  { rs with regions := rs.regions.push { blockSize } }

def make? (rs : Regions α) (p : Nat) (object : α) : Option (Regions α) := do
  let region ← rs.regions[p]?
  return { regions := rs.regions.setIfInBounds p (region.make (rs.made, object)), made := rs.made + 1 }

def reset? (rs : Regions α) (p : Nat) : Option (Regions α × List (Nat × α)) := do
  let region ← rs.regions[p]?
  return ({ rs with regions := rs.regions.setIfInBounds p region.emptied }, region.released)

def swap? (rs : Regions α) (p q : Nat) : Option (Regions α) := do
  let first ← rs.regions[p]?
  let second ← rs.regions[q]?
  return { rs with regions := (rs.regions.setIfInBounds p second).setIfInBounds q first }

/-- Assigns region `q` to region `p`. What `p` held is not lost: it goes to `q`. -/
def assign? (rs : Regions α) (p q : Nat) : Option (Regions α) := rs.swap? p q

def move? (rs : Regions α) (p : Nat) : Option (Regions α) := do
  let region ← rs.regions[p]?
  return { rs with regions := (rs.regions.setIfInBounds p region.emptied).push region }

def read? (rs : Regions α) (number : Nat) : Option α :=
  rs.regions.toList.findSome? fun region =>
    (region.contents.find? fun object => object.1 == number).map Prod.snd

def sizes (rs : Regions α) : List Nat := rs.regions.toList.map Region.size

end Regions

end SelfLambda
