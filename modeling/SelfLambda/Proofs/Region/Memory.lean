import Mathlib.Data.List.Forall2
import Mathlib.Data.List.Nodup
import SelfLambda.Proofs.Region

/-! Regions in a memory of places. Here a region knows only the numbers of its blocks and its cursor; objects are put in
places, destroyed there, and blocks are given back, and each of these is refused where it would be a mistake: to use a place
twice, to destroy an object that is not there, to give back a block that is not there, is of another size or still has objects
in it. Every call that the regions allow is made without a mistake, with the same sizes and the same objects destroyed, and each
object stays at the address where it was made. -/

namespace SelfLambda

/-- Blocks of places by number. A place is free or has an object in it; a block that was given back is no more. -/
structure Memory (α : Type) where
  blocks : Array (Option (List (Option α))) := #[]

namespace Memory

variable {α : Type} {m m' : Memory α}

def places? (m : Memory α) (block : Nat) : Option (List (Option α)) := m.blocks[block]?.join

def allocate (m : Memory α) (count : Nat) : Memory α × Nat :=
  (⟨m.blocks.push (some (List.replicate count none))⟩, m.blocks.size)

def construct? (m : Memory α) (block place : Nat) (object : α) : Option (Memory α) := do
  let places ← m.places? block
  match places[place]? with
  | some none => some ⟨m.blocks.setIfInBounds block (some (places.set place (some object)))⟩
  | _ => none

def vacate? : Nat → List (Option α) → Option (List (Option α) × List α)
  | 0, places => some (places, [])
  | count + 1, some object :: places => do
    let (places, objects) ← vacate? count places
    return (none :: places, object :: objects)
  | _ + 1, _ => none

def destroy? (m : Memory α) (block count : Nat) : Option (Memory α × List α) := do
  let places ← m.places? block
  let (places, objects) ← vacate? count places
  return (⟨m.blocks.setIfInBounds block (some places)⟩, objects)

def deallocate? (m : Memory α) (block count : Nat) : Option (Memory α) := do
  let places ← m.places? block
  if places.length = count ∧ places.all Option.isNone then some ⟨m.blocks.setIfInBounds block none⟩ else none

def load? (m : Memory α) (address : Nat × Nat) : Option α := do
  let places ← m.places? address.1
  places[address.2]?.join

theorem places?_set {block : Nat} {old : List (Option α)} (there : m.places? block = some old) (new : Option (List (Option α)))
    (other : Nat) : (⟨m.blocks.setIfInBounds block new⟩ : Memory α).places? other =
      if other = block then new else m.places? other := by
  have found : m.blocks[block]? = some (some old) := Option.join_eq_some_iff.mp there
  rw [places?, getElem?_replaced found]
  split <;> rfl

theorem places?_allocate (m : Memory α) (count other : Nat) : (m.allocate count).1.places? other =
    if other = m.blocks.size then some (List.replicate count none) else m.places? other := by
  rw [places?, allocate, Array.getElem?_push]
  split <;> rfl

theorem lt_of_places? {block : Nat} {places : List (Option α)} (there : m.places? block = some places) :
    block < m.blocks.size := by
  obtain ⟨below, -⟩ := Array.getElem?_eq_some_iff.mp (Option.join_eq_some_iff.mp there)
  exact below

def spread (count : Nat) (objects : List α) : List (Option α) :=
  objects.map some ++ List.replicate (count - objects.length) none

theorem getElem?_spread {count place : Nat} {objects : List α} {object : α} (found : objects[place]? = some object) :
    (spread count objects)[place]? = some (some object) := by
  obtain ⟨below, -⟩ := List.getElem?_eq_some_iff.mp found
  rw [spread, List.getElem?_append_left (by rwa [List.length_map]), List.getElem?_map, found]
  rfl

theorem construct?_spread {block count : Nat} {objects : List α} (there : m.places? block = some (spread count objects))
    (room : objects.length < count) (object : α) : ∃ m', m.construct? block objects.length object = some m' ∧
      ∀ other, m'.places? other = if other = block then some (spread count (objects ++ [object])) else m.places? other := by
  obtain ⟨left, rest⟩ : ∃ left, count - objects.length = left + 1 := ⟨count - objects.length - 1, by omega⟩
  have next : count - (objects ++ [object]).length = left := by
    rw [List.length_append, List.length_singleton]
    omega
  have split : spread count objects = objects.map some ++ none :: List.replicate left none := by
    rw [spread, rest, List.replicate_succ]
  have free : (spread count objects)[objects.length]? = some none := by
    rw [split, List.getElem?_append_right (Nat.le_of_eq (List.length_map _)), List.length_map, Nat.sub_self]
    rfl
  have filled : (spread count objects).set objects.length (some object) = spread count (objects ++ [object]) := by
    rw [split, List.set_append_right _ _ (Nat.le_of_eq (List.length_map _)), List.length_map, Nat.sub_self, spread,
      next, List.map_append, List.append_assoc]
    rfl
  refine ⟨⟨m.blocks.setIfInBounds block (some (spread count (objects ++ [object])))⟩, ?_, places?_set there _⟩
  simp only [construct?, there, Option.bind_eq_bind, Option.bind_some, free, filled]

theorem vacate?_map_some (objects : List α) (rest : List (Option α)) :
    vacate? objects.length (objects.map some ++ rest) = some (List.replicate objects.length none ++ rest, objects) := by
  induction objects with
  | nil => rfl
  | cons object objects ih =>
    rw [List.length_cons, List.map_cons, List.cons_append, vacate?, ih]
    rfl

theorem clear?_spread {block count : Nat} {objects : List α} (there : m.places? block = some (spread count objects))
    (within : objects.length ≤ count) : ∃ m' m'', m.destroy? block objects.length = some (m', objects) ∧
      m'.deallocate? block count = some m'' ∧
      ∀ other, m''.places? other = if other = block then none else m.places? other := by
  have free : List.replicate objects.length none ++ List.replicate (count - objects.length) none =
      List.replicate count (none : Option α) := by
    rw [List.replicate_append_replicate, Nat.add_sub_cancel' within]
  have vacated : vacate? objects.length (spread count objects) = some (List.replicate count none, objects) := by
    rw [spread, vacate?_map_some, free]
  let m' : Memory α := ⟨m.blocks.setIfInBounds block (some (List.replicate count none))⟩
  have left : m'.places? block = some (List.replicate count none) := by
    rw [places?_set there, if_pos rfl]
  refine ⟨m', ⟨m'.blocks.setIfInBounds block none⟩, ?_, ?_, ?_⟩
  · simp only [destroy?, there, vacated, Option.bind_eq_bind, Option.bind_some, Option.pure_def, m']
  · have empty : (List.replicate count (none : Option α)).all Option.isNone = true := by simp
    rw [deallocate?, left]
    exact if_pos ⟨List.length_replicate, empty⟩
  · intro other
    rw [places?_set left, places?_set there]
    split <;> rfl

end Memory

structure Arena where
  blockSize : Nat
  blocks : List Nat := []
  next : Nat := 0

namespace Arena

variable {α : Type}

def size (a : Arena) : Nat :=
  if a.next = 0 then a.blockSize * a.blocks.length
  else a.blockSize * (a.blocks.length - 1) + a.next

/-- Puts an object at the cursor of the newest block, for which a new one is allocated if the cursor is zero. Tells the
address of the object. -/
def make? (a : Arena) (m : Memory α) (object : α) : Option (Arena × Memory α × (Nat × Nat)) := do
  let (blocks, m) := if a.next = 0 then
      let (m, block) := m.allocate a.blockSize
      (a.blocks ++ [block], m)
    else (a.blocks, m)
  let block ← blocks.getLast?
  let m ← m.construct? block a.next object
  return ({ a with blocks, next := if a.blockSize ≤ a.next + 1 then 0 else a.next + 1 }, m, (block, a.next))

def release? (a : Arena) : List Nat → Memory α → Option (Memory α × List α)
  | [], m => some (m, [])
  | block :: later, m => do
    let count := if later.isEmpty ∧ 0 < a.next then a.next else a.blockSize
    let (m, objects) ← m.destroy? block count
    let m ← m.deallocate? block a.blockSize
    let (m, others) ← a.release? later m
    return (m, objects ++ others)

def emptied (a : Arena) : Arena := { a with blocks := [], next := 0 }

variable {m m' : Memory (Nat × α)} {addresses addresses' : Array (Nat × Nat)} {a : Arena} {r : Region (Nat × α)}

/-- A block in memory has these objects from its first place on, and each is found at the address that is known for it. -/
structure Fills (m : Memory (Nat × α)) (addresses : Array (Nat × Nat)) (count block : Nat) (objects : Array (Nat × α)) :
    Prop where
  places : m.places? block = some (Memory.spread count objects.toList)
  address : ∀ (place : Nat) (object : Nat × α), objects[place]? = some object → addresses[object.1]? = some (block, place)

structure Lies (m : Memory (Nat × α)) (addresses : Array (Nat × Nat)) (a : Arena) (r : Region (Nat × α)) : Prop where
  blockSize : a.blockSize = r.blockSize
  next : a.next = r.next
  distinct : a.blocks.Nodup
  blocks : List.Forall₂ (Fills m addresses r.blockSize) a.blocks.reverse r.blocks

theorem Lies.size_eq (lies : Lies m addresses a r) : a.size = r.size := by
  have blocks : a.blocks.length = r.blocks.length := by rw [← lies.blocks.length_eq, List.length_reverse]
  rw [size, Region.size, lies.blockSize, lies.next, blocks]

theorem exists_related {β γ : Type} {R : β → γ → Prop} {xs : List β} {ys : List γ} (related : List.Forall₂ R xs ys) {x : β}
    (member : x ∈ xs) : ∃ y, R x y := by
  induction related with
  | nil => cases member
  | cons first _ ih =>
    rcases List.mem_cons.mp member with rfl | later
    · exact ⟨_, first⟩
    · exact ih later

theorem Lies.ne_size_of_mem (lies : Lies m addresses a r) {block : Nat} (member : block ∈ a.blocks) :
    block ≠ m.blocks.size := by
  obtain ⟨objects, fills⟩ := exists_related lies.blocks (List.mem_reverse.mpr member)
  exact Nat.ne_of_lt (Memory.lt_of_places? fills.places)

theorem fills_frame {count : Nat} {blocks : List Nat} {filled : List (Array (Nat × α))}
    (fills : List.Forall₂ (Fills m addresses count) blocks filled)
    (same : ∀ block ∈ blocks, m'.places? block = m.places? block)
    (known : ∀ (number : Nat) address, addresses[number]? = some address → addresses'[number]? = some address) :
    List.Forall₂ (Fills m' addresses' count) blocks filled := by
  refine ((List.forall₂_and_left _ _).mpr ⟨same, fills⟩).imp ?_
  rintro block objects ⟨same, fills⟩
  exact ⟨same.trans fills.places, fun place object found => known _ _ (fills.address place object found)⟩

theorem Lies.frame (lies : Lies m addresses a r) (same : ∀ block ∈ a.blocks, m'.places? block = m.places? block)
    (known : ∀ (number : Nat) address, addresses[number]? = some address → addresses'[number]? = some address) :
    Lies m' addresses' a r :=
  ⟨lies.blockSize, lies.next, lies.distinct,
    fills_frame lies.blocks (fun block member => same block (List.mem_reverse.mp member)) known⟩

theorem known_push {number : Nat} {address new : Nat × Nat} (known : addresses[number]? = some address) :
    (addresses.push new)[number]? = some address := by
  obtain ⟨below, -⟩ := Array.getElem?_eq_some_iff.mp known
  rw [Array.getElem?_push, if_neg (Nat.ne_of_lt below), known]

theorem fills_push {count block : Nat} {others : List Nat} {newest : Array (Nat × α)} {older : List (Array (Nat × α))}
    (fills : List.Forall₂ (Fills m addresses count) (block :: others) (newest :: older))
    (distinct : (block :: others).Nodup) (room : newest.size < count) (object : α) :
    ∃ m', m.construct? block newest.size (addresses.size, object) = some m' ∧
      List.Forall₂ (Fills m' (addresses.push (block, newest.size)) count) (block :: others)
        (newest.push (addresses.size, object) :: older) ∧
      ∀ other ≠ block, m'.places? other = m.places? other := by
  obtain ⟨first, rest⟩ := List.forall₂_cons.mp fills
  obtain ⟨m', built, after⟩ := Memory.construct?_spread first.places room (addresses.size, object)
  have elsewhere : ∀ other ≠ block, m'.places? other = m.places? other := fun other different =>
    (after other).trans (if_neg different)
  refine ⟨m', built, .cons ⟨?_, ?_⟩ (fills_frame rest ?_ fun _ _ => known_push), elsewhere⟩
  · rw [after, if_pos rfl, Array.toList_push]
  · intro place other found
    rw [Array.getElem?_push] at found
    split at found
    next last =>
      cases found
      rw [last]
      exact Array.getElem?_push_size
    next => exact known_push (first.address place other found)
  · intro other member
    exact elsewhere other (fun same => (List.nodup_cons.mp distinct).1 (same ▸ member))

theorem make?_of_zero {object : Nat × α} (zero : a.next = 0)
    (built : (m.allocate a.blockSize).1.construct? m.blocks.size 0 object = some m') : a.make? m object =
      some (⟨a.blockSize, a.blocks ++ [m.blocks.size], if a.blockSize ≤ a.next + 1 then 0 else a.next + 1⟩, m',
        (m.blocks.size, a.next)) := by
  have last : (a.blocks ++ [(m.allocate a.blockSize).2]).getLast? = some m.blocks.size := List.getLast?_concat
  simp only [make?, zero, if_true, last, built, Option.bind_eq_bind, Option.bind_some, Option.pure_def]
  rfl

theorem make?_of_ne {object : Nat × α} {block : Nat} (more : a.next ≠ 0) (last : a.blocks.getLast? = some block)
    (built : m.construct? block a.next object = some m') : a.make? m object =
      some (⟨a.blockSize, a.blocks, if a.blockSize ≤ a.next + 1 then 0 else a.next + 1⟩, m', (block, a.next)) := by
  simp only [make?, more, if_false, last, built, Option.bind_eq_bind, Option.bind_some, Option.pure_def]

/-- A making is in order: the object lies where its address says, the others where they did, and nothing else in memory changes
but a block that is new. -/
structure Makes (m : Memory (Nat × α)) (addresses : Array (Nat × Nat)) (a : Arena) (r : Region (Nat × α)) (object : α)
    (a' : Arena) (m' : Memory (Nat × α)) (address : Nat × Nat) : Prop where
  made : a.make? m (addresses.size, object) = some (a', m', address)
  lies : Lies m' (addresses.push address) a' (r.make (addresses.size, object))
  owned : ∀ block ∈ a'.blocks, block ∈ a.blocks ∨ block = m.blocks.size
  frame : ∀ block, block ∉ a.blocks → block ≠ m.blocks.size → m'.places? block = m.places? block

theorem Lies.makes (lies : Lies m addresses a r) (sound : r.Sound) (object : α) :
    ∃ a' m' address, Makes m addresses a r object a' m' address := by
  have cursor := sound.cursor
  have nextCursor : (if a.blockSize ≤ a.next + 1 then 0 else a.next + 1) = (r.make (addresses.size, object)).next := by
    rw [lies.blockSize, lies.next]
    rfl
  rcases sound.blocks_make (addresses.size, object) with ⟨zero, blocks⟩ | ⟨newest, older, more, whole, blocks⟩
  · -- the object is the first of a new block
    have distinct : (m.blocks.size :: a.blocks.reverse).Nodup := List.nodup_cons.mpr
      ⟨fun member => lies.ne_size_of_mem (List.mem_reverse.mp member) rfl, List.nodup_reverse.mpr lies.distinct⟩
    have fresh : Fills (m.allocate a.blockSize).1 addresses r.blockSize m.blocks.size #[] := by
      refine ⟨?_, fun _ _ found => ?_⟩
      · rw [Memory.places?_allocate, if_pos rfl, lies.blockSize]
        rfl
      · cases found
    have before : List.Forall₂ (Fills (m.allocate a.blockSize).1 addresses r.blockSize) a.blocks.reverse r.blocks := by
      refine fills_frame lies.blocks ?_ (fun _ _ known => known)
      intro block member
      rw [Memory.places?_allocate, if_neg (lies.ne_size_of_mem (List.mem_reverse.mp member))]
    obtain ⟨m', built, fills, elsewhere⟩ := fills_push (.cons fresh before) distinct (Nat.zero_lt_of_lt cursor) object
    refine ⟨_, m', _, make?_of_zero (lies.next.trans zero) built, ⟨lies.blockSize, nextCursor, ?_, ?_⟩, ?_, ?_⟩
    · rwa [← List.nodup_reverse, List.reverse_concat]
    · rw [blocks, List.reverse_concat, lies.next, zero]
      exact fills
    · intro block member
      exact (List.mem_append.mp member).imp_right List.mem_singleton.mp
    · intro block _ other
      rw [elsewhere block other, Memory.places?_allocate, if_neg other]
  · -- the object goes behind those of the newest block, where the cursor stands
    have size : newest.size = a.next := by
      rw [sound.newest newest (by rw [whole]; rfl), Region.filled, if_neg more, lies.next]
    have lies' := lies.blocks
    rw [whole] at lies'
    obtain ⟨block, others, -, -, order⟩ := List.forall₂_cons_right_iff.mp lies'
    have distinct : (block :: others).Nodup := order ▸ List.nodup_reverse.mpr lies.distinct
    have last : a.blocks.getLast? = some block := by rw [List.getLast?_eq_head?_reverse, order]; rfl
    rw [order] at lies'
    obtain ⟨m', built, fills, elsewhere⟩ := fills_push lies' distinct (by rw [size, lies.next]; exact cursor) object
    rw [size] at built fills
    refine ⟨_, m', _, make?_of_ne (lies.next ▸ more) last built, ⟨lies.blockSize, nextCursor, lies.distinct, ?_⟩,
      fun _ => .inl, ?_⟩
    · rw [blocks, order]
      exact fills
    · intro other outside _
      exact elsewhere other (fun same => outside (same ▸ List.mem_of_getLast? last))

def Counts (a : Arena) : List (Array (Nat × α)) → Prop
  | [] => True
  | objects :: later => objects.size = (if later.isEmpty ∧ 0 < a.next then a.next else a.blockSize) ∧ a.Counts later

theorem counts_concat {full : List (Array (Nat × α))} {newest : Array (Nat × α)}
    (fullSize : ∀ objects ∈ full, objects.size = a.blockSize)
    (newestSize : newest.size = if a.next = 0 then a.blockSize else a.next) : a.Counts (full ++ [newest]) := by
  induction full with
  | nil =>
    refine ⟨?_, trivial⟩
    rw [newestSize]
    by_cases zero : a.next = 0
    · rw [if_pos zero, if_neg (fun both => Nat.ne_of_gt both.2 zero)]
    · rw [if_neg zero, if_pos ⟨rfl, Nat.pos_of_ne_zero zero⟩]
  | cons objects full ih =>
    obtain ⟨first, others⟩ := List.forall_mem_cons.mp fullSize
    refine ⟨?_, ih others⟩
    rw [first, if_neg]
    simp

theorem Lies.counts (lies : Lies m addresses a r) (sound : r.Sound) : a.Counts r.blocks.reverse := by
  cases blocks : r.blocks with
  | nil => trivial
  | cons newest older =>
    rw [List.reverse_cons]
    apply counts_concat
    · intro objects member
      rw [lies.blockSize]
      exact sound.older objects (by rw [blocks]; exact List.mem_reverse.mp member)
    · rw [lies.blockSize, lies.next]
      exact sound.newest newest (by rw [blocks]; rfl)

theorem release?_of_fills {blocks : List Nat} {filled : List (Array (Nat × α))} (cursor : a.next < a.blockSize)
    (fills : List.Forall₂ (Fills m addresses a.blockSize) blocks filled) (distinct : blocks.Nodup) (counts : a.Counts filled) :
    ∃ m', a.release? blocks m = some (m', (filled.map Array.toList).flatten) ∧
      ∀ other ∉ blocks, m'.places? other = m.places? other := by
  induction blocks generalizing m filled with
  | nil =>
    cases fills
    exact ⟨m, rfl, fun _ _ => rfl⟩
  | cons block later ih =>
    obtain ⟨objects, others, first, rest, rfl⟩ := List.forall₂_cons_left_iff.mp fills
    obtain ⟨count, counts⟩ := counts
    obtain ⟨apart, distinct⟩ := List.nodup_cons.mp distinct
    have within : objects.toList.length ≤ a.blockSize := by
      rw [Array.length_toList, count]
      split <;> omega
    have same : later.isEmpty = others.isEmpty := by cases rest <;> rfl
    obtain ⟨m1, m2, destroyed, returned, after⟩ := Memory.clear?_spread first.places within
    have elsewhere : ∀ other ≠ block, m2.places? other = m.places? other := fun other different =>
      (after other).trans (if_neg different)
    have left : List.Forall₂ (Fills m2 addresses a.blockSize) later others := by
      refine fills_frame rest ?_ (fun _ _ known => known)
      intro other member
      exact elsewhere other (fun same => apart (same ▸ member))
    obtain ⟨m', released, frame⟩ := ih left distinct counts
    refine ⟨m', ?_, ?_⟩
    · rw [Array.length_toList, count, ← same] at destroyed
      simp only [release?, destroyed, returned, released, Option.bind_eq_bind, Option.bind_some, Option.pure_def]
      rfl
    · intro other outside
      rw [List.mem_cons, not_or] at outside
      rw [frame other outside.2, elsewhere other outside.1]

theorem Lies.release (lies : Lies m addresses a r) (sound : r.Sound) :
    ∃ m', a.release? a.blocks m = some (m', r.contents) ∧ ∀ other ∉ a.blocks, m'.places? other = m.places? other := by
  have cursor : a.next < a.blockSize := by
    rw [lies.next, lies.blockSize]
    exact sound.cursor
  have fills : List.Forall₂ (Fills m addresses a.blockSize) a.blocks r.blocks.reverse := by
    rw [lies.blockSize, ← List.forall₂_reverse_iff, List.reverse_reverse]
    exact lies.blocks
  exact release?_of_fills cursor fills lies.distinct (lies.counts sound)

theorem Lies.emptied (lies : Lies m addresses a r) : Lies m' addresses' a.emptied r.emptied :=
  ⟨lies.blockSize, rfl, List.nodup_nil, .nil⟩

end Arena

namespace Regions

/-- Regions as they lie in one memory, with the address at which each object was made. -/
structure Store (α : Type) where
  memory : Memory (Nat × α) := {}
  arenas : Array Arena := #[]
  addresses : Array (Nat × Nat) := #[]

namespace Store

variable {α : Type} {s : Store α} {rs rs' : Regions α} {call : Call α} {destroyed : List (Nat × α)}

def exchange? (s : Store α) (p q : Nat) : Option (Store α) := do
  let first ← s.arenas[p]?
  let second ← s.arenas[q]?
  return { s with arenas := (s.arenas.setIfInBounds p second).setIfInBounds q first }

def call? (s : Store α) : Call α → Option (Store α × List (Nat × α))
  | .create blockSize => some ({ s with arenas := s.arenas.push { blockSize } }, [])
  | .make p object => do
    let arena ← s.arenas[p]?
    let (arena, memory, address) ← arena.make? s.memory (s.addresses.size, object)
    return (⟨memory, s.arenas.setIfInBounds p arena, s.addresses.push address⟩, [])
  | .reset p => do
    let arena ← s.arenas[p]?
    let (memory, destroyed) ← arena.release? arena.blocks s.memory
    return ({ s with memory, arenas := s.arenas.setIfInBounds p arena.emptied }, destroyed)
  | .swap p q => (s.exchange? p q).map fun s => (s, [])
  | .assign p q => (s.exchange? p q).map fun s => (s, [])
  | .move p => do
    let arena ← s.arenas[p]?
    return ({ s with arenas := (s.arenas.setIfInBounds p arena.emptied).push arena }, [])

def run? (s : Store α) : List (Call α) → Option (Store α × List (Nat × α))
  | [] => some (s, [])
  | call :: calls => do
    let (s, first) ← s.call? call
    let (s, later) ← s.run? calls
    return (s, first ++ later)

def read? (s : Store α) (number : Nat) : Option (Nat × α) := s.addresses[number]?.bind s.memory.load?

def sizes (s : Store α) : List Nat := s.arenas.toList.map Arena.size

def Keeps (memory : Memory (Nat × α)) (addresses : Array (Nat × Nat)) (owner : Nat → Nat) (p : Nat) (arena : Arena)
    (region : Region (Nat × α)) : Prop :=
  arena.Lies memory addresses region ∧ ∀ block ∈ arena.blocks, owner block = p

/-- The store has all regions in its memory, and no block belongs to two of them. -/
structure Represents (s : Store α) (rs : Regions α) (owner : Nat → Nat) : Prop where
  count : s.arenas.size = rs.regions.size
  made : s.addresses.size = rs.made
  keeps : ∀ p : Nat, Option.Rel (Keeps s.memory s.addresses owner p) s.arenas[p]? rs.regions[p]?

variable {owner : Nat → Nat}

theorem represents_empty : ({} : Store α).Represents {} (fun _ => 0) := ⟨rfl, rfl, fun _ => .none⟩

theorem Represents.arena (represents : s.Represents rs owner) {p : Nat} {region : Region (Nat × α)}
    (found : rs.regions[p]? = some region) :
    ∃ arena, s.arenas[p]? = some arena ∧ Keeps s.memory s.addresses owner p arena region := by
  have keeps := represents.keeps p
  rw [found] at keeps
  generalize s.arenas[p]? = there at keeps ⊢
  cases keeps with
  | some keeps => exact ⟨_, rfl, keeps⟩

theorem Represents.create (represents : s.Represents rs owner) (blockSize : Nat) :
    Represents { s with arenas := s.arenas.push { blockSize } } ⟨rs.regions.push { blockSize }, rs.made⟩ owner := by
  refine ⟨?_, represents.made, ?_⟩
  · rw [Array.size_push, Array.size_push, represents.count]
  · intro p
    rw [Array.getElem?_push, Array.getElem?_push, represents.count]
    split
    · exact .some ⟨⟨rfl, rfl, List.nodup_nil, .nil⟩, List.forall_mem_nil _⟩
    · exact represents.keeps p

theorem Represents.make (represents : s.Represents rs owner) {p : Nat} {region : Region (Nat × α)} {arena arena' : Arena}
    {memory : Memory (Nat × α)} {address : Nat × Nat} {object : α} (found : rs.regions[p]? = some region)
    (there : s.arenas[p]? = some arena) (owned : ∀ block ∈ arena.blocks, owner block = p)
    (makes : Arena.Makes s.memory s.addresses arena region object arena' memory address) :
    Represents ⟨memory, s.arenas.setIfInBounds p arena', s.addresses.push address⟩
      ⟨rs.regions.setIfInBounds p (region.make (rs.made, object)), rs.made + 1⟩
      (fun block => if block = s.memory.blocks.size then p else owner block) := by
  refine ⟨?_, ?_, ?_⟩
  · rw [Array.size_setIfInBounds, Array.size_setIfInBounds, represents.count]
  · rw [Array.size_push, represents.made]
  · intro q
    rw [getElem?_replaced there, getElem?_replaced found, ← represents.made]
    split
    next same =>
      refine .some ⟨makes.lies, fun block member => ?_⟩
      by_cases new : block = s.memory.blocks.size
      · exact (if_pos new).trans same.symm
      · have old := (makes.owned block member).resolve_right new
        exact (if_neg new).trans ((owned block old).trans same.symm)
    next other =>
      refine rel_imp (represents.keeps q) ?_
      rintro arena region ⟨lies, ownedOther⟩
      refine ⟨lies.frame ?_ (fun _ _ => Arena.known_push), fun block member => ?_⟩
      · intro block member
        have outside : block ∉ _ := fun inside => other ((ownedOther block member).symm.trans (owned block inside))
        exact makes.frame block outside (lies.ne_size_of_mem member)
      · exact (if_neg (lies.ne_size_of_mem member)).trans (ownedOther block member)

theorem Represents.reset (represents : s.Represents rs owner) {p : Nat} {region : Region (Nat × α)} {arena : Arena}
    {memory : Memory (Nat × α)} (found : rs.regions[p]? = some region) (there : s.arenas[p]? = some arena)
    (keeps : Keeps s.memory s.addresses owner p arena region)
    (frame : ∀ block ∉ arena.blocks, memory.places? block = s.memory.places? block) :
    Represents ⟨memory, s.arenas.setIfInBounds p arena.emptied, s.addresses⟩
      ⟨rs.regions.setIfInBounds p region.emptied, rs.made⟩ owner := by
  refine ⟨?_, represents.made, ?_⟩
  · rw [Array.size_setIfInBounds, Array.size_setIfInBounds, represents.count]
  · intro q
    rw [getElem?_replaced there, getElem?_replaced found]
    split
    · exact .some ⟨keeps.1.emptied, List.forall_mem_nil _⟩
    next other =>
      refine rel_imp (represents.keeps q) ?_
      rintro arena' region' ⟨lies, owned⟩
      refine ⟨lies.frame ?_ (fun _ _ known => known), owned⟩
      intro block member
      exact frame block (fun inside => other ((owned block member).symm.trans (keeps.2 block inside)))

theorem Represents.exchange (represents : s.Represents rs owner) {p q : Nat} {first second : Region (Nat × α)}
    {firstArena secondArena : Arena} (foundFirst : rs.regions[p]? = some first) (foundSecond : rs.regions[q]? = some second)
    (thereFirst : s.arenas[p]? = some firstArena) (thereSecond : s.arenas[q]? = some secondArena) :
    Represents { s with arenas := (s.arenas.setIfInBounds p secondArena).setIfInBounds q firstArena }
      ⟨(rs.regions.setIfInBounds p second).setIfInBounds q first, rs.made⟩ (fun block => exchanged p q (owner block)) := by
  refine ⟨?_, represents.made, ?_⟩
  · simp only [Array.size_setIfInBounds, represents.count]
  · intro x
    rw [getElem?_exchanged thereFirst thereSecond, getElem?_exchanged foundFirst foundSecond]
    refine rel_imp (represents.keeps _) ?_
    rintro arena region ⟨lies, owned⟩
    exact ⟨lies, fun block member => exchanged_eq_iff.mpr (owned block member)⟩

theorem Represents.move (represents : s.Represents rs owner) {p : Nat} {region : Region (Nat × α)} {arena : Arena}
    (found : rs.regions[p]? = some region) (there : s.arenas[p]? = some arena)
    (keeps : Keeps s.memory s.addresses owner p arena region) :
    Represents { s with arenas := (s.arenas.setIfInBounds p arena.emptied).push arena }
      ⟨(rs.regions.setIfInBounds p region.emptied).push region, rs.made⟩
      (fun block => if owner block = p then rs.regions.size else owner block) := by
  refine ⟨?_, represents.made, ?_⟩
  · simp only [Array.size_push, Array.size_setIfInBounds, represents.count]
  · intro q
    rw [Array.getElem?_push, Array.getElem?_push, Array.size_setIfInBounds, Array.size_setIfInBounds, represents.count,
      getElem?_replaced there, getElem?_replaced found]
    split
    next new => exact .some ⟨keeps.1, fun block member => (if_pos (keeps.2 block member)).trans new.symm⟩
    next =>
      split
      · exact .some ⟨keeps.1.emptied, List.forall_mem_nil _⟩
      next other =>
        refine rel_imp (represents.keeps q) ?_
        rintro arena' region' ⟨lies, owned⟩
        refine ⟨lies, fun block member => ?_⟩
        exact (if_neg (fun same => other ((owned block member).symm.trans same))).trans (owned block member)

/-- Every call that the regions allow is made in memory without a mistake, and destroys the same objects. -/
theorem Represents.step (represents : s.Represents rs owner)
    (sound : ∀ (p : Nat) region, rs.regions[p]? = some region → region.Sound) (step : rs.Step call rs' destroyed) :
    ∃ s' owner', s.call? call = some (s', destroyed) ∧ s'.Represents rs' owner' := by
  cases step with
  | @create blockSize positive => exact ⟨_, _, rfl, represents.create blockSize⟩
  | @make p object region found =>
    obtain ⟨arena, there, lies, owned⟩ := represents.arena found
    obtain ⟨arena', memory, address, makes⟩ := lies.makes (sound p region found) object
    refine ⟨_, _, ?_, represents.make found there owned makes⟩
    simp only [call?, there, makes.made, Option.bind_eq_bind, Option.bind_some, Option.pure_def]
  | @reset p region found =>
    obtain ⟨arena, there, keeps⟩ := represents.arena found
    have regionSound := sound p region found
    obtain ⟨memory, released, frame⟩ := keeps.1.release regionSound
    refine ⟨_, _, ?_, represents.reset found there keeps frame⟩
    rw [← regionSound.released_eq] at released
    simp only [call?, there, released, Option.bind_eq_bind, Option.bind_some, Option.pure_def]
  | @exchange call p q first second named foundFirst foundSecond =>
    obtain ⟨firstArena, thereFirst, -⟩ := represents.arena foundFirst
    obtain ⟨secondArena, thereSecond, -⟩ := represents.arena foundSecond
    refine ⟨_, _, ?_, represents.exchange foundFirst foundSecond thereFirst thereSecond⟩
    rcases named with rfl | rfl <;>
      simp only [call?, exchange?, thereFirst, thereSecond, Option.bind_eq_bind, Option.bind_some, Option.pure_def,
        Option.map_some]
  | @move p region found =>
    obtain ⟨arena, there, keeps⟩ := represents.arena found
    refine ⟨_, _, ?_, represents.move found there keeps⟩
    simp only [call?, there, Option.bind_eq_bind, Option.bind_some, Option.pure_def]

theorem Represents.read?_eq (represents : s.Represents rs owner) {p : Nat} {region : Region (Nat × α)} {object : Nat × α}
    (found : rs.regions[p]? = some region) (member : object ∈ region.contents) : s.read? object.1 = some object := by
  obtain ⟨arena, -, lies, -⟩ := represents.arena found
  obtain ⟨listed, inList, inside⟩ := List.mem_flatten.mp member
  obtain ⟨objects, inRegion, rfl⟩ := List.mem_map.mp inList
  obtain ⟨place, atPlace⟩ := List.mem_iff_getElem?.mp inside
  obtain ⟨block, fills⟩ := Arena.exists_related (List.Forall₂.flip lies.blocks) (List.mem_reverse.mp inRegion)
  have fills : Arena.Fills s.memory s.addresses region.blockSize block objects := fills
  rw [read?, fills.address place object (by rwa [Array.getElem?_toList] at atPlace), Option.bind_some, Memory.load?]
  simp only [fills.places, Memory.getElem?_spread atPlace, Option.bind_eq_bind, Option.bind_some, Option.join_some]

theorem Represents.sizes_eq (represents : s.Represents rs owner) : s.sizes = rs.sizes := by
  apply List.ext_getElem?
  intro p
  have keeps := represents.keeps p
  rw [sizes, Regions.sizes, List.getElem?_map, List.getElem?_map, Array.getElem?_toList, Array.getElem?_toList]
  generalize s.arenas[p]? = arena, rs.regions[p]? = region at keeps ⊢
  cases keeps with
  | some keeps => exact congrArg some keeps.1.size_eq
  | none => rfl

end Store

end Regions

end SelfLambda
