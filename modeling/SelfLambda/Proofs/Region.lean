import SelfLambda.Proofs.Lookup
import SelfLambda.Region

/-! What one region holds. In a sound region every block but the newest is full, and the cursor tells how far the newest one
is filled, where zero stands for all of it. So the cursor is read in one way by `size`, `make` and `released`: the size is the
number of objects, an object that is made comes after all others, and what is destroyed is what is there. -/

namespace SelfLambda

namespace Region

variable {α : Type} {r : Region α}

def filled (r : Region α) : Nat := if r.next = 0 then r.blockSize else r.next

structure Sound (r : Region α) : Prop where
  cursor : r.next < r.blockSize
  closed : r.blocks = [] → r.next = 0
  newest : ∀ block ∈ r.blocks.head?, block.size = r.filled
  older : ∀ block ∈ r.blocks.tail, block.size = r.blockSize

theorem sound_empty {blockSize : Nat} (positive : 0 < blockSize) : ({ blockSize } : Region α).Sound :=
  ⟨positive, fun _ => rfl, fun _ member => (nomatch member), List.forall_mem_nil _⟩

theorem Sound.emptied (sound : r.Sound) : r.emptied.Sound := sound_empty (Nat.zero_lt_of_lt sound.cursor)

theorem contents_of_cons {newest : Array α} {older : List (Array α)} (blocks : r.blocks = newest :: older) :
    r.contents = (older.reverse.map Array.toList).flatten ++ newest.toList := by
  rw [contents, blocks, List.reverse_cons, List.map_append, List.flatten_append]
  exact congrArg _ (List.append_nil _)

theorem length_flatten_of_full {blockSize : Nat} {blocks : List (Array α)} (full : ∀ block ∈ blocks, block.size = blockSize) :
    (blocks.map Array.toList).flatten.length = blockSize * blocks.length := by
  induction blocks with
  | nil => rfl
  | cons block blocks ih =>
    obtain ⟨first, others⟩ := List.forall_mem_cons.mp full
    rw [List.map_cons, List.flatten_cons, List.length_append, Array.length_toList, first, ih others, List.length_cons,
      Nat.mul_succ, Nat.add_comm]

/-- The size is worked out from the number of blocks and the cursor, and is the number of objects. -/
theorem Sound.size_eq (sound : r.Sound) : r.size = r.contents.length := by
  obtain ⟨-, closed, newestSize, olderSize⟩ := sound
  cases blocks : r.blocks with
  | nil => simp [size, contents, blocks, closed blocks]
  | cons newest older =>
    rw [blocks] at newestSize olderSize
    have last : newest.size = r.filled := newestSize newest rfl
    have full : ∀ block ∈ older.reverse, block.size = r.blockSize := fun block member =>
      olderSize block (List.mem_reverse.mp member)
    have objects : r.contents.length = r.blockSize * older.length + r.filled := by
      rw [contents_of_cons blocks, List.length_append, length_flatten_of_full full, List.length_reverse, ← last]
      rfl
    rw [objects, size, filled, blocks, List.length_cons]
    split
    · rw [Nat.mul_succ]
    · rfl

theorem Sound.released_eq (sound : r.Sound) : r.released = r.contents := by
  obtain ⟨-, -, newestSize, olderSize⟩ := sound
  cases blocks : r.blocks with
  | nil => simp [released, contents, blocks]
  | cons newest older =>
    rw [blocks] at newestSize olderSize
    have last : newest.size = if r.next = 0 then r.blockSize else r.next := newestSize newest rfl
    have whole : older.reverse.map (fun block => (block.extract 0 r.blockSize).toList) = older.reverse.map Array.toList := by
      apply List.map_congr_left
      intro block member
      rw [← olderSize block (List.mem_reverse.mp member), Array.extract_size]
    simp only [released, blocks, contents_of_cons blocks, whole, ← last, Array.extract_size]

theorem Sound.blocks_make (sound : r.Sound) (object : α) :
    (r.next = 0 ∧ (r.make object).blocks = #[object] :: r.blocks) ∨
      ∃ newest older, r.next ≠ 0 ∧ r.blocks = newest :: older ∧ (r.make object).blocks = newest.push object :: older := by
  by_cases full : r.next = 0
  · refine .inl ⟨full, ?_⟩
    simp only [make, full, if_true]
    rfl
  · cases blocks : r.blocks with
    | nil => exact absurd (sound.closed blocks) full
    | cons newest older => exact .inr ⟨newest, older, full, rfl, by simp only [make, full, if_false, blocks]⟩

theorem Sound.filled_make (sound : r.Sound) (object : α) : (r.make object).filled = r.next + 1 := by
  have := sound.cursor
  by_cases last : r.blockSize ≤ r.next + 1
  · simp only [filled, make, last, if_true]
    omega
  · simp only [filled, make, last, if_false]
    rw [if_neg (Nat.succ_ne_zero _)]

theorem Sound.make (sound : r.Sound) (object : α) : (r.make object).Sound := by
  have filled := sound.filled_make object
  have cursor : (r.make object).next < r.blockSize := by
    have := sound.cursor
    show (if r.blockSize ≤ r.next + 1 then 0 else r.next + 1) < r.blockSize
    split <;> omega
  rcases sound.blocks_make object with ⟨zero, blocks⟩ | ⟨newest, older, more, whole, blocks⟩
  · refine ⟨cursor, ?_, ?_, ?_⟩
    · rw [blocks]
      exact fun absent => (nomatch absent)
    · rw [blocks, filled, zero]
      rintro block ⟨⟩
      rfl
    · rw [blocks]
      -- the block that was the newest is full: its cursor is at zero
      intro block member
      cases whole : r.blocks with
      | nil =>
        rw [whole] at member
        cases member
      | cons newest older =>
        rw [whole] at member
        rcases List.mem_cons.mp member with rfl | member
        · have size := sound.newest block (by rw [whole]; rfl)
          rwa [Region.filled, if_pos zero] at size
        · exact sound.older block (by rwa [whole])
  · have size := sound.newest newest (by rw [whole]; rfl)
    rw [Region.filled, if_neg more] at size
    refine ⟨cursor, ?_, ?_, ?_⟩
    · rw [blocks]
      exact fun absent => (nomatch absent)
    · rw [blocks, filled]
      rintro block ⟨⟩
      rw [Array.size_push, size]
    · rw [blocks]
      intro block member
      exact sound.older block (by rwa [whole])

theorem Sound.contents_make (sound : r.Sound) (object : α) : (r.make object).contents = r.contents ++ [object] := by
  rcases sound.blocks_make object with ⟨-, blocks⟩ | ⟨newest, older, -, whole, blocks⟩
  · rw [contents_of_cons blocks]
    rfl
  · rw [contents_of_cons blocks, contents_of_cons whole, Array.toList_push, List.append_assoc]

end Region

def exchanged (p q x : Nat) : Nat := if x = p then q else if x = q then p else x

theorem exchanged_eq_iff {p q x y : Nat} : exchanged p q x = y ↔ x = exchanged p q y := by
  grind [exchanged]

theorem getElem?_exchanged {β : Type} {xs : Array β} {p q : Nat} {first second : β} (foundFirst : xs[p]? = some first)
    (foundSecond : xs[q]? = some second) (x : Nat) :
    ((xs.setIfInBounds p second).setIfInBounds q first)[x]? = xs[exchanged p q x]? := by
  have still : (xs.setIfInBounds p second)[q]? = some second := by
    rw [getElem?_replaced foundFirst]
    split
    · rfl
    · exact foundSecond
  rw [getElem?_replaced still, getElem?_replaced foundFirst, exchanged]
  by_cases atFirst : x = p
  · by_cases atSecond : x = q
    · rw [if_pos atSecond, if_pos atFirst, ← foundFirst, ← atFirst, atSecond]
    · rw [if_neg atSecond, if_pos atFirst, if_pos atFirst, foundSecond]
  · by_cases atSecond : x = q
    · rw [if_pos atSecond, if_neg atFirst, if_pos atSecond, foundFirst]
    · rw [if_neg atSecond, if_neg atFirst, if_neg atFirst, if_neg atSecond]

namespace Regions

variable {α : Type} {rs rs' : Regions α} {destroyed : List (Nat × α)}

inductive Call (α : Type) where
  | create (blockSize : Nat)
  | make (p : Nat) (object : α)
  | reset (p : Nat)
  | swap (p q : Nat)
  | assign (p q : Nat)
  | move (p : Nat)
  deriving DecidableEq, Repr

def call? (rs : Regions α) : Call α → Option (Regions α × List (Nat × α))
  | .create blockSize => some (rs.create blockSize, [])
  | .make p object => (rs.make? p object).map fun rs => (rs, [])
  | .reset p => rs.reset? p
  | .swap p q => (rs.swap? p q).map fun rs => (rs, [])
  | .assign p q => (rs.assign? p q).map fun rs => (rs, [])
  | .move p => (rs.move? p).map fun rs => (rs, [])

def run? (rs : Regions α) : List (Call α) → Option (Regions α × List (Nat × α))
  | [] => some (rs, [])
  | call :: calls => do
    let (rs, first) ← rs.call? call
    let (rs, later) ← rs.run? calls
    return (rs, first ++ later)

/-- A call on a number of regions names only regions that are there, and asks for blocks that hold something. -/
def Call.Fits (regions : Nat) : Call α → Prop
  | .create blockSize => 1 ≤ blockSize
  | .make p _ => p < regions
  | .reset p => p < regions
  | .swap p q => p < regions ∧ q < regions
  | .assign p q => p < regions ∧ q < regions
  | .move p => p < regions

/-- What a call does to the regions, with the objects that it destroys. -/
inductive Step (rs : Regions α) : Call α → Regions α → List (Nat × α) → Prop where
  | create {blockSize : Nat} (positive : 1 ≤ blockSize) :
    Step rs (.create blockSize) ⟨rs.regions.push { blockSize }, rs.made⟩ []
  | make {p : Nat} {object : α} {region : Region (Nat × α)} (found : rs.regions[p]? = some region) :
    Step rs (.make p object) ⟨rs.regions.setIfInBounds p (region.make (rs.made, object)), rs.made + 1⟩ []
  | reset {p : Nat} {region : Region (Nat × α)} (found : rs.regions[p]? = some region) :
    Step rs (.reset p) ⟨rs.regions.setIfInBounds p region.emptied, rs.made⟩ region.released
  | exchange {call : Call α} {p q : Nat} {first second : Region (Nat × α)} (named : call = .swap p q ∨ call = .assign p q)
    (foundFirst : rs.regions[p]? = some first) (foundSecond : rs.regions[q]? = some second) :
    Step rs call ⟨(rs.regions.setIfInBounds p second).setIfInBounds q first, rs.made⟩ []
  | move {p : Nat} {region : Region (Nat × α)} (found : rs.regions[p]? = some region) :
    Step rs (.move p) ⟨(rs.regions.setIfInBounds p region.emptied).push region, rs.made⟩ []

theorem step_of_fits {call : Call α} (fits : call.Fits rs.regions.size) :
    ∃ rs' destroyed, rs.call? call = some (rs', destroyed) ∧ rs.Step call rs' destroyed := by
  have there {p : Nat} (below : p < rs.regions.size) : ∃ region, rs.regions[p]? = some region :=
    ⟨_, Array.getElem?_eq_getElem below⟩
  cases call with
  | create blockSize => exact ⟨_, _, rfl, .create fits⟩
  | make p object =>
    obtain ⟨region, found⟩ := there fits
    exact ⟨_, _, by rw [call?, make?, found]; rfl, .make found⟩
  | reset p =>
    obtain ⟨region, found⟩ := there fits
    exact ⟨_, _, by rw [call?, reset?, found]; rfl, .reset found⟩
  | swap p q =>
    obtain ⟨first, foundFirst⟩ := there fits.1
    obtain ⟨second, foundSecond⟩ := there fits.2
    exact ⟨_, _, by rw [call?, swap?, foundFirst, foundSecond]; rfl, .exchange (.inl rfl) foundFirst foundSecond⟩
  | assign p q =>
    obtain ⟨first, foundFirst⟩ := there fits.1
    obtain ⟨second, foundSecond⟩ := there fits.2
    exact ⟨_, _, by rw [call?, assign?, swap?, foundFirst, foundSecond]; rfl, .exchange (.inr rfl) foundFirst foundSecond⟩
  | move p =>
    obtain ⟨region, found⟩ := there fits
    exact ⟨_, _, by rw [call?, move?, found]; rfl, .move found⟩

end Regions

end SelfLambda
