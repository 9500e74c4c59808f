import SelfLambda.Proofs.Region.Memory

/-! Where every object is. A ledger follows each object by itself, from the call that makes it, and knows nothing of blocks and
cursors. Through every sequence of calls each region holds the objects that the ledger has in it, and the objects destroyed are
those that the ledger has in no region any more. -/

namespace SelfLambda

namespace Regions

variable {α : Type} {rs rs' : Regions α} {call : Call α} {gone destroyed : List (Nat × α)}

/-- The region to which a call takes an object that is in region `place`, if it leaves it in one. -/
def Call.carry (regions : Nat) (call : Call α) (place : Nat) : Option Nat :=
  match call with
  | .create _ => some place
  | .make _ _ => some place
  | .reset p => if place = p then none else some place
  | .swap p q => some (exchanged p q place)
  | .assign p q => some (exchanged p q place)
  | .move p => some (if place = p then regions else place)

/-- An object, with the region that it is in. An object that was destroyed is in none. -/
structure Tracked (α : Type) where
  number : Nat
  object : α
  place : Option Nat
  deriving DecidableEq, Repr

def Call.brings (number : Nat) : Call α → List (Tracked α)
  | .make p object => [⟨number, object, some p⟩]
  | _ => []

def Call.opens : Call α → Nat
  | .create _ => 1
  | .move _ => 1
  | _ => 0

structure Ledger (α : Type) where
  regions : Nat := 0
  tracked : List (Tracked α) := []

namespace Ledger

variable {l : Ledger α}

def record (l : Ledger α) (call : Call α) : Ledger α where
  regions := l.regions + call.opens
  tracked := l.tracked.map (fun t => { t with place := t.place.bind (call.carry l.regions) }) ++
    call.brings l.tracked.length

def those (l : Ledger α) (wanted : Option Nat → Bool) : List (Nat × α) :=
  (l.tracked.filter fun t => wanted t.place).map fun t => (t.number, t.object)

def held (l : Ledger α) (p : Nat) : List (Nat × α) := l.those (· == some p)

def lost (l : Ledger α) : List (Nat × α) := l.those (· == none)

theorem those_congr {wanted wanted' : Option Nat → Bool} (same : ∀ t ∈ l.tracked, wanted t.place = wanted' t.place) :
    l.those wanted = l.those wanted' := by
  rw [those, those, List.filter_congr same]

theorem those_record (call : Call α) (wanted : Option Nat → Bool) :
    (l.record call).those wanted = l.those (fun place => wanted (place.bind (call.carry l.regions))) ++
      ((call.brings l.tracked.length).filter fun t => wanted t.place).map fun t => (t.number, t.object) := by
  rw [those, record, List.filter_append, List.map_append, List.filter_map, List.map_map]
  rfl

/-- Objects are numbered in order, and each is in one of the regions or in none. -/
structure Sound (l : Ledger α) : Prop where
  numbers : l.tracked.map Tracked.number = List.range l.tracked.length
  places : ∀ t ∈ l.tracked, ∀ p ∈ t.place, p < l.regions

theorem held_of_le (sound : l.Sound) {p : Nat} (beyond : l.regions ≤ p) : l.held p = [] := by
  rw [held, those, List.map_eq_nil_iff, List.filter_eq_nil_iff]
  intro t member place
  exact Nat.not_lt.mpr beyond (sound.places t member p (beq_iff_eq.mp place))

/-- What a region holds after a call is what one region held before, if this is from where the call takes objects to it. -/
theorem held_record_of_iff (sound : l.Sound) {p q : Nat}
    (source : ∀ place < l.regions, call.carry l.regions place = some p ↔ place = q) :
    (l.record call).held p = l.held q ++
      ((call.brings l.tracked.length).filter fun t => t.place == some p).map fun t => (t.number, t.object) := by
  rw [held, those_record]
  congr 1
  apply those_congr
  intro t member
  rw [Bool.eq_iff_iff, beq_iff_eq, beq_iff_eq]
  have bound := sound.places t member
  cases place : t.place with
  | none => exact ⟨nofun, nofun⟩
  | some place' => rw [Option.bind_some, Option.some_inj, source place' (bound place' place)]

theorem held_record_of_ne (sound : l.Sound) {p : Nat} (apart : ∀ place < l.regions, call.carry l.regions place ≠ some p) :
    (l.record call).held p =
      ((call.brings l.tracked.length).filter fun t => t.place == some p).map fun t => (t.number, t.object) := by
  have none : ∀ place < l.regions, call.carry l.regions place = some p ↔ place = l.regions := fun place below =>
    ⟨fun same => absurd same (apart place below), fun same => absurd same (Nat.ne_of_lt below)⟩
  rw [held_record_of_iff sound none, held_of_le sound (Nat.le_refl _), List.nil_append]

theorem held_create (sound : l.Sound) (blockSize p : Nat) : (l.record (.create blockSize)).held p = l.held p := by
  have source : ∀ place < l.regions, (.create blockSize : Call α).carry l.regions place = some p ↔ place = p :=
    fun _ _ => Option.some_inj
  exact (held_record_of_iff sound source).trans (List.append_nil _)

theorem held_make (sound : l.Sound) (q : Nat) (object : α) (p : Nat) :
    (l.record (.make q object)).held p = l.held p ++ if p = q then [(l.tracked.length, object)] else [] := by
  have source : ∀ place < l.regions, (.make q object : Call α).carry l.regions place = some p ↔ place = p :=
    fun _ _ => Option.some_inj
  rw [held_record_of_iff sound source]
  congr 1
  simp only [Call.brings, List.filter_cons, List.filter_nil, beq_iff_eq, Option.some_inj, @eq_comm _ q p]
  split <;> rfl

theorem held_reset (sound : l.Sound) (q p : Nat) : (l.record (.reset q)).held p = if p = q then [] else l.held p := by
  split
  next same =>
    refine held_record_of_ne sound (fun place _ => ?_)
    grind [Call.carry]
  next different =>
    refine (held_record_of_iff sound (q := p) (fun place _ => ?_)).trans (List.append_nil _)
    grind [Call.carry]

theorem held_exchange (sound : l.Sound) {q r : Nat} (named : call = .swap q r ∨ call = .assign q r) (p : Nat) :
    (l.record call).held p = l.held (exchanged q r p) := by
  have source : ∀ place < l.regions, call.carry l.regions place = some p ↔ place = exchanged q r p := by
    intro place _
    rcases named with rfl | rfl <;> exact Option.some_inj.trans exchanged_eq_iff
  have brings : call.brings l.tracked.length = [] := by
    rcases named with rfl | rfl <;> rfl
  rw [held_record_of_iff sound source, brings]
  exact List.append_nil _

theorem held_move (sound : l.Sound) {q : Nat} (there : q < l.regions) (p : Nat) : (l.record (.move q)).held p =
    if p = l.regions then l.held q else if p = q then [] else l.held p := by
  by_cases new : p = l.regions
  · rw [if_pos new]
    refine (held_record_of_iff sound (fun place _ => ?_)).trans (List.append_nil _)
    grind [Call.carry]
  · rw [if_neg new]
    by_cases same : p = q
    · rw [if_pos same]
      refine held_record_of_ne sound (fun place _ => ?_)
      grind [Call.carry]
    · rw [if_neg same]
      refine (held_record_of_iff sound (fun place _ => ?_)).trans (List.append_nil _)
      grind [Call.carry]

theorem lost_record (keeps : ∀ place, call.carry l.regions place ≠ none) : (l.record call).lost = l.lost := by
  have brings : ((call.brings l.tracked.length).filter fun t => t.place == none) = [] := by
    cases call <;> rfl
  rw [lost, those_record, brings, List.map_nil, List.append_nil]
  apply those_congr
  intro t _
  cases t.place with
  | none => rfl
  | some place => rw [Option.bind_some, beq_eq_false_iff_ne.mpr (keeps place)]; rfl

theorem lost_reset (q : Nat) : (l.record (.reset q)).lost.Perm (l.lost ++ l.held q) := by
  have lost : (l.record (.reset q)).lost = l.those (fun place => place == none || place == some q) := by
    rw [lost, those_record]
    refine (List.append_nil _).trans (those_congr ?_)
    intro t _
    cases t.place with
    | none => rfl
    | some place => grind [Call.carry]
  have parts := List.filter_append_perm (fun t : Tracked α => t.place == none)
    (l.tracked.filter fun t => t.place == none || t.place == some q)
  rw [List.filter_filter, List.filter_filter] at parts
  have first : (l.tracked.filter fun t => t.place == none && (t.place == none || t.place == some q)) =
      l.tracked.filter fun t => t.place == none := List.filter_congr (fun t _ => by grind)
  have second : (l.tracked.filter fun t => !(t.place == none) && (t.place == none || t.place == some q)) =
      l.tracked.filter fun t => t.place == some q := List.filter_congr (fun t _ => by grind)
  rw [first, second] at parts
  rw [lost]
  have mapped := parts.symm.map (fun t => (t.number, t.object))
  rw [List.map_append] at mapped
  exact mapped

theorem length_record (call : Call α) :
    (l.record call).tracked.length = l.tracked.length + (call.brings l.tracked.length).length := by
  rw [record, List.length_append, List.length_map]

theorem carry_lt {place place' : Nat} (fits : call.Fits l.regions) (there : place < l.regions)
    (carried : call.carry l.regions place = some place') : place' < l.regions + call.opens := by
  cases call <;> grind [Call.carry, Call.Fits, Call.opens, exchanged]

theorem Sound.record (sound : l.Sound) (fits : call.Fits l.regions) : (l.record call).Sound := by
  constructor
  · have brings : (call.brings l.tracked.length).map Tracked.number =
        (List.range (call.brings l.tracked.length).length).map (l.tracked.length + ·) := by
      cases call <;> rfl
    rw [length_record, List.range_add, ← brings, ← sound.numbers, Ledger.record, List.map_append, List.map_map]
    rfl
  · intro t member p place
    rcases List.mem_append.mp member with before | new
    · obtain ⟨old, oldMember, rfl⟩ := List.mem_map.mp before
      obtain ⟨oldPlace, there, carried⟩ := Option.bind_eq_some_iff.mp place
      exact carry_lt fits (sound.places old oldMember oldPlace there) carried
    · cases call with
      | make q object =>
        cases List.mem_singleton.mp new
        cases place
        exact fits
      | _ => cases new

end Ledger

/-- The regions hold what the ledger has in them, and what the ledger has in none of them is gone. -/
structure Accounts (rs : Regions α) (l : Ledger α) (gone : List (Nat × α)) : Prop where
  ledger : l.Sound
  count : rs.regions.size = l.regions
  made : rs.made = l.tracked.length
  region : ∀ p region, rs.regions[p]? = some region → region.Sound ∧ region.contents = l.held p
  gone : gone.Perm l.lost

variable {l : Ledger α}

theorem Step.size_eq (step : rs.Step call rs' destroyed) : rs'.regions.size = rs.regions.size + call.opens := by
  cases step with
  | create positive => exact Array.size_push _
  | make found => exact Array.size_setIfInBounds
  | reset found => exact Array.size_setIfInBounds
  | exchange named foundFirst foundSecond =>
    rw [Array.size_setIfInBounds, Array.size_setIfInBounds]
    rcases named with rfl | rfl <;> rfl
  | move found =>
    rw [Array.size_push, Array.size_setIfInBounds]
    rfl

theorem Step.made_eq (step : rs.Step call rs' destroyed) (number : Nat) :
    rs'.made = rs.made + (call.brings number).length := by
  cases step with
  | exchange named foundFirst foundSecond => rcases named with rfl | rfl <;> rfl
  | _ => rfl

theorem Accounts.region_step (accounts : rs.Accounts l gone) (fits : call.Fits l.regions)
    (step : rs.Step call rs' destroyed) {p : Nat} {region : Region (Nat × α)} (found : rs'.regions[p]? = some region) :
    region.Sound ∧ region.contents = (l.record call).held p := by
  obtain ⟨sound, last, made, kept, -⟩ := accounts
  cases step with
  | create positive =>
    rw [Array.getElem?_push] at found
    rw [Ledger.held_create sound]
    split at found
    next new =>
      cases found
      have nothing : l.held p = [] := Ledger.held_of_le sound (Nat.le_of_eq (last.symm.trans new.symm))
      exact ⟨Region.sound_empty positive, nothing.symm⟩
    next => exact kept p region found
  | @make q object old atOld =>
    rw [getElem?_replaced atOld] at found
    rw [Ledger.held_make sound]
    split at found
    next same =>
      cases found
      obtain ⟨oldSound, contents⟩ := kept q old atOld
      rw [if_pos same, same, ← contents, ← made]
      exact ⟨oldSound.make _, oldSound.contents_make _⟩
    next other =>
      rw [if_neg other, List.append_nil]
      exact kept p region found
  | @reset q old atOld =>
    rw [getElem?_replaced atOld] at found
    rw [Ledger.held_reset sound]
    split at found
    next same =>
      cases found
      rw [if_pos same]
      exact ⟨(kept q old atOld).1.emptied, rfl⟩
    next other =>
      rw [if_neg other]
      exact kept p region found
  | exchange named foundFirst foundSecond =>
    rw [getElem?_exchanged foundFirst foundSecond] at found
    rw [Ledger.held_exchange sound named]
    exact kept _ region found
  | @move q old atOld =>
    rw [Array.getElem?_push, Array.size_setIfInBounds, last, getElem?_replaced atOld] at found
    rw [Ledger.held_move sound fits]
    split at found
    next new =>
      cases found
      rw [if_pos new]
      exact kept q region atOld
    next before =>
      rw [if_neg before]
      split at found
      next same =>
        cases found
        rw [if_pos same]
        exact ⟨(kept q old atOld).1.emptied, rfl⟩
      next other =>
        rw [if_neg other]
        exact kept p region found

theorem Accounts.gone_of_keeps (accounts : rs.Accounts l gone) (keeps : ∀ place, call.carry l.regions place ≠ none) :
    (gone ++ []).Perm (l.record call).lost := by
  rw [List.append_nil, Ledger.lost_record keeps]
  exact accounts.gone

theorem Accounts.lost_step (accounts : rs.Accounts l gone) (step : rs.Step call rs' destroyed) :
    (gone ++ destroyed).Perm (l.record call).lost := by
  cases step with
  | @reset q region found =>
    obtain ⟨sound, contents⟩ := accounts.region q region found
    rw [sound.released_eq, contents]
    exact (accounts.gone.append_right _).trans (Ledger.lost_reset q).symm
  | exchange named foundFirst foundSecond =>
    rcases named with rfl | rfl <;> exact accounts.gone_of_keeps fun _ => Option.some_ne_none _
  | create | make | move => exact accounts.gone_of_keeps fun _ => Option.some_ne_none _

theorem Accounts.step (accounts : rs.Accounts l gone) (fits : call.Fits l.regions) (step : rs.Step call rs' destroyed) :
    rs'.Accounts (l.record call) (gone ++ destroyed) where
  ledger := accounts.ledger.record fits
  count := by
    rw [step.size_eq, accounts.count]
    rfl
  made := by rw [Ledger.length_record, ← accounts.made, step.made_eq]
  region _ _ := accounts.region_step fits step
  gone := accounts.lost_step step

/-- The calls can be made one after another: each fits the regions that there are by then. -/
def Ledger.Allows (l : Ledger α) : List (Call α) → Prop
  | [] => True
  | call :: calls => call.Fits l.regions ∧ (l.record call).Allows calls

theorem accounts_empty : ({} : Regions α).Accounts {} [] where
  ledger := ⟨rfl, List.forall_mem_nil _⟩
  count := rfl
  made := rfl
  region _ _ found := nomatch found
  gone := .nil

theorem Accounts.run {s : Store α} {owner : Nat → Nat} {calls : List (Call α)} (accounts : rs.Accounts l gone)
    (represents : s.Represents rs owner) (allowed : l.Allows calls) :
    ∃ rs' s' owner' destroyed, rs.run? calls = some (rs', destroyed) ∧ s.run? calls = some (s', destroyed) ∧
      rs'.Accounts (calls.foldl Ledger.record l) (gone ++ destroyed) ∧ s'.Represents rs' owner' := by
  induction calls generalizing rs s owner l gone with
  | nil => exact ⟨rs, s, owner, [], rfl, rfl, (List.append_nil gone).symm ▸ accounts, represents⟩
  | cons call calls ih =>
    obtain ⟨fits, later⟩ := allowed
    obtain ⟨rs1, first, called, step⟩ := step_of_fits (accounts.count ▸ fits)
    obtain ⟨s1, owner1, calledInMemory, represents1⟩ :=
      represents.step (fun p region found => (accounts.region p region found).1) step
    obtain ⟨rs', s', owner', others, ran, ranInMemory, kept, represents'⟩ :=
      ih (accounts.step fits step) represents1 later
    refine ⟨rs', s', owner', first ++ others, ?_, ?_, List.append_assoc gone first others ▸ kept, represents'⟩
    · simp only [run?, called, ran, Option.bind_eq_bind, Option.bind_some, Option.pure_def]
    · simp only [Store.run?, calledInMemory, ranInMemory, Option.bind_eq_bind, Option.bind_some, Option.pure_def]

namespace Ledger

theorem Sound.getElem?_number (sound : l.Sound) {t : Tracked α} (member : t ∈ l.tracked) :
    l.tracked[t.number]? = some t := by
  obtain ⟨i, atIndex⟩ := List.mem_iff_getElem?.mp member
  have number : (l.tracked.map Tracked.number)[i]? = some t.number := by rw [List.getElem?_map, atIndex]; rfl
  obtain ⟨below, -⟩ := List.getElem?_eq_some_iff.mp atIndex
  rw [sound.numbers, List.getElem?_range below] at number
  cases number
  exact atIndex

theorem Sound.nodup_those (sound : l.Sound) (wanted : Option Nat → Bool) : ((l.those wanted).map Prod.fst).Nodup := by
  rw [those, List.map_map]
  have part := (List.filter_sublist (p := fun t => wanted t.place) (l := l.tracked)).map Tracked.number
  rw [sound.numbers] at part
  exact part.nodup List.nodup_range

theorem mem_those {wanted : Option Nat → Bool} {number : Nat} {object : α} : (number, object) ∈ l.those wanted ↔
    ∃ t ∈ l.tracked, wanted t.place = true ∧ t.number = number ∧ t.object = object := by
  simp only [those, List.mem_map, List.mem_filter, Prod.mk.injEq, and_assoc]

end Ledger

theorem Accounts.found (accounts : rs.Accounts l gone) {p : Nat} (below : p < l.regions) :
    ∃ region, rs.regions[p]? = some region ∧ region.Sound ∧ region.contents = l.held p := by
  have there := Array.getElem?_eq_getElem (accounts.count ▸ below : p < rs.regions.size)
  exact ⟨_, there, accounts.region p _ there⟩

theorem Accounts.sizes_eq (accounts : rs.Accounts l gone) :
    rs.sizes = (List.range l.regions).map fun p => l.tracked.countP fun t => t.place == some p := by
  apply List.ext_getElem?
  intro p
  rw [sizes, List.getElem?_map, List.getElem?_map, Array.getElem?_toList]
  by_cases below : p < l.regions
  · obtain ⟨region, there, sound, contents⟩ := accounts.found below
    rw [there, List.getElem?_range below, Option.map_some, Option.map_some, sound.size_eq, contents, Ledger.held, Ledger.those,
      List.length_map, List.countP_eq_length_filter]
  · rw [Array.getElem?_eq_none (accounts.count ▸ Nat.not_lt.mp below),
      List.getElem?_eq_none (List.length_range ▸ Nat.not_lt.mp below)]
    rfl

theorem Accounts.mem_contents (accounts : rs.Accounts l gone) {t : Tracked α} {p : Nat} (member : t ∈ l.tracked)
    (place : t.place = some p) : ∃ region, rs.regions[p]? = some region ∧ (t.number, t.object) ∈ region.contents := by
  obtain ⟨region, there, -, contents⟩ := accounts.found (accounts.ledger.places t member p place)
  refine ⟨region, there, ?_⟩
  rw [contents, Ledger.held, Ledger.mem_those]
  exact ⟨t, member, beq_iff_eq.mpr place, rfl, rfl⟩

theorem Accounts.of_read? (accounts : rs.Accounts l gone) {number : Nat} {object : α}
    (read : rs.read? number = some object) :
    ∃ t ∈ l.tracked, t.number = number ∧ t.object = object ∧ t.place ≠ none := by
  obtain ⟨region, member, inRegion⟩ := List.exists_of_findSome?_eq_some read
  obtain ⟨p, found⟩ := Array.mem_iff_getElem?.mp (Array.mem_def.mpr member)
  obtain ⟨⟨number', object'⟩, hit, rfl⟩ := Option.map_eq_some_iff.mp inRegion
  have same := List.find?_some hit
  have present := List.mem_of_find?_eq_some hit
  rw [(accounts.region p region found).2, Ledger.held, Ledger.mem_those] at present
  obtain ⟨t, tracked, place, rfl, rfl⟩ := present
  refine ⟨t, tracked, beq_iff_eq.mp same, rfl, ?_⟩
  rw [beq_iff_eq.mp place]
  exact Option.some_ne_none p

theorem Accounts.read?_eq (accounts : rs.Accounts l gone) {t : Tracked α} (member : t ∈ l.tracked) :
    rs.read? t.number = t.place.map fun _ => t.object := by
  have sound := accounts.ledger
  have only {object : α} (read : rs.read? t.number = some object) : object = t.object ∧ t.place ≠ none := by
    obtain ⟨t', member', number, rfl, place⟩ := accounts.of_read? read
    have same : some t' = some t := by rw [← sound.getElem?_number member', number, sound.getElem?_number member]
    cases same
    exact ⟨rfl, place⟩
  cases place : t.place with
  | none =>
    cases read : rs.read? t.number with
    | none => rfl
    | some object => exact absurd place (only read).2
  | some p =>
    obtain ⟨region, there, present⟩ := accounts.mem_contents member place
    have some : (rs.read? t.number).isSome := by
      rw [read?, List.findSome?_isSome_iff]
      refine ⟨region, Array.mem_def.mp (Array.mem_of_getElem? there), ?_⟩
      rw [Option.isSome_map, List.find?_isSome]
      exact ⟨_, present, beq_iff_eq.mpr rfl⟩
    obtain ⟨object, read⟩ := Option.isSome_iff_exists.mp some
    rw [read, (only read).1]
    rfl

theorem Accounts.reset {s : Store α} {owner : Nat → Nat} (accounts : rs.Accounts l gone) (represents : s.Represents rs owner)
    {p : Nat} (below : p < l.regions) :
    ∃ rs' s', rs.reset? p = some (rs', l.held p) ∧ s.call? (.reset p) = some (s', l.held p) := by
  obtain ⟨region, there, sound, contents⟩ := accounts.found below
  obtain ⟨s', -, called, -⟩ := represents.step (fun q region there => (accounts.region q region there).1) (.reset there)
  have emptied : rs.reset? p = some ({ rs with regions := rs.regions.setIfInBounds p region.emptied }, region.released) := by
    rw [reset?, there]
    rfl
  rw [sound.released_eq, contents] at called emptied
  exact ⟨_, s', emptied, called⟩

def Ledger.ofCalls (calls : List (Call α)) : Ledger α := calls.foldl Ledger.record {}

/-- After any sequence of calls, with the regions by themselves and in memory: their sizes are the numbers of objects in them,
every object in one of them is read as it was made, to reset one destroys the objects in it and each of them once, and all that
were destroyed on the way are the objects in none. -/
theorem objects_accounted_for (calls : List (Call α)) (allowed : Ledger.Allows {} calls) :
    let l := Ledger.ofCalls calls
    ∃ rs s gone, run? {} calls = some (rs, gone) ∧ Store.run? {} calls = some (s, gone) ∧
      (rs.sizes = (List.range l.regions).map fun p => l.tracked.countP fun t => t.place == some p) ∧ s.sizes = rs.sizes ∧
      (∀ t ∈ l.tracked, rs.read? t.number = t.place.map fun _ => t.object) ∧
      (∀ t ∈ l.tracked, t.place ≠ none → s.read? t.number = some (t.number, t.object)) ∧
      (∀ p < l.regions, ((l.held p).map Prod.fst).Nodup ∧
        ∃ rs' s', rs.reset? p = some (rs', l.held p) ∧ s.call? (.reset p) = some (s', l.held p)) ∧
      (gone.map Prod.fst).Nodup ∧ gone.Perm l.lost := by
  intro l
  obtain ⟨rs, s, owner, gone, ran, ranInMemory, accounts, represents⟩ :=
    accounts_empty.run Store.represents_empty allowed
  have sound := accounts.ledger
  refine ⟨rs, s, gone, ran, ranInMemory, accounts.sizes_eq, represents.sizes_eq, fun t => accounts.read?_eq, ?_, ?_, ?_,
    accounts.gone⟩
  · intro t member place
    obtain ⟨p, atPlace⟩ := Option.ne_none_iff_exists'.mp place
    obtain ⟨region, there, present⟩ := accounts.mem_contents member atPlace
    exact represents.read?_eq there present
  · intro p below
    exact ⟨sound.nodup_those _, accounts.reset represents below⟩
  · exact ((accounts.gone.map Prod.fst).nodup_iff).mpr (sound.nodup_those _)

/-- Blocks of two and three objects that are filled to the brim and beyond, an exchange of regions of different block sizes, and
a region that goes on after its objects were moved out. -/
theorem objects_accounted_for_after_exchange :
    let calls : List (Call Nat) := [.create 2, .create 3, .make 0 50, .make 0 51, .make 1 52, .make 0 53, .swap 0 1, .make 1 54,
      .move 1, .make 1 55, .make 0 56, .assign 2 0, .reset 2, .make 2 57]
    Ledger.Allows {} calls ∧ ∃ rs s gone, run? {} calls = some (rs, gone) ∧ Store.run? {} calls = some (s, gone) ∧
      rs.sizes = [4, 1, 1] ∧ s.sizes = [4, 1, 1] ∧ rs.read? 4 = some 54 ∧ s.read? 4 = some (4, 54) ∧ rs.read? 2 = none ∧
      gone.Perm [(2, 52), (6, 56)] ∧
      ∃ rs' s', rs.reset? 0 = some (rs', [(0, 50), (1, 51), (3, 53), (4, 54)]) ∧
        s.call? (.reset 0) = some (s', [(0, 50), (1, 51), (3, 53), (4, 54)]) := by
  intro calls
  have allowed : Ledger.Allows {} calls := by
    simp [calls, Ledger.Allows, Ledger.record, Call.Fits, Call.opens]
  obtain ⟨rs, s, gone, ran, ranInMemory, sizes, sameSizes, read, readInMemory, resets, -, lost⟩ :=
    objects_accounted_for calls allowed
  have sizes' : rs.sizes = [4, 1, 1] := sizes.trans (by decide)
  have inFirst : (⟨4, 54, some 0⟩ : Tracked Nat) ∈ (Ledger.ofCalls calls).tracked := by decide
  have inNone : (⟨2, 52, none⟩ : Tracked Nat) ∈ (Ledger.ofCalls calls).tracked := by decide
  have lost' : (Ledger.ofCalls calls).lost = [(2, 52), (6, 56)] := by decide
  have held : (Ledger.ofCalls calls).held 0 = [(0, 50), (1, 51), (3, 53), (4, 54)] := by decide
  obtain ⟨-, reset⟩ := resets 0 (by decide)
  rw [held] at reset
  exact ⟨allowed, rs, s, gone, ran, ranInMemory, sizes', sameSizes.trans sizes', read _ inFirst,
    readInMemory _ inFirst (Option.some_ne_none 0), read _ inNone, lost' ▸ lost, reset⟩

end Regions

end SelfLambda
