import SelfLambda.Proofs.Module.OrderedMap
import SelfLambda.Proofs.Region

/-! Modules as they are stored. A directory has a pool of nodes, entries that name their terms by places in the pool, and the
position of each name in a map beside them. To add a definition copies its terms into the pool, node by node, and then writes
over the entry of its name or makes a new one. Entries and positions stay one another's inverse, the pool only grows, and so a
directory shows at every position and for every name what the module has there. -/

namespace SelfLambda

def Region.put {α : Type} (r : Region α) (object : α) : Region α × Nat := (r.make object, r.size)

theorem Region.Sound.put {α : Type} {r : Region α} (sound : r.Sound) (object : α) :
    (r.put object).1.Sound ∧ r.contents <+: (r.put object).1.contents ∧
      (r.put object).1.contents[(r.put object).2]? = some object := by
  refine ⟨sound.make object, ?_, ?_⟩
  · exact ⟨[object], (sound.contents_make object).symm⟩
  · change (r.make object).contents[r.size]? = some object
    rw [sound.contents_make, sound.size_eq, List.getElem?_concat_length]

namespace Term

/-- A term without its parts, which are named by their places. -/
inductive Node where
  | var (index : UInt64)
  | ref (name : Name)
  | typ
  | all (erased : Bool) (self param : Name) (domain codomain : Nat)
  | lam (erased : Bool) (param : Name) (body : Nat)
  | app (erased : Bool) (fn arg : Nat)
  | ann (checked : Bool) (type term : Nat)
  deriving DecidableEq, Repr

def copy : Term → Region Node → Region Node × Nat
  | var index, pool => pool.put (.var index)
  | ref name, pool => pool.put (.ref name)
  | typ, pool => pool.put .typ
  | all erased self param domain codomain, pool =>
    let (pool, domain) := domain.copy pool
    let (pool, codomain) := codomain.copy pool
    pool.put (.all erased self param domain codomain)
  | lam erased param body, pool =>
    let (pool, body) := body.copy pool
    pool.put (.lam erased param body)
  | app erased fn arg, pool =>
    let (pool, fn) := fn.copy pool
    let (pool, arg) := arg.copy pool
    pool.put (.app erased fn arg)
  | ann checked type term, pool =>
    let (pool, type) := type.copy pool
    let (pool, term) := term.copy pool
    pool.put (.ann checked type term)

/-- The term can be read off the nodes from a place on, names and all. -/
def StoredAt (nodes : List Node) : Term → Nat → Prop
  | var index, place => nodes[place]? = some (.var index)
  | ref name, place => nodes[place]? = some (.ref name)
  | typ, place => nodes[place]? = some .typ
  | all erased self param domain codomain, place => ∃ p q,
    nodes[place]? = some (.all erased self param p q) ∧ domain.StoredAt nodes p ∧ codomain.StoredAt nodes q
  | lam erased param body, place => ∃ p, nodes[place]? = some (.lam erased param p) ∧ body.StoredAt nodes p
  | app erased fn arg, place => ∃ p q,
    nodes[place]? = some (.app erased p q) ∧ fn.StoredAt nodes p ∧ arg.StoredAt nodes q
  | ann checked type term, place => ∃ p q,
    nodes[place]? = some (.ann checked p q) ∧ type.StoredAt nodes p ∧ term.StoredAt nodes q

variable {nodes more : List Node} {t u : Term} {place : Nat}

theorem StoredAt.mono (stored : t.StoredAt nodes place) (grows : nodes <+: more) : t.StoredAt more place := by
  have still {place : Nat} {node : Node} (found : nodes[place]? = some node) : more[place]? = some node := by
    obtain ⟨below, -⟩ := List.getElem?_eq_some_iff.mp found
    obtain ⟨rest, rfl⟩ := grows
    rw [List.getElem?_append_left below, found]
  induction t generalizing place with
  | var | ref | typ => exact still stored
  | lam erased param body ih =>
    obtain ⟨p, found, inner⟩ := stored
    exact ⟨p, still found, ih inner⟩
  | all _ _ _ _ _ first second | app _ _ _ first second | ann _ _ _ first second =>
    obtain ⟨p, q, found, left, right⟩ := stored
    exact ⟨p, q, still found, first left, second right⟩

theorem StoredAt.unique (stored : t.StoredAt nodes place) (other : u.StoredAt nodes place) : t = u := by
  induction t generalizing u place with
  | var | ref | typ => cases u <;> grind [StoredAt]
  | lam erased param body ih =>
    obtain ⟨p, found, inner⟩ := stored
    cases u <;> grind [StoredAt]
  | all _ _ _ _ _ first second | app _ _ _ first second | ann _ _ _ first second =>
    obtain ⟨p, q, found, left, right⟩ := stored
    cases u <;> grind [StoredAt]

theorem copy_spec (t : Term) {pool : Region Node} (sound : pool.Sound) :
    (t.copy pool).1.Sound ∧ pool.contents <+: (t.copy pool).1.contents ∧
      t.StoredAt (t.copy pool).1.contents (t.copy pool).2 := by
  induction t generalizing pool with
  | var | ref | typ => exact sound.put _
  | lam erased param body ih =>
    obtain ⟨soundBody, grows, stored⟩ := ih sound
    obtain ⟨soundNode, growsLast, node⟩ := soundBody.put _
    exact ⟨soundNode, grows.trans growsLast, _, node, stored.mono growsLast⟩
  | all _ _ _ _ _ first second | app _ _ _ first second | ann _ _ _ first second =>
    obtain ⟨soundFirst, growsFirst, storedFirst⟩ := first sound
    obtain ⟨soundSecond, growsSecond, storedSecond⟩ := second soundFirst
    obtain ⟨soundNode, growsLast, node⟩ := soundSecond.put _
    exact ⟨soundNode, growsFirst.trans (growsSecond.trans growsLast), _, _, node,
      storedFirst.mono (growsSecond.trans growsLast), storedSecond.mono growsLast⟩

end Term

structure Entry where
  name : Name
  type : Nat
  term : Nat
  deriving DecidableEq, Repr

def Definition.copy (d : Definition) (pool : Region Term.Node) : Region Term.Node × Entry :=
  let (pool, type) := d.type.copy pool
  let (pool, term) := d.term.copy pool
  (pool, { name := d.name, type, term })

structure Entry.Shows (pool : Region Term.Node) (entry : Entry) (d : Definition) : Prop where
  name : entry.name = d.name
  type : d.type.StoredAt pool.contents entry.type
  term : d.term.StoredAt pool.contents entry.term

section

variable {pool pool' : Region Term.Node} {entry : Entry} {d e : Definition}

theorem Entry.Shows.mono (shows : entry.Shows pool d) (grows : pool.contents <+: pool'.contents) : entry.Shows pool' d :=
  ⟨shows.name, shows.type.mono grows, shows.term.mono grows⟩

theorem Entry.Shows.unique (shows : entry.Shows pool d) (other : entry.Shows pool e) : d = e := by
  obtain ⟨name, type, term⟩ := d
  obtain ⟨name', type', term'⟩ := e
  obtain rfl : name = name' := shows.name.symm.trans other.name
  obtain rfl : type = type' := shows.type.unique other.type
  obtain rfl : term = term' := shows.term.unique other.term
  rfl

theorem Entry.shows_iff {found : Option Entry} {wanted : Option Definition}
    (shown : Option.Rel (Entry.Shows pool) found wanted) :
    (∃ entry, found = some entry ∧ entry.Shows pool d) ↔ wanted = some d := by
  cases shown with
  | none => exact ⟨nofun, nofun⟩
  | @some entry e shows =>
    constructor
    · rintro ⟨_, ⟨⟩, other⟩
      rw [shows.unique other]
    · rintro ⟨⟩
      exact ⟨entry, rfl, shows⟩

theorem Definition.copy_spec (d : Definition) (sound : pool.Sound) :
    (d.copy pool).1.Sound ∧ pool.contents <+: (d.copy pool).1.contents ∧ (d.copy pool).2.Shows (d.copy pool).1 d := by
  obtain ⟨soundType, growsType, storedType⟩ := d.type.copy_spec sound
  obtain ⟨soundTerm, growsTerm, storedTerm⟩ := d.term.copy_spec soundType
  exact ⟨soundTerm, growsType.trans growsTerm, rfl, storedType.mono growsTerm, storedTerm⟩

end

/-- Definitions in a pool, and a map that tells the position of the entry of a name. -/
structure Directory where
  pool : Region Term.Node := {}
  entries : Array Entry := #[]
  positions : Std.HashMap Name Nat := {}

namespace Directory

/-- The directory with `d` in it, and the position of `d`; nothing if an entry is to be written where none is. -/
def add? (dir : Directory) (d : Definition) : Option (Directory × Nat) :=
  let (pool, entry) := d.copy dir.pool
  match dir.positions[d.name]? with
  | some position =>
    if position < dir.entries.size then
      some ({ dir with pool, entries := dir.entries.setIfInBounds position entry }, position)
    else none
  | none =>
    let entries := dir.entries.push entry
    some ({ pool, entries, positions := dir.positions.insert d.name (entries.size - 1) }, entries.size - 1)

def addAll? (dir : Directory) : List Definition → Option Directory
  | [] => some dir
  | d :: ds => do
    let (dir, _) ← dir.add? d
    dir.addAll? ds

def find? (dir : Directory) (n : Name) : Option (Option Entry) :=
  match dir.positions[n]? with
  | some position => dir.entries[position]?.map some
  | none => some none

section

variable {dir : Directory} {d : Definition}

theorem add?_of_known {position : Nat} (known : dir.positions[d.name]? = some position)
    (inside : position < dir.entries.size) :
    dir.add? d = some ({ dir with
      pool := (d.copy dir.pool).1
      entries := dir.entries.setIfInBounds position (d.copy dir.pool).2 }, position) := by
  simp only [add?, known, inside, if_true]

theorem add?_of_unknown (unknown : dir.positions[d.name]? = none) :
    dir.add? d = some ({
      pool := (d.copy dir.pool).1
      entries := dir.entries.push (d.copy dir.pool).2
      positions := dir.positions.insert d.name dir.entries.size }, dir.entries.size) := by
  simp only [add?, unknown, Array.size_push, Nat.add_sub_cancel]

end

/-- The directory has what the module has, position by position, and each name leads to its position. -/
structure Represents (dir : Directory) (m : Module) : Prop where
  sound : dir.pool.Sound
  shown : ∀ i : Nat, Option.Rel (Entry.Shows dir.pool) dir.entries[i]? (m.get? i)
  positions : ∀ (n : Name) (i : Nat), dir.positions[n]? = some i ↔ m.names[i]? = some n

theorem represents_empty : ({} : Directory).Represents {} where
  sound := Region.sound_empty (by decide)
  shown _ := .none
  positions n i := by
    change (∅ : Std.HashMap Name Nat)[n]? = some i ↔ none = some n
    rw [Std.HashMap.getElem?_empty]
    exact ⟨nofun, nofun⟩

namespace Represents

variable {dir : Directory} {m : Module}

theorem size_eq (represents : dir.Represents m) : dir.entries.size = m.size := by
  have same (i : Nat) : dir.entries.size ≤ i ↔ m.size ≤ i := by
    rw [← Array.getElem?_eq_none_iff, ← Module.get?_eq_none_iff]
    exact rel_none_iff (represents.shown i)
  exact Nat.le_antisymm ((same _).mpr (Nat.le_refl _)) ((same _).mp (Nat.le_refl _))

theorem names_eq (represents : dir.Represents m) (i : Nat) : dir.entries[i]?.map Entry.name = m.names[i]? := by
  have shown := represents.shown i
  rw [Module.getElem?_names]
  generalize dir.entries[i]? = found, m.get? i = wanted at shown ⊢
  cases shown with
  | none => rfl
  | some shows => exact congrArg some shows.name

theorem positions_eq (represents : dir.Represents m) (n : Name) :
    dir.positions[n]? = if n ∈ m.names then some (m.names.idxOf n) else none := by
  split
  next member => exact (represents.positions n _).mpr (List.getElem?_idxOf member)
  next absent =>
    cases known : dir.positions[n]? with
    | none => rfl
    | some i => exact absurd (List.mem_of_getElem? ((represents.positions n i).mp known)) absent

theorem shown_insert (represents : dir.Represents m) (d : Definition) {entries : Array Entry}
    (changed : ∀ i : Nat, entries[i]? = if i = (m.add d).2 then some (d.copy dir.pool).2 else dir.entries[i]?) (i : Nat) :
    Option.Rel (Entry.Shows (d.copy dir.pool).1) entries[i]? ((m.insert d).get? i) := by
  obtain ⟨-, grows, shows⟩ := d.copy_spec represents.sound
  rw [changed, Module.get?_insert]
  split
  · exact .some shows
  · exact rel_imp (represents.shown i) fun _ _ before => before.mono grows

theorem positions_insert (represents : dir.Represents m) {d : Definition} (new : d.name ∉ m.names) (n : Name) (i : Nat) :
    (dir.positions.insert d.name dir.entries.size)[n]? = some i ↔ (m.insert d).names[i]? = some n := by
  rw [Module.names_insert, if_neg new, Std.HashMap.getElem?_insert, represents.size_eq, ← Module.length_names]
  by_cases named : d.name = n
  · have absent : m.names[i]? ≠ some n := fun found => new (named ▸ List.mem_of_getElem? found)
    rw [if_pos (beq_iff_eq.mpr named)]
    grind
  · rw [if_neg (mt beq_iff_eq.mp named), represents.positions]
    grind

theorem add (represents : dir.Represents m) (d : Definition) :
    ∃ dir', dir.add? d = some (dir', (m.add d).2) ∧ dir'.Represents (m.insert d) := by
  have sound := (d.copy_spec represents.sound).1
  by_cases member : d.name ∈ m.names
  · have known : dir.positions[d.name]? = some (m.add d).2 := by
      rw [represents.positions_eq, if_pos member, Module.position_add]
    have inside : (m.add d).2 < dir.entries.size := by
      rw [represents.size_eq, Module.position_add, ← Module.length_names]
      exact List.idxOf_lt_length_iff.mpr member
    refine ⟨_, add?_of_known known inside, sound, represents.shown_insert d fun i => ?_, fun n i => ?_⟩
    · exact getElem?_replaced (Array.getElem?_eq_getElem inside) _ i
    · rw [Module.names_insert, if_pos member]
      exact represents.positions n i
  · have unknown : dir.positions[d.name]? = none := by
      rw [represents.positions_eq, if_neg member]
    have last : (m.add d).2 = dir.entries.size := by
      rw [represents.size_eq, Module.position_add, ← Module.length_names]
      exact List.idxOf_eq_length_iff.mpr member
    rw [last]
    refine ⟨_, add?_of_unknown unknown, sound, represents.shown_insert d fun i => ?_, represents.positions_insert member⟩
    rw [last]
    exact Array.getElem?_push

theorem addAll (represents : dir.Represents m) (ds : List Definition) :
    ∃ dir', dir.addAll? ds = some dir' ∧ dir'.Represents (m.insertAll ds) := by
  induction ds generalizing dir m with
  | nil => exact ⟨dir, rfl, represents⟩
  | cons d ds ih =>
    obtain ⟨next, added, representsNext⟩ := represents.add d
    obtain ⟨last, addedAll, representsLast⟩ := ih representsNext
    refine ⟨last, ?_, representsLast⟩
    rw [addAll?, added]
    exact addedAll

theorem find? (represents : dir.Represents m) (n : Name) :
    ∃ found, dir.find? n = some found ∧ Option.Rel (Entry.Shows dir.pool) found (m.find? n) := by
  rw [Directory.find?, represents.positions_eq]
  by_cases member : n ∈ m.names
  · have shown := represents.shown (m.names.idxOf n)
    rw [Module.get?_idxOf_names] at shown
    cases found : dir.entries[m.names.idxOf n]? with
    | none =>
      have nothing := (rel_none_iff shown).mp found
      exact absurd member (Module.find?_eq_none_iff.mp nothing)
    | some entry =>
      rw [found] at shown
      simp only [if_pos member, found]
      exact ⟨some entry, rfl, shown⟩
  · simp only [if_neg member, Module.find?_eq_none_iff.mpr member]
    exact ⟨none, rfl, .none⟩

end Represents

end Directory

/-- What a module is after any run of insertions: its names are distinct and in the order in which each first came, a name
stands for the last definition of it, and a definition is found at the position that was told for it. A directory into which
the same definitions are added has one entry for each position and one position for each name, and shows the same. -/
theorem Module.insertions_make_ordered_map (ds : List Definition) :
    let m := insertAll {} ds
    m.names.Nodup ∧
    (∀ n, n ∈ m.names ↔ n ∈ ds.map Definition.name) ∧
    m.names.Pairwise (fun a b => (ds.map Definition.name).idxOf a < (ds.map Definition.name).idxOf b) ∧
    m.size = (ds.map Definition.name).toFinset.card ∧
    (∀ n, m.find? n = none ↔ n ∉ ds.map Definition.name) ∧
    (∀ n d, m.find? n = some d ↔
      ∃ before after, ds = before ++ d :: after ∧ d.name = n ∧ n ∉ after.map Definition.name) ∧
    (∀ d, (m.add d).1.get? (m.add d).2 = some d) ∧
    (∀ i, m.get? i = none ↔ m.size ≤ i) ∧
    ∃ dir, Directory.addAll? {} ds = some dir ∧
      dir.entries.size = m.size ∧
      (∀ (n : Name) (i : Nat), dir.positions[n]? = some i ↔ dir.entries[i]?.map Entry.name = some n) ∧
      (∀ (i : Nat) d, (∃ entry, dir.entries[i]? = some entry ∧ entry.Shows dir.pool d) ↔ m.get? i = some d) ∧
      (∀ n, ∃ found, dir.find? n = some found ∧ (found = none ↔ m.find? n = none) ∧
        ∀ d, (∃ entry, found = some entry ∧ entry.Shows dir.pool d) ↔ m.find? n = some d) ∧
      ∀ d, ∃ dir' entry, dir.add? d = some (dir', (m.add d).2) ∧
        dir'.entries[(m.add d).2]? = some entry ∧ entry.Shows dir'.pool d := by
  intro m
  have here (d : Definition) : (m.insert d).get? (m.add d).2 = some d := by
    rw [get?_insert, if_pos rfl]
  obtain ⟨dir, added, represents⟩ := Directory.represents_empty.addAll ds
  refine ⟨nodup_insertAll (m := {}) List.nodup_nil ds, fun n => mem_names_insertAll, pairwise_names_insertAll ds,
    size_insertAll ds, fun n => find?_insertAll_eq_none_iff, fun n d => find?_insertAll_eq_some_iff, here,
    fun i => get?_eq_none_iff, dir, added, represents.size_eq, ?_, ?_, ?_, ?_⟩
  · intro n i
    rw [represents.positions, represents.names_eq]
  · intro i d
    exact Entry.shows_iff (represents.shown i)
  · intro n
    obtain ⟨found, looked, shown⟩ := represents.find? n
    exact ⟨found, looked, rel_none_iff shown, fun d => Entry.shows_iff shown⟩
  · intro d
    obtain ⟨dir', addedLast, representsLast⟩ := represents.add d
    obtain ⟨entry, found, shows⟩ := (Entry.shows_iff (representsLast.shown (m.add d).2)).mpr (here d)
    exact ⟨dir', entry, addedLast, found, shows⟩

end SelfLambda
