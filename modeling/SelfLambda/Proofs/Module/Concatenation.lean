import SelfLambda.Proofs.Parser.Extension
import SelfLambda.Session

/-! Sources one after another. A source that goes on with a new line and a second source has the definitions of both: no
definition of the first reads on into the second, because what comes there is a name or nothing. To load the definitions
of a source with each name in it once, by its last definition, is to load them all one by one. -/

namespace SelfLambda

open Text

namespace Parser

theorem Fresh.append {s more : Text} (fresh : Fresh s) (next : Fresh more) : Fresh (s ++ newline :: more) := by
  have blank := (blank_blanks s).append more
  cases left : blanks s with
  | nil =>
    rw [left] at blank
    rw [Fresh, blank.skipped, List.nil_append, blanks_space rfl]
    exact next
  | cons byte tail =>
    rw [Fresh, left] at fresh
    have inName := fresh byte rfl
    rw [left] at blank
    rw [Fresh, blank.blanks_eq (solid_of_isNameByte inName _)]
    intro first same
    cases same
    exact inName

theorem word_open_append {s : Text} (apart : word (ascii "(") s = none) (more : Text) :
    word (ascii "(") (s ++ newline :: more) = none := by
  cases found : word (ascii "(") (s ++ newline :: more) with
  | none => rfl
  | some rest =>
    have whole : s ++ newline :: more = 40 :: rest := word_eq_some_iff.mp found
    cases s with
    | nil => cases whole
    | cons byte tail =>
      obtain ⟨rfl, -⟩ := List.cons.inj whole
      cases apart

/-- A term that was read before another term is read again in a text that goes on with a new line. -/
theorem term_append_of_term {scope outer : Scope} {t u : Term} {s mid rest : Text} (read : term scope s = some (t, mid))
    (nextAt : Derives .term outer u (blanks mid) rest) (stops : Stops rest) (more : Text) :
    term scope (s ++ newline :: more) = some (t, mid ++ newline :: more) := by
  cases opened : word (ascii "(") mid with
  | none =>
    exact term_of_derives ((derives_of_term read).append more)
      ((nextAt.append more).stops_before ((blank_blanks mid).append more) (word_open_append opened more))
  | some tail =>
    -- what follows at once is no argument, so it is a function type
    have whole : mid = 40 :: tail := word_eq_some_iff.mp opened
    have solid : blanks mid = mid := by
      rw [whole]
      exact solid_cons (by decide) (by decide) tail
    have noName : name mid = none := by
      rw [whole]
      exact name_eq_none rfl
    rw [solid] at nextAt
    rcases nextAt.unnamedType_or_argument noName with unnamed | ⟨erased, arg, last, argumentAt⟩
    · exact term_append read unnamed stops more
    · have noArgument := (term_exhausts read outer).1
      exact absurd argumentAt (argument_eq_none_iff.mp noArgument erased arg last)

theorem definition_append {s rest more : Text} {d : Definition} (read : definition s = some (d, rest))
    (fresh : Fresh rest) (next : Fresh more) :
    definition (s ++ newline :: more) = some (d, rest ++ newline :: more) := by
  obtain ⟨s1, s2, s3, named, colon, typeRead, termRead⟩ := definition_eq_some_iff.mp read
  have typeAt := (derives_of_term typeRead).append more
  have termAt := derives_of_term termRead
  exact definition_of_reads ((name_eq_some_iff.mp named).append more) ((blank_blanks s1).append more)
    ((symbol_read colon).append more) typeAt.solid (term_append_of_term typeRead termAt fresh.stops more)
    ((blank_blanks s3).append more) (termAt.append more).solid
    (term_of_derives (termAt.append more) (fresh.append next).stops)

theorem Listed.append {s more : Text} {ds es : List Definition} (first : Listed s ds) (second : Listed more es) :
    Listed (s ++ newline :: more) (ds ++ es) := by
  induction first with
  | @nil s nothing =>
    apply second.of_blanks
    have blank := (blank_blanks s).append more
    rw [blank.skipped, nothing, List.nil_append, blanks_space rfl]
  | @cons s rest d ds read others ih =>
    have goesOn := definition_append read others.fresh second.fresh
    obtain ⟨s1, -, -, named, -⟩ := definition_eq_some_iff.mp goesOn
    have solid := (name_eq_some_iff.mp named).solid
    refine .cons ?_ ih
    rw [((blank_blanks s).append more).blanks_eq solid]
    exact goesOn

end Parser

namespace Module

variable {m : Module} {d e : Definition} {ds : List Definition}

theorem mem_names_insert {name : Name} : name ∈ (m.insert d).names ↔ name = d.name ∨ name ∈ m.names := by
  change name ∈ (place d m.entries).1.map Definition.name ↔ name = d.name ∨ name ∈ m.entries.map Definition.name
  rw [names_place]
  split
  next here =>
    constructor
    · exact .inr
    · rintro (rfl | member)
      · exact here
      · exact member
  next => rw [List.mem_append, List.mem_singleton, or_comm]

theorem place_place (same : e.name = d.name) (entries : List Definition) :
    (place d (place e entries).1).1 = (place d entries).1 := by
  induction entries with
  | nil => simp only [place, same, if_true]
  | cons entry entries ih =>
    by_cases here : entry.name = d.name
    · simp only [place, same, here, if_true]
    · simp only [place, same, here, if_false, ih]

theorem place_comm {entries : List Definition} (different : e.name ≠ d.name)
    (present : d.name ∈ entries.map Definition.name) :
    (place e (place d entries).1).1 = (place d (place e entries).1).1 := by
  induction entries with
  | nil => cases present
  | cons entry entries ih =>
    by_cases atFirst : entry.name = d.name
    · simp only [place, atFirst, Ne.symm different, if_true, if_false]
    · have later : d.name ∈ entries.map Definition.name := (List.mem_cons.mp present).resolve_left (Ne.symm atFirst)
      by_cases atSecond : entry.name = e.name
      · simp only [place, atSecond, different, if_true, if_false]
      · simp only [place, atFirst, atSecond, if_false, ih later]

theorem insert_insert (same : e.name = d.name) : (m.insert e).insert d = m.insert d :=
  congrArg Module.mk (place_place same m.entries)

theorem insert_comm (different : e.name ≠ d.name) (present : d.name ∈ m.names) :
    (m.insert d).insert e = (m.insert e).insert d :=
  congrArg Module.mk (place_comm different present)

/-- Where a name has its place already, definitions of other names may come before or after its own. -/
theorem insertAll_insert (present : d.name ∈ m.names) (other : d.name ∉ ds.map Definition.name) :
    (m.insert d).insertAll ds = (m.insertAll ds).insert d := by
  induction ds generalizing m with
  | nil => rfl
  | cons e ds ih =>
    rw [List.map_cons, List.mem_cons, not_or] at other
    change ((m.insert d).insert e).insertAll ds = ((m.insert e).insertAll ds).insert d
    rw [insert_comm (Ne.symm other.1) present]
    exact ih (mem_names_insert.mpr (.inr present)) other.2

theorem insertAll_place {entries : List Definition} (distinct : (entries.map Definition.name).Nodup) :
    m.insertAll (place d entries).1 = (m.insertAll entries).insert d := by
  induction entries generalizing m with
  | nil => rfl
  | cons entry entries ih =>
    rw [List.map_cons, List.nodup_cons] at distinct
    rw [place]
    split
    next same =>
      -- the entry keeps the place for the definition that replaces it
      have present : d.name ∈ (m.insert entry).names := mem_names_insert.mpr (.inl same.symm)
      have other : d.name ∉ entries.map Definition.name := same ▸ distinct.1
      change (m.insert d).insertAll entries = ((m.insert entry).insertAll entries).insert d
      rw [← insert_insert same]
      exact insertAll_insert present other
    next => exact ih distinct.2

/-- Definitions may be gathered in a module of their own before they are inserted. -/
theorem insertAll_gathered {gathered : Module} (distinct : gathered.names.Nodup) (ds : List Definition) :
    m.insertAll (gathered.insertAll ds).entries = (m.insertAll gathered.entries).insertAll ds := by
  induction ds generalizing gathered with
  | nil => rfl
  | cons d ds ih =>
    change m.insertAll ((gathered.insert d).insertAll ds).entries = ((m.insertAll gathered.entries).insert d).insertAll ds
    rw [ih (nodup_insert distinct d), ← insertAll_place distinct]
    rfl

theorem load?_of_listed {s : Text} (listed : Parser.Listed s ds) (m : Module) : m.load? s = some (m.insertAll ds) := by
  have read : Module.parse? s = some (insertAll {} ds) := parse?_eq_some_iff.mpr ⟨ds, listed, rfl⟩
  have empty : ({} : Module).names.Nodup := List.nodup_nil
  have gathered : m.insertAll (insertAll {} ds).entries = m.insertAll ds := insertAll_gathered empty ds
  rw [load?, read, Option.map_some, gathered]

theorem insertAll_append (m : Module) (ds es : List Definition) :
    m.insertAll (ds ++ es) = (m.insertAll ds).insertAll es :=
  List.foldl_append

/-- A source loads all of its definitions one by one, or it is no module and what was there stays as it is, in a session
and from a file. Two sources can be loaded one after the other, or at once as one source with a new line between them. -/
theorem load_is_atomic_and_composes (m : Module) (s : Text) :
    (m.load? s = none ↔ ∀ ds, ¬Parser.Listed s ds) ∧
      (∀ ds, Parser.Listed s ds → m.load? s = some (ds.foldl insert m)) ∧
      (∀ fuel, (Session.enter fuel m s).1 = (m.load? s).getD m) ∧
      (∀ files path, files path = some s → (Session.loadFile files m path).1 = (m.load? s).getD m) ∧
      ∀ s', (Module.parse? s).isSome → (Module.parse? s').isSome →
        (Module.parse? (s ++ newline :: s')).isSome ∧ (m.load? (s ++ newline :: s')).isSome ∧
          m.load? (s ++ newline :: s') = (m.load? s).bind (fun loaded => loaded.load? s') := by
  refine ⟨load?_eq_none_iff, fun ds listed => load?_of_listed listed m, ?_, ?_, ?_⟩
  · intro fuel
    rw [Session.enter]
    cases m.load? s with
    | none => rfl
    | some loaded => rfl
  · intro files path stored
    simp only [Session.loadFile, stored]
    cases m.load? s with
    | none => rfl
    | some loaded => rfl
  · intro s' first second
    obtain ⟨ds, first⟩ := isSome_parse?_iff.mp first
    obtain ⟨es, second⟩ := isSome_parse?_iff.mp second
    have both := first.append second
    rw [load?_of_listed both, load?_of_listed first, Option.bind_some, load?_of_listed second, insertAll_append]
    exact ⟨isSome_parse?_iff.mpr ⟨_, both⟩, rfl, rfl⟩

/-- A function type right after a group, a line comment without an end, and a name that comes a second and a third
time. -/
theorem load_is_atomic_and_composes_unfinished_line :
    let m : Module := ⟨[⟨ascii "a", .typ, .typ⟩, ⟨ascii "z", .typ, .typ⟩]⟩
    let s := ascii "c : (b)(x : A) -> B // end"
    let s' := ascii "a : Type c c : Type a"
    let files : Session.Files := fun path => if path = ascii "core" then some s else none
    (∃ ds, Parser.Listed s ds ∧ m.load? s = some (ds.foldl insert m)) ∧ files (ascii "core") = some s ∧
      (Session.loadFile files m (ascii "core")).1 = (m.load? s).getD m ∧ (Module.parse? s').isSome ∧
      (m.load? (s ++ newline :: s')).map print = some (ascii "a : Type\nc\n\nz : Type\nType\n\nc : Type\na") ∧
      m.load? (s ++ newline :: s') = (m.load? s).bind (fun loaded => loaded.load? s') := by
  intro m s s' files
  have first : (Module.parse? s).isSome := by decide +kernel
  have second : (Module.parse? s').isSome := by decide +kernel
  have stored : files (ascii "core") = some s := if_pos rfl
  obtain ⟨-, all, -, fromFile, composes⟩ := load_is_atomic_and_composes m s
  obtain ⟨ds, listed⟩ := isSome_parse?_iff.mp first
  exact ⟨⟨ds, listed, all ds listed⟩, stored, fromFile files _ stored, second, by decide +kernel,
    (composes s' first second).2.2⟩

end Module

end SelfLambda
