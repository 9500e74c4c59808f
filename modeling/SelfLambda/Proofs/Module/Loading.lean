import SelfLambda.Proofs.Parser.Soundness

/-! Modules that are loaded source by source. Whatever the sources are, and however often a name comes again, no two
entries share a name, and every entry is a definition as it stands in one of the sources. -/

namespace SelfLambda

open Text

namespace Parser

variable {s rest : Text} {d : Definition}

theorem definition_eq_some_iff : definition s = some (d, rest) ↔
    ∃ s1 s2 s3, name s = some (d.name, s1) ∧ symbol (ascii ":") (blanks s1) = some s2 ∧
      term [] s2 = some (d.type, s3) ∧ term [] (blanks s3) = some (d.term, rest) := by
  constructor
  · intro read
    simp only [definition, Option.bind_eq_bind, Option.bind_eq_some_iff, Prod.exists] at read
    obtain ⟨found, s1, named, s2, colon, type, s3, typeRead, body, s4, bodyRead, last⟩ := read
    cases last
    exact ⟨s1, s2, s3, named, colon, typeRead, bodyRead⟩
  · rintro ⟨s1, s2, s3, named, colon, typeRead, bodyRead⟩
    simp only [definition, named, colon, typeRead, bodyRead, Option.bind_eq_bind, Option.bind_some, Option.pure_def]

theorem definition_of_reads {s1 s2 s3 s4 s5 : Text} (named : Named d.name s s1) (blank : Blank s1 s2)
    (colon : Symbol (ascii ":") s2 s3) (typeStart : Solid s3) (typeRead : term [] s3 = some (d.type, s4))
    (between : Blank s4 s5) (termStart : Solid s5) (termRead : term [] s5 = some (d.term, rest)) :
    definition s = some (d, rest) := by
  have colonAt : blanks s1 = s2 := blank.blanks_eq (colon.solid (by decide) (by decide))
  have termAt : blanks s4 = s5 := between.blanks_eq termStart
  rw [definition_eq_some_iff]
  refine ⟨s1, s3, s4, name_eq_some_iff.mpr named, ?_, typeRead, ?_⟩
  · rw [colonAt]
    exact colon.read typeStart
  · rw [termAt]
    exact termRead

theorem length_definition (read : definition s = some (d, rest)) : rest.length < s.length := by
  obtain ⟨s1, s2, s3, named, colon, typeRead, bodyRead⟩ := definition_eq_some_iff.mp read
  have := (name_eq_some_iff.mp named).length_lt
  have := (blank_blanks s1).length_le
  have := (symbol_read colon).length_le
  have := (derives_of_term typeRead).length_lt
  have := (blank_blanks s3).length_le
  have := (derives_of_term bodyRead).length_lt
  omega

end Parser

def Definition.StandsIn (d : Definition) (s : Text) : Prop :=
  ∃ start rest, start.length ≤ s.length ∧ Parser.definition start = some (d, rest)

namespace Parser

/-- The text is a row of definitions, with blanks before, between and after them. -/
inductive Listed : Text → List Definition → Prop where
  | nil {s : Text} (nothing : blanks s = []) : Listed s []
  | cons {s rest : Text} {d : Definition} {ds : List Definition} (first : definition (blanks s) = some (d, rest))
    (others : Listed rest ds) : Listed s (d :: ds)

theorem definitions_eq_some_iff {count : Nat} {s : Text} {ds : List Definition} (enough : (blanks s).length ≤ count) :
    definitions count (blanks s) = some ds ↔ Listed s ds := by
  induction count generalizing s ds with
  | zero =>
    have nothing : blanks s = [] := List.eq_nil_of_length_eq_zero (Nat.le_zero.mp enough)
    constructor
    · intro read
      rw [nothing] at read
      cases read
      exact .nil nothing
    · intro listed
      cases listed with
      | nil _ =>
        rw [nothing]
        rfl
      | cons first _ =>
        have shorter := length_definition first
        omega
  | succ count ih =>
    constructor
    · intro read
      cases left : blanks s with
      | nil =>
        rw [left] at read
        cases read
        exact .nil left
      | cons byte tail =>
        rw [left] at read
        simp only [definitions, Option.bind_eq_bind, Option.bind_eq_some_iff, Prod.exists] at read
        obtain ⟨first, rest, firstRead, others, othersRead, last⟩ := read
        cases last
        rw [← left] at firstRead
        have shorter := length_definition firstRead
        have skipped := (blank_blanks rest).length_le
        exact .cons firstRead ((ih (by omega)).mp othersRead)
    · intro listed
      cases listed with
      | nil nothing =>
        rw [nothing]
        rfl
      | @cons _ rest d ds first others =>
        have shorter := length_definition first
        have skipped := (blank_blanks rest).length_le
        have othersRead := (ih (by omega)).mpr others
        cases left : blanks s with
        | nil =>
          rw [left] at shorter
          cases shorter
        | cons byte tail =>
          rw [left] at first
          simp only [definitions, first, othersRead, Option.bind_eq_bind, Option.bind_some, Option.pure_def]

theorem Listed.of_blanks {s s' : Text} {ds : List Definition} (listed : Listed s ds) (same : blanks s' = blanks s) :
    Listed s' ds := by
  cases listed with
  | nil nothing => exact .nil (same.trans nothing)
  | cons first others =>
    rw [← same] at first
    exact .cons first others

def Fresh (s : Text) : Prop := ∀ byte ∈ (blanks s).head?, isNameByte byte = true

theorem Listed.fresh {s : Text} {ds : List Definition} (listed : Listed s ds) : Fresh s := by
  intro byte next
  cases listed with
  | nil nothing =>
    rw [nothing] at next
    cases next
  | cons first _ =>
    obtain ⟨s1, -, -, named, -⟩ := definition_eq_some_iff.mp first
    obtain ⟨start, tail, whole, inName⟩ := (name_eq_some_iff.mp named).head
    rw [whole] at next
    cases next
    exact inName

theorem Fresh.stops {s : Text} (fresh : Fresh s) : Stops s := by
  cases next : blanks s with
  | nil => exact stops_of_blank next
  | cons byte tail =>
    rw [Fresh, next] at fresh
    have different {other : UInt8} (outside : isNameByte other = false) : byte ≠ other := by
      rintro rfl
      rw [fresh byte rfl] at outside
      cases outside
    exact stops_of_blanks next (different rfl) (different rfl) (different rfl)

theorem Listed.standsIn {s : Text} {ds : List Definition} (listed : Listed s ds) : ∀ d ∈ ds, d.StandsIn s := by
  induction listed with
  | nil => exact List.forall_mem_nil _
  | @cons s rest d ds first _ ih =>
    have skipped := (blank_blanks s).length_le
    have shorter := length_definition first
    refine List.forall_mem_cons.mpr ⟨⟨blanks s, rest, skipped, first⟩, ?_⟩
    intro e member
    obtain ⟨start, rest', within, read⟩ := ih e member
    exact ⟨start, rest', by omega, read⟩

end Parser

theorem Module.parse?_eq_some_iff {s : Text} {m : Module} :
    Module.parse? s = some m ↔ ∃ ds, Parser.Listed s ds ∧ insertAll {} ds = m := by
  have enough := (Parser.blank_blanks s).length_le
  simp only [Module.parse?, Option.map_eq_some_iff, Parser.definitions_eq_some_iff enough]

namespace Module

theorem isSome_parse?_iff {s : Text} : (Module.parse? s).isSome ↔ ∃ ds, Parser.Listed s ds := by
  simp only [Option.isSome_iff_exists, parse?_eq_some_iff]
  constructor
  · rintro ⟨m, ds, listed, -⟩
    exact ⟨ds, listed⟩
  · rintro ⟨ds, listed⟩
    exact ⟨insertAll {} ds, ds, listed, rfl⟩

theorem load?_eq_none_iff {m : Module} {s : Text} : m.load? s = none ↔ ∀ ds, ¬Parser.Listed s ds := by
  rw [load?, Option.map_eq_none_iff, ← Option.not_isSome_iff_eq_none, isSome_parse?_iff, not_exists]

/-- A module after loading sources one after another. A source that is no module leaves it as it is. -/
def loadAll (m : Module) (sources : List Text) : Module := sources.foldl (fun m s => (m.load? s).getD m) m

theorem mem_place {d e : Definition} {entries : List Definition} (member : e ∈ (place d entries).1) :
    e = d ∨ e ∈ entries := by
  induction entries with
  | nil => exact .inl (List.mem_singleton.mp member)
  | cons entry entries ih =>
    rw [place] at member
    split at member
    · rcases List.mem_cons.mp member with here | later
      · exact .inl here
      · exact .inr (List.mem_cons_of_mem entry later)
    · rcases List.mem_cons.mp member with rfl | later
      · exact .inr List.mem_cons_self
      · exact (ih later).imp_right (List.mem_cons_of_mem entry)

theorem names_place (d : Definition) (entries : List Definition) :
    (place d entries).1.map Definition.name =
      if d.name ∈ entries.map Definition.name then entries.map Definition.name
      else entries.map Definition.name ++ [d.name] := by
  induction entries with
  | nil => rfl
  | cons entry entries ih =>
    rw [place]
    by_cases same : entry.name = d.name
    · simp [same]
    · simp only [same, if_false, List.map_cons, ih, List.mem_cons, Ne.symm same, false_or]
      split <;> rfl

theorem place_of_new {d : Definition} {entries : List Definition} (new : d.name ∉ entries.map Definition.name) :
    (place d entries).1 = entries ++ [d] := by
  induction entries with
  | nil => rfl
  | cons entry entries ih =>
    rw [List.map_cons, List.mem_cons, not_or] at new
    rw [place, if_neg (Ne.symm new.1)]
    exact congrArg (entry :: ·) (ih new.2)

variable {m : Module} {sources : List Text} {d : Definition}

theorem nodup_insert (distinct : m.names.Nodup) (d : Definition) : (m.insert d).names.Nodup := by
  change ((place d m.entries).1.map Definition.name).Nodup
  rw [names_place]
  split
  · exact distinct
  next new =>
    have apart : ∀ name ∈ m.names, ∀ other ∈ [d.name], name ≠ other := by
      rintro name member other last rfl
      exact new (List.mem_singleton.mp last ▸ member)
    exact List.nodup_append.mpr ⟨distinct, List.pairwise_singleton _ d.name, apart⟩

theorem nodup_insertAll (distinct : m.names.Nodup) (ds : List Definition) : (m.insertAll ds).names.Nodup := by
  induction ds generalizing m with
  | nil => exact distinct
  | cons d ds ih => exact ih (nodup_insert distinct d)

theorem mem_insertAll {ds : List Definition} (member : d ∈ (m.insertAll ds).entries) : d ∈ m.entries ∨ d ∈ ds := by
  induction ds generalizing m with
  | nil => exact .inl member
  | cons e ds ih =>
    rcases ih member with early | later
    · rcases mem_place early with rfl | before
      · exact .inr List.mem_cons_self
      · exact .inl before
    · exact .inr (List.mem_cons_of_mem e later)

theorem insertAll_of_nodup {ds : List Definition} (distinct : ((m.entries ++ ds).map Definition.name).Nodup) :
    (m.insertAll ds).entries = m.entries ++ ds := by
  induction ds generalizing m with
  | nil => exact (List.append_nil _).symm
  | cons d ds ih =>
    have new : d.name ∉ m.entries.map Definition.name := by
      rw [List.map_append, List.nodup_append] at distinct
      intro member
      exact distinct.2.2 d.name member d.name List.mem_cons_self rfl
    have placed : (m.insert d).entries = m.entries ++ [d] := place_of_new new
    have split : m.entries ++ d :: ds = (m.insert d).entries ++ ds := by
      rw [placed, List.append_assoc]
      rfl
    rw [split] at distinct ⊢
    exact ih distinct

theorem standsIn_of_parse? {s : Text} {loaded : Module} (read : Module.parse? s = some loaded) :
    ∀ d ∈ loaded.entries, d.StandsIn s := by
  obtain ⟨ds, listed, rfl⟩ := parse?_eq_some_iff.mp read
  intro d member
  rcases mem_insertAll member with absurd | member
  · cases absurd
  · exact listed.standsIn d member

theorem nodup_load (distinct : m.names.Nodup) (s : Text) : ((m.load? s).getD m).names.Nodup := by
  rw [load?]
  cases Module.parse? s with
  | none => exact distinct
  | some loaded => exact nodup_insertAll distinct loaded.entries

theorem mem_load {s : Text} (member : d ∈ ((m.load? s).getD m).entries) : d ∈ m.entries ∨ d.StandsIn s := by
  rw [load?] at member
  cases read : Module.parse? s with
  | none =>
    rw [read] at member
    exact .inl member
  | some loaded =>
    rw [read] at member
    exact (mem_insertAll member).imp_right (standsIn_of_parse? read d)

theorem nodup_loadAll (distinct : m.names.Nodup) (sources : List Text) : (m.loadAll sources).names.Nodup := by
  induction sources generalizing m with
  | nil => exact distinct
  | cons s sources ih => exact ih (nodup_load distinct s)

theorem mem_loadAll (member : d ∈ (m.loadAll sources).entries) : d ∈ m.entries ∨ ∃ s ∈ sources, d.StandsIn s := by
  induction sources generalizing m with
  | nil => exact .inl member
  | cons s sources ih =>
    rcases ih member with early | ⟨s', later, stands⟩
    · exact (mem_load early).imp_right (fun stands => ⟨s, List.mem_cons_self, stands⟩)
    · exact .inr ⟨s', List.mem_cons_of_mem s later, stands⟩

theorem standsIn_of_mem_loadAll (member : d ∈ (loadAll {} sources).entries) : ∃ s ∈ sources, d.StandsIn s :=
  (mem_loadAll member).resolve_left List.not_mem_nil

end Module

end SelfLambda
