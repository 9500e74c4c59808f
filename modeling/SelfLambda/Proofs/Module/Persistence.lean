import SelfLambda.Proofs.Module.Loading
import SelfLambda.Proofs.Parser.Inverse

/-! The printed form of a module is a source of that module. Types, terms and definitions are set apart by newlines only;
that is enough, because an argument has to follow its function at once, and neither a term nor the name of a definition
begins as an annotation does. -/

namespace SelfLambda

open Text

namespace Definition

structure Printable (d : Definition) : Prop where
  name : d.name.Valid
  type : d.type.Printable []
  term : d.term.Printable []

variable {d : Definition}

/-- What was read can be printed. -/
theorem StandsIn.printable {s : Text} (stands : d.StandsIn s) (fits : s.length < UInt64.size) : d.Printable := by
  obtain ⟨start, rest, within, read⟩ := stands
  obtain ⟨s1, s2, s3, named, colon, typeRead, termRead⟩ := Parser.definition_eq_some_iff.mp read
  have named := Parser.name_eq_some_iff.mp named
  have := named.length_lt
  have := (Parser.blank_blanks s1).length_le
  have := (Parser.symbol_read colon).length_le
  have noNames : ([] : Scope).length = 0 := rfl
  obtain ⟨type, typeLt⟩ := Parser.spells_termWithin _ typeRead (by omega)
  have := (Parser.blank_blanks s3).length_le
  obtain ⟨term, -⟩ := Parser.spells_termWithin _ termRead (by omega)
  exact ⟨named.1, type, term⟩

theorem print_append (d : Definition) (rest : Text) : d.print ++ rest =
    d.name ++ (32 :: 58 :: 32 :: (d.type.print [] ++ (newline :: (d.term.print [] ++ rest)))) := by
  simp only [print, List.append_assoc, List.cons_append, List.nil_append]
  rfl

theorem Printable.definition_print (printable : d.Printable) {rest : Text} (ended : rest.head?.any isNameByte = false)
    (stops : Parser.Stops rest) : Parser.definition (d.print ++ rest) = some (d, rest) := by
  have termAt := Parser.derives_term (Parser.derives_print printable.term rest ended)
  have typeAt := Parser.derives_term
    (Parser.derives_print printable.type (newline :: (d.term.print [] ++ rest)) rfl)
  have newlineBlank (s : Text) : Parser.Blank (newline :: s) s := .space rfl (.none s)
  rw [print_append]
  have typeStops := termAt.stops_before (newlineBlank _) (Parser.word_eq_none_of_head (by decide))
  exact Parser.definition_of_reads ⟨printable.name, rfl, rfl⟩ (Parser.blank_one _) ⟨_, rfl, Parser.blank_one _⟩ typeAt.solid
    (Parser.term_of_derives typeAt typeStops) (newlineBlank _) termAt.solid (Parser.term_of_derives termAt stops)

theorem Printable.print_head (printable : d.Printable) (rest : Text) :
    ∃ byte tail, d.print ++ rest = byte :: tail ∧ isNameByte byte = true := by
  obtain ⟨⟨filled, bytes⟩, -, -⟩ := printable
  obtain ⟨byte, others, named⟩ := List.exists_cons_of_ne_nil filled
  rw [print_append, named]
  exact ⟨byte, _, rfl, bytes byte (named ▸ List.mem_cons_self)⟩

end Definition

namespace Module

theorem print_singleton (d : Definition) : print ⟨[d]⟩ = d.print ++ [] := by
  simp [print, List.intercalate]

theorem print_cons_cons (d e : Definition) (ds : List Definition) :
    print ⟨d :: e :: ds⟩ = d.print ++ (newline :: newline :: print ⟨e :: ds⟩) := by
  simp [print, List.intercalate]

theorem print_head {d : Definition} (printable : d.Printable) (ds : List Definition) :
    ∃ byte tail, print ⟨d :: ds⟩ = byte :: tail ∧ isNameByte byte = true := by
  cases ds with
  | nil =>
    rw [print_singleton]
    exact printable.print_head []
  | cons e ds =>
    rw [print_cons_cons]
    exact printable.print_head _

theorem listed_print {ds : List Definition} (printable : ∀ d ∈ ds, d.Printable) : Parser.Listed (print ⟨ds⟩) ds := by
  induction ds with
  | nil => exact .nil Parser.solid_nil
  | cons d ds ih =>
    obtain ⟨ofFirst, ofOthers⟩ := List.forall_mem_cons.mp printable
    obtain ⟨byte, tail, whole, inName⟩ := print_head ofFirst ds
    have solid : Parser.blanks (print ⟨d :: ds⟩) = print ⟨d :: ds⟩ := by
      rw [whole]
      exact Parser.solid_of_isNameByte inName tail
    cases ds with
    | nil =>
      have last : Parser.Listed [] [] := .nil Parser.solid_nil
      refine .cons ?_ last
      rw [solid, print_singleton]
      exact ofFirst.definition_print rfl last.fresh.stops
    | cons e ds =>
      have others : Parser.Listed (newline :: newline :: print ⟨e :: ds⟩) (e :: ds) := by
        apply (ih ofOthers).of_blanks
        rw [Parser.blanks_space rfl, Parser.blanks_space rfl]
      refine .cons ?_ others
      rw [solid, print_cons_cons]
      exact ofFirst.definition_print rfl others.fresh.stops

theorem parse?_print {m : Module} (distinct : m.names.Nodup) (printable : ∀ d ∈ m.entries, d.Printable) :
    Module.parse? m.print = some m := by
  have entries : (insertAll {} m.entries).entries = m.entries := insertAll_of_nodup distinct
  exact parse?_eq_some_iff.mpr ⟨m.entries, listed_print printable, congrArg Module.mk entries⟩

/-- Whatever was loaded, the printed module is a source of that very module: the same names in the same order, with the
same types and terms. The bytes of a source are fewer than there are words, so that every binder in it has its index. -/
theorem printed_form_loses_nothing (sources : List Text) (fits : ∀ s ∈ sources, s.length < UInt64.size) :
    Module.parse? (loadAll {} sources).print = some (loadAll {} sources) := by
  have empty : ({} : Module).names.Nodup := List.nodup_nil
  apply parse?_print (nodup_loadAll empty sources)
  intro d member
  obtain ⟨s, source, stands⟩ := standsIn_of_mem_loadAll member
  exact stands.printable (fits s source)

/-- A type and a function that could be taken for its argument, a source that is no module, and a name that comes again. -/
theorem printed_form_loses_nothing_redefined :
    let sources := [ascii "f : Type (x) => x g : (A : f) -> A (x;) => x", ascii "f : (", ascii "f : f (y) => f"]
    let m := loadAll {} sources
    (∀ s ∈ sources, s.length < UInt64.size) ∧
      m.print = ascii "f : f\n(y) => f\n\ng : (A : f) -> A\n(x;) => x" ∧ Module.parse? m.print = some m := by
  intro sources m
  have fits : ∀ s ∈ sources, s.length < UInt64.size := by decide
  exact ⟨fits, by decide +kernel, printed_form_loses_nothing sources fits⟩

end Module

end SelfLambda
