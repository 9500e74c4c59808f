import SelfLambda.Proofs.Module.Loading
import SelfLambda.Session

/-! What a session takes a source for. Modules and terms begin alike, with a name and perhaps colons after it; but one
colon after the first name makes no term, and two make no definition. So a session may try to load a source before it
looks for a term. -/

namespace SelfLambda

open Text

namespace Parser

theorem Derives.definition_eq_none {scope : Scope} {t : Term} {s rest : Text} (derives : Derives .term scope t s rest)
    (ended : blanks rest = []) : definition s = none := by
  cases read : definition s with
  | none => rfl
  | some found =>
    obtain ⟨d, left⟩ := found
    obtain ⟨s1, s2, s3, named, colon, typeRead, -⟩ := definition_eq_some_iff.mp read
    have named := name_eq_some_iff.mp named
    obtain ⟨after, whole, behind⟩ := symbol_read colon
    rcases derives.after_name named with rfl | ⟨tail, rfl⟩ | ⟨tail, colons⟩
    · rw [ended] at whole
      cases whole
    · have solid : blanks (40 :: tail) = 40 :: tail := solid_cons (by decide) (by decide) tail
      rw [solid] at whole
      cases whole
    · -- the type would have to start with the second colon
      have second : Symbol (ascii ":") (58 :: 58 :: tail) (58 :: tail) := ⟨58 :: tail, rfl, .none _⟩
      rw [colons, second.read (solid_cons (by decide) (by decide) tail)] at colon
      cases colon
      exact nomatch (termWithin_colon _ [] tail).symm.trans typeRead

/-- A row of definitions is no term, in whatever scope. -/
theorem Spelt.not_listed {scope : Scope} {t : Term} {s : Text} (spelt : Spelt scope t s) (ds : List Definition) :
    ¬Listed s ds := by
  obtain ⟨start, rest, before, derives, after⟩ := spelt
  have starts : blanks s = start := before.blanks_eq derives.solid
  intro listed
  cases listed with
  | nil nothing =>
    have shorter := derives.length_lt
    rw [← starts, nothing] at shorter
    cases shorter
  | cons first _ =>
    rw [starts, derives.definition_eq_none (after.blanks_eq solid_nil)] at first
    cases first

theorem Spelt.line_ofText {scope : Scope} {t : Term} {s : Text} (spelt : Spelt scope t s) :
    Line.ofText s = .plain s := by
  obtain ⟨start, rest, before, derives, -⟩ := spelt
  have noColon {w left : Text} (found : word (58 :: w) s = some left) : False := by
    have whole : s = 58 :: (w ++ left) := word_eq_some_iff.mp found
    have solid : blanks s = s := by
      rw [whole]
      exact solid_cons (by decide) (by decide) _
    have starts : s = start := solid.symm.trans (before.blanks_eq derives.solid)
    obtain ⟨byte, tail, same, inTerm⟩ := derives.head
    rw [← starts, whole] at same
    cases same
    exact absurd inTerm (by decide)
  have noBlock : word (ascii ":\x7b") s = none := Option.eq_none_iff_forall_ne_some.mpr fun _ found => noColon found
  have noCommand : word (ascii ":") s = none := Option.eq_none_iff_forall_ne_some.mpr fun _ found => noColon found
  rw [Line.ofText, noBlock, noCommand]

end Parser

namespace Session

def shown : Run Term → Emission
  | .ok (result, _) => outLine (result.print [])
  | .error stop => errLine (ascii stop.message)

theorem display_of_parse? {s : Text} {t : Term} (read : Term.parse? [] s = some t) (transform : Term → Run Term) :
    display transform s = shown (transform t) := by
  rw [display, read]
  dsimp only
  cases transform t with
  | ok result => rfl
  | error stop => rfl

theorem entered_of_parse? {s : Text} {t : Term} (read : Term.parse? [] s = some t) (fuel : Nat) (m : Module) :
    entered fuel m s = ({ module := m }, [shown (t.normalize m.find? fuel), prompt]) := by
  have unloaded : m.load? s = none := Module.load?_eq_none_iff.mpr (Parser.parse?_eq_some_iff.mp read).not_listed
  rw [entered, enter, unloaded, display_of_parse? read]
  rfl

/-- No source is both a module and a term. So a session that takes modules first still normalizes every term, on a line
of its own and in a block, and keeps its module. -/
theorem source_is_read_one_way (s : Text) :
    (∀ scope, ¬((Module.parse? s).isSome ∧ (Term.parse? scope s).isSome)) ∧
      ∀ t, Term.parse? [] s = some t → ∀ (fuel : Nat) (files : Files) (m : Module),
        let next : Session × List Emission := ({ module := m }, [shown (t.normalize m.find? fuel), prompt])
        m.load? s = none ∧ line fuel files { module := m } s = next ∧
          line fuel files { module := m, block := some s } (ascii ":\x7d") = next ∧
          close fuel { module := m, block := some s } = next := by
  constructor
  · rintro scope ⟨accepted, read⟩
    obtain ⟨ds, listed⟩ := Module.isSome_parse?_iff.mp accepted
    obtain ⟨t, read⟩ := Option.isSome_iff_exists.mp read
    exact (Parser.parse?_eq_some_iff.mp read).not_listed ds listed
  · intro t read fuel files m next
    have spelt := Parser.parse?_eq_some_iff.mp read
    have entered : entered fuel m s = next := entered_of_parse? read fuel m
    refine ⟨Module.load?_eq_none_iff.mpr spelt.not_listed, ?_, ?_, entered⟩
    · simp only [line, spelt.line_ofText, entered, Bool.false_eq_true, if_false]
    · simp only [line, entered, Bool.false_eq_true, if_false, if_true]

/-- A definition in a comment, then the universe, annotated by a function type with a self name. -/
theorem source_is_read_one_way_annotated :
    let s := ascii "/* f : f f */ Type :: f(x : Type) -> x"
    let m : Module := ⟨[⟨ascii "f", .typ, .typ⟩]⟩
    Term.parse? [] s = some (.ann false (.all false (ascii "f") (ascii "x") .typ (.var 0)) .typ) ∧
      m.load? s = none ∧
      line 9 (fun _ => none) { module := m } s = ({ module := m }, [outLine (ascii "Type"), prompt]) := by
  intro s m
  have read : Term.parse? [] s = some (.ann false (.all false (ascii "f") (ascii "x") .typ (.var 0)) .typ) := by
    decide +kernel
  obtain ⟨unloaded, onLine, -⟩ := (source_is_read_one_way s).2 _ read 9 (fun _ => none) m
  exact ⟨read, unloaded, onLine⟩

end Session

end SelfLambda
