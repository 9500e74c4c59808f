import SelfLambda.Proofs.Parser.Derivation

/-! What tells the alternatives of the grammar apart. The parser tries function types and functions before all else; on
the text of another term both fail, by what comes after the first name in it. -/

namespace SelfLambda.Parser

open Text

theorem Named.unique {m n : Name} {s r rest : Text} (first : Named m s r) (second : Named n s rest) :
    m = n ∧ r = rest := by
  have same := (name_eq_some_iff.mpr first).symm.trans (name_eq_some_iff.mpr second)
  cases same
  exact ⟨rfl, rfl⟩

theorem Named.getD_name {n : Name} {s rest : Text} (named : Named n s rest) : (name s).getD ([], s) = (n, rest) := by
  rw [name_eq_some_iff.mpr named, Option.getD_some]

theorem Symbol.getD_name {s rest : Text} (opened : Symbol (ascii "(") s rest) : (name s).getD ([], s) = ([], s) := by
  obtain ⟨tail, rfl⟩ := opened.head
  rw [name_eq_none rfl, Option.getD_none]

theorem not_named_open {n : Name} {tail rest : Text} : ¬ Named n (40 :: tail) rest := by
  intro named
  obtain ⟨byte, other, same, inName⟩ := named.head
  cases same
  cases inName

theorem named_keyword {rest : Text} (ended : rest.head?.any isNameByte = false) :
    Named (ascii "Type") (ascii "Type" ++ rest) rest :=
  ⟨by decide, rfl, ended⟩

/-- After a name at its start, a phrase has come to its end, or is applied, or is annotated. -/
theorem Derives.after_name {phrase : Phrase} {scope : Scope} {t : Term} {s rest r : Text} {m : Name}
    (derives : Derives phrase scope t s rest) (named : Named m s r) :
    r = rest ∨ (∃ tail, r = 40 :: tail) ∨ ∃ tail, blanks r = 58 :: 58 :: tail := by
  induction derives with
  | @all scope self _ _ _ _ s _ _ _ _ _ _ _ _ _ selfName opened =>
    obtain ⟨tail, rfl⟩ := opened.head
    rcases selfName with rfl | valid
    · exact absurd named not_named_open
    · have whole : Named self (self ++ 40 :: tail) (40 :: tail) := ⟨valid, rfl, rfl⟩
      exact Or.inr (Or.inl ⟨tail, (named.unique whole).2⟩)
  | lam opened =>
    obtain ⟨tail, rfl⟩ := opened.head
    exact absurd named not_named_open
  | plain _ ih => exact ih named
  | ann termAt blank sign typeAt ih =>
    rcases ih named with rfl | later
    · obtain ⟨after, rfl, -⟩ := sign
      exact Or.inr (Or.inr ⟨after, blank.blanks_eq (solid_cons (by decide) (by decide) _)⟩)
    · exact Or.inr later
  | typ ended => exact Or.inl (named.unique (named_keyword ended)).2
  | name other => exact Or.inl (named.unique other).2
  | group opened =>
    obtain ⟨tail, rfl⟩ := opened.head
    exact absurd named not_named_open
  | app _ opened _ _ ih =>
    rcases ih named with rfl | later
    · exact Or.inr (Or.inl opened.head)
    · exact Or.inr later

def Closes (s : Text) : Prop := ∃ tail, blanks s = 41 :: tail ∨ blanks s = 59 :: tail

/-- Nothing after a term makes it go on. -/
structure Stops (s : Text) : Prop where
  noArgument : word (ascii "(") s = none
  noSign : word (ascii "::") (blanks s) = none
  noArrow : word (ascii "=>") (blanks s) = none

theorem word_open_eq_none {byte : UInt8} {s tail : Text} (next : blanks s = byte :: tail) (other : byte ≠ 40) :
    word (ascii "(") s = none := by
  cases found : word (ascii "(") s with
  | none => rfl
  | some rest =>
    have whole : s = 40 :: rest := word_eq_some_iff.mp found
    have solid : blanks s = 40 :: rest := by
      rw [whole]
      exact solid_cons (by decide) (by decide) rest
    rw [solid] at next
    cases next
    exact absurd rfl other

theorem stops_of_blanks {byte : UInt8} {s tail : Text} (next : blanks s = byte :: tail) (notOpen : byte ≠ 40)
    (notColon : byte ≠ 58) (notArrow : byte ≠ 61) : Stops s := by
  refine ⟨word_open_eq_none next notOpen, ?_, ?_⟩
  · rw [next]
    exact word_eq_none_of_head (Ne.symm notColon)
  · rw [next]
    exact word_eq_none_of_head (Ne.symm notArrow)

theorem Derives.stops_before {phrase : Phrase} {scope : Scope} {t : Term} {s s1 rest : Text}
    (derives : Derives phrase scope t s1 rest) (blank : Blank s s1) (apart : word (ascii "(") s = none) : Stops s := by
  obtain ⟨byte, tail, rfl, starts⟩ := derives.head
  have next : blanks s = byte :: tail := blank.blanks_eq derives.solid
  have notColon : (58 : UInt8) ≠ byte := by
    rintro rfl
    exact absurd starts (by decide)
  have notEqual : (61 : UInt8) ≠ byte := by
    rintro rfl
    exact absurd starts (by decide)
  refine ⟨apart, ?_, ?_⟩
  · rw [next]
    exact word_eq_none_of_head notColon
  · rw [next]
    exact word_eq_none_of_head notEqual

theorem stops_of_blank {s : Text} (nothing : blanks s = []) : Stops s := by
  refine ⟨?_, by rw [nothing]; rfl, by rw [nothing]; rfl⟩
  cases found : word (ascii "(") s with
  | none => rfl
  | some tail =>
    have solid : blanks (40 :: tail) = 40 :: tail := solid_cons (by decide) (by decide) tail
    have whole : s = 40 :: tail := word_eq_some_iff.mp found
    rw [whole, solid] at nothing
    cases nothing

theorem Closes.stops {s : Text} (closes : Closes s) : Stops s := by
  obtain ⟨tail, next | next⟩ := closes
  · exact stops_of_blanks next (by decide) (by decide) (by decide)
  · exact stops_of_blanks next (by decide) (by decide) (by decide)

theorem Mark.closes {erased : Bool} {s tail : Text} (mark : Mark erased s (41 :: tail)) : Closes s := by
  cases erased with
  | false => exact ⟨tail, Or.inl (Blank.blanks_eq mark (solid_cons (by decide) (by decide) tail))⟩
  | true =>
    obtain ⟨after, before, -⟩ := mark
    exact ⟨after, Or.inr (before.blanks_eq (solid_cons (by decide) (by decide) after))⟩

theorem Mark.read_closed {erased : Bool} {s r rest : Text} (mark : Mark erased s r)
    (closed : Symbol (ascii ")") r rest) : erasure s = (erased, r) ∧ Closes s := by
  obtain ⟨tail, rfl⟩ := closed.head
  exact ⟨mark.read (solid_cons (by decide) (by decide) tail) rfl, mark.closes⟩

/-- How a spine begins: with a name or a group, on its own or with an argument after it. -/
inductive Begins (scope : Scope) : Text → Text → Prop where
  | name {n : Name} {s rest : Text} (named : Named n s rest) : Begins scope s rest
  | appliedName {n : Name} {t : Term} {s r s1 s2 rest : Text} (named : Named n s r) (opened : Symbol (ascii "(") r s1)
    (argAt : Derives .term scope t s1 s2) (closes : Closes s2) : Begins scope s rest
  | group {t : Term} {s s1 s2 rest : Text} (opened : Symbol (ascii "(") s s1) (termAt : Derives .term scope t s1 s2)
    (closed : blanks s2 = 41 :: rest) : Begins scope s rest
  | appliedGroup {t : Term} {s s1 s2 tail rest : Text} (opened : Symbol (ascii "(") s s1)
    (termAt : Derives .term scope t s1 s2) (closed : blanks s2 = 41 :: 40 :: tail) : Begins scope s rest

theorem Derives.begins {phrase : Phrase} {scope : Scope} {t : Term} {s rest : Text}
    (derives : Derives phrase scope t s rest) (spine : phrase = .spine) : Begins scope s rest := by
  induction derives with
  | all => cases spine
  | lam => cases spine
  | plain => cases spine
  | ann => cases spine
  | typ ended => exact .name (named_keyword ended)
  | name named => exact .name named
  | group opened termAt blank => exact .group opened termAt (blank.blanks_eq (solid_cons (by decide) (by decide) _))
  | app fnAt opened argAt mark fnBegins =>
    cases fnBegins rfl with
    | name named => exact .appliedName named opened argAt mark.closes
    | appliedName named openedFirst firstAt closes => exact .appliedName named openedFirst firstAt closes
    | group openedGroup termAt closed =>
      obtain ⟨tail, rfl⟩ := opened.head
      exact .appliedGroup openedGroup termAt closed
    | appliedGroup openedGroup termAt closed => exact .appliedGroup openedGroup termAt closed

section Alternatives

variable {nested : Scope → Parser Term} {scope : Scope}

theorem functionType_eq_none_of_symbol {s r : Text} {self : Name} (start : (Parser.name s).getD ([], s) = (self, r))
    (missing : symbol (ascii "(") r = none) : functionType nested scope s = none := by
  simp [functionType, start, missing]

/-- What stands in parentheses as a term is not a parameter with its domain. -/
theorem functionType_eq_none_of_term (noColon : ∀ scope tail, nested scope (58 :: tail) = none) {t : Term} {self : Name}
    {s r s1 s2 : Text} (start : (Parser.name s).getD ([], s) = (self, r)) (opened : Symbol (ascii "(") r s1)
    (termAt : Derives .term scope t s1 s2) (closes : Closes s2) : functionType nested scope s = none := by
  have inside := opened.read termAt.solid
  cases found : Parser.name s1 with
  | none => simp [functionType, start, inside, found]
  | some pair =>
    obtain ⟨param, r⟩ := pair
    have noDomain : (symbol (ascii ":") (blanks r)).bind (nested (self :: scope)) = none := by
      rcases termAt.after_name (name_eq_some_iff.mp found) with rfl | ⟨tail, rfl⟩ | ⟨tail, colons⟩
      · obtain ⟨tail, next | next⟩ := closes
        · rw [next]
          rfl
        · rw [next]
          rfl
      · have solid : blanks (40 :: tail) = 40 :: tail := solid_cons (by decide) (by decide) tail
        rw [solid]
        rfl
      · have first : Symbol (ascii ":") (58 :: 58 :: tail) (58 :: tail) := ⟨58 :: tail, rfl, .none _⟩
        rw [colons, first.read (solid_cons (by decide) (by decide) tail), Option.bind_some, noColon]
    cases colon : symbol (ascii ":") (blanks r) with
    | none => simp [functionType, start, inside, found, colon]
    | some s =>
      rw [colon, Option.bind_some] at noDomain
      simp [functionType, start, inside, found, colon, noDomain]

theorem Begins.functionType_eq_none (noColon : ∀ scope tail, nested scope (58 :: tail) = none) {s rest : Text}
    (begins : Begins scope s rest) (stops : word (ascii "(") rest = none) : functionType nested scope s = none := by
  cases begins with
  | name named =>
    refine functionType_eq_none_of_symbol named.getD_name ?_
    rw [symbol, stops]
    rfl
  | appliedName named opened argAt closes =>
    exact functionType_eq_none_of_term noColon named.getD_name opened argAt closes
  | group opened termAt closed =>
    exact functionType_eq_none_of_term noColon opened.getD_name opened termAt ⟨_, Or.inl closed⟩
  | appliedGroup opened termAt closed =>
    exact functionType_eq_none_of_term noColon opened.getD_name opened termAt ⟨_, Or.inl closed⟩

/-- What stands in parentheses as a term is a parameter only if an arrow comes after them. -/
theorem function_eq_none_of_term {t : Term} {s s1 s2 mid : Text} (opened : Symbol (ascii "(") s s1)
    (termAt : Derives .term scope t s1 s2) (closed : blanks s2 = 41 :: mid)
    (noArrow : word (ascii "=>") (blanks mid) = none) : function nested scope s = none := by
  have inside := opened.read termAt.solid
  cases found : Parser.name s1 with
  | none => simp [function, inside, found]
  | some pair =>
    obtain ⟨param, r⟩ := pair
    have noBody : (symbol (ascii ")") (erasure r).2).bind (symbol (ascii "=>")) = none := by
      rcases termAt.after_name (name_eq_some_iff.mp found) with rfl | ⟨tail, rfl⟩ | ⟨tail, colons⟩
      · have plain : erasure r = (false, 41 :: mid) := by
          rw [erasure, closed]
          rfl
        have after : symbol (ascii ")") (41 :: mid) = some (blanks mid) := by
          rw [symbol]
          exact congrArg (Option.map blanks) (word_append (ascii ")") mid)
        rw [plain, after, Option.bind_some, symbol, noArrow]
        rfl
      · have solid : blanks (40 :: tail) = 40 :: tail := solid_cons (by decide) (by decide) tail
        have plain : erasure (40 :: tail) = (false, 40 :: tail) := by
          rw [erasure, solid]
          rfl
        rw [plain]
        rfl
      · have plain : erasure r = (false, 58 :: 58 :: tail) := by
          rw [erasure, colons]
          rfl
        rw [plain]
        rfl
    cases close : symbol (ascii ")") (erasure r).2 with
    | none => simp [function, inside, found, close]
    | some s =>
      rw [close, Option.bind_some] at noBody
      simp [function, inside, found, close, noBody]

theorem Begins.function_eq_none {s rest : Text} (begins : Begins scope s rest)
    (noArrow : word (ascii "=>") (blanks rest) = none) : function nested scope s = none := by
  have ofName {n : Name} {s r : Text} (named : Named n s r) : function nested scope s = none := by
    obtain ⟨byte, tail, rfl, inName⟩ := named.head
    have missing : word (ascii "(") (byte :: tail) = none := by
      refine word_eq_none_of_head ?_
      rintro rfl
      cases inName
    simp [function, symbol, missing]
  cases begins with
  | name named => exact ofName named
  | appliedName named _ _ _ => exact ofName named
  | group opened termAt closed => exact function_eq_none_of_term opened termAt closed noArrow
  | @appliedGroup _ _ _ _ tail _ opened termAt closed =>
    refine function_eq_none_of_term opened termAt closed ?_
    have solid : blanks (40 :: tail) = 40 :: tail := solid_cons (by decide) (by decide) tail
    rw [solid]
    rfl

theorem keyword_eq_none {n : Name} {s rest : Text} (named : Named n s rest) (other : n ≠ ascii "Type") :
    keyword s = none := by
  cases found : word (ascii "Type") s with
  | none => simp [keyword, found]
  | some r =>
    cases more : r.head?.any isNameByte with
    | true => simp [keyword, found, more]
    | false =>
      have whole := word_eq_some_iff.mp found
      have same : Named (ascii "Type") s r := by
        rw [whole]
        exact named_keyword more
      exact absurd (named.unique same).1 other

theorem argument_eq_none {s : Text} (stops : word (ascii "(") s = none) : argument nested scope s = none := by
  simp [argument, symbol, stops]

theorem arguments_of_argument_eq_none {s : Text} (missing : argument nested scope s = none) (count : Nat) (t : Term) :
    arguments nested scope count t s = (t, s) := by
  cases count with
  | zero => rfl
  | succ count => rw [arguments, missing]

theorem annotated_eq_none {s : Text} (stops : word (ascii "::") (blanks s) = none) (t : Term) :
    annotated nested scope t s = none := by
  simp [annotated, symbol, stops]

/-- Nothing is attached to a head where `nested` finds nothing to attach. -/
theorem level_of_ended {s rest : Text} {t : Term} (found : head nested scope s = some (t, rest))
    (noArgument : argument nested scope rest = none) (noSign : annotated nested scope t rest = none) :
    level nested scope s = some (t, rest) := by
  simp [level, found, arguments_of_argument_eq_none noArgument, noSign]

theorem level_of_head {s rest : Text} {t : Term} (found : head nested scope s = some (t, rest)) (stops : Stops rest) :
    level nested scope s = some (t, rest) :=
  level_of_ended found (argument_eq_none stops.noArgument) (annotated_eq_none stops.noSign t)

end Alternatives

theorem termWithin_colon (depth : Nat) (scope : Scope) (tail : Text) : termWithin depth scope (58 :: tail) = none := by
  cases depth with
  | zero => rfl
  | succ depth =>
    have unopened : symbol (ascii "(") (58 :: tail) = none := rfl
    have unnamed : Parser.name (58 :: tail) = none := name_eq_none rfl
    have untyped : word (ascii "Type") (58 :: tail) = none := rfl
    simp [termWithin, level, head, functionType, function, keyword, Parser.named, group, unopened, unnamed, untyped]

end SelfLambda.Parser
