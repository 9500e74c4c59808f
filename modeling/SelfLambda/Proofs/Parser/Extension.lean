import SelfLambda.Proofs.Parser.Restoration

/-! Texts that go on with a new line. What was derived of a text is derived of the longer one, because a newline ends a
name and a line comment and is blank itself. What was read of it is read again, although some of what failed for want
of text may now go on: where a term stopped, no argument, annotation or arrow comes now either.

A function type may come right after a term in parentheses, as in `(b)(x : A) -> B`. It is then no argument of that term;
and after a name it would have been read together with the name, so no term that was read ends in one there. -/

namespace SelfLambda.Parser

open Text

theorem ended_append {s : Text} (ended : s.head?.any isNameByte = false) (more : Text) :
    (s ++ newline :: more).head?.any isNameByte = false := by
  cases s with
  | nil => rfl
  | cons byte tail => exact ended

theorem Comment.append {s after : Text} (comment : Comment s after) (more : Text) :
    Comment (s ++ newline :: more) (after ++ newline :: more) := by
  cases comment with
  | line within ends =>
    have goesOn : (after ++ newline :: more).head? = some newline := by
      rcases ends with rfl | ends
      · rfl
      · rw [List.head?_append, ends]
        rfl
    simp only [List.append_assoc]
    exact .line within (.inr goesOn)
  | block first =>
    simp only [List.append_assoc]
    exact .block first

theorem Blank.append {s rest : Text} (blank : Blank s rest) (more : Text) :
    Blank (s ++ newline :: more) (rest ++ newline :: more) := by
  induction blank with
  | none s => exact .none _
  | space space _ ih => exact .space space ih
  | comment comment _ ih => exact .comment (comment.append more) ih

theorem Named.append {n : Name} {s rest : Text} (named : Named n s rest) (more : Text) :
    Named n (s ++ newline :: more) (rest ++ newline :: more) := by
  obtain ⟨valid, rfl, ended⟩ := named
  exact ⟨valid, List.append_assoc _ _ _, ended_append ended more⟩

theorem Symbol.append {w s rest : Text} (symbol : Symbol w s rest) (more : Text) :
    Symbol w (s ++ newline :: more) (rest ++ newline :: more) := by
  obtain ⟨after, rfl, blank⟩ := symbol
  exact ⟨after ++ newline :: more, List.append_assoc _ _ _, blank.append more⟩

theorem Mark.append {erased : Bool} {s rest : Text} (mark : Mark erased s rest) (more : Text) :
    Mark erased (s ++ newline :: more) (rest ++ newline :: more) := by
  cases erased with
  | false => exact Blank.append mark more
  | true =>
    obtain ⟨after, before, behind⟩ := mark
    exact ⟨after ++ newline :: more, before.append more, behind.append more⟩

theorem Derives.append {phrase : Phrase} {scope : Scope} {t : Term} {s rest : Text}
    (derives : Derives phrase scope t s rest) (more : Text) :
    Derives phrase scope t (s ++ newline :: more) (rest ++ newline :: more) := by
  induction derives with
  | all selfName opened named blank colon _ mark closed arrow _ domainLaw codomainLaw =>
    rw [List.append_assoc]
    exact .all selfName (opened.append more) (named.append more) (blank.append more) (colon.append more) domainLaw
      (mark.append more) (closed.append more) (arrow.append more) codomainLaw
  | lam opened named mark closed maps _ bodyLaw =>
    exact .lam (opened.append more) (named.append more) (mark.append more) (closed.append more) (maps.append more) bodyLaw
  | plain _ spineLaw => exact .plain spineLaw
  | ann _ blank sign _ termLaw typeLaw => exact .ann termLaw (blank.append more) (sign.append more) typeLaw
  | typ ended =>
    rw [List.append_assoc]
    exact .typ (ended_append ended more)
  | name named other => exact .name (named.append more) other
  | group opened _ blank termLaw => exact .group (opened.append more) termLaw (blank.append more)
  | app _ opened _ mark fnLaw argLaw => exact .app fnLaw (opened.append more) argLaw (mark.append more)

/-- Names decide what a phrase means, not where it ends. -/
theorem Derives.rescope {phrase : Phrase} {scope : Scope} {t : Term} {s rest : Text}
    (derives : Derives phrase scope t s rest) (scope' : Scope) : ∃ u, Derives phrase scope' u s rest := by
  induction derives generalizing scope' with
  | @all scope self param _ _ _ _ _ _ _ _ _ _ _ _ _ selfName opened named blank colon _ mark closed arrow _ domainLaw
      codomainLaw =>
    obtain ⟨domain, domainAt⟩ := domainLaw (self :: scope')
    obtain ⟨codomain, codomainAt⟩ := codomainLaw (param :: self :: scope')
    exact ⟨_, .all selfName opened named blank colon domainAt mark closed arrow codomainAt⟩
  | @lam scope param _ _ _ _ _ _ _ _ _ opened named mark closed maps _ bodyLaw =>
    obtain ⟨body, bodyAt⟩ := bodyLaw (param :: scope')
    exact ⟨_, .lam opened named mark closed maps bodyAt⟩
  | plain _ spineLaw =>
    obtain ⟨u, spine⟩ := spineLaw scope'
    exact ⟨u, .plain spine⟩
  | ann _ blank sign _ termLaw typeLaw =>
    obtain ⟨u, termAt⟩ := termLaw scope'
    obtain ⟨type, typeAt⟩ := typeLaw scope'
    exact ⟨_, .ann termAt blank sign typeAt⟩
  | typ ended => exact ⟨_, .typ ended⟩
  | name named other => exact ⟨_, .name named other⟩
  | group opened _ blank termLaw =>
    obtain ⟨u, termAt⟩ := termLaw scope'
    exact ⟨u, .group opened termAt blank⟩
  | app _ opened _ mark fnLaw argLaw =>
    obtain ⟨fn, fnAt⟩ := fnLaw scope'
    obtain ⟨arg, argAt⟩ := argLaw scope'
    exact ⟨_, .app fnAt opened argAt mark⟩

inductive UnnamedType (scope : Scope) : Text → Text → Prop where
  | intro {param : Name} {erased : Bool} {domain codomain : Term} {s s1 s2 s3 s4 s5 s6 s7 s8 rest : Text}
    (opened : Symbol (ascii "(") s s1) (named : Named param s1 s2) (blank : Blank s2 s3) (colon : Symbol (ascii ":") s3 s4)
    (domainAt : Derives .term ([] :: scope) domain s4 s5) (mark : Mark erased s5 s6) (closed : Symbol (ascii ")") s6 s7)
    (arrow : Symbol (ascii "->") s7 s8) (codomainAt : Derives .term (param :: [] :: scope) codomain s8 rest) :
    UnnamedType scope s rest

namespace UnnamedType

variable {scope : Scope} {s rest : Text}

theorem head (unnamed : UnnamedType scope s rest) : ∃ tail, s = 40 :: tail := by
  obtain ⟨opened, -⟩ := unnamed
  exact opened.head

theorem length_lt (unnamed : UnnamedType scope s rest) : rest.length < s.length := by
  obtain ⟨opened, named, blank, colon, domainAt, mark, closed, arrow, codomainAt⟩ := unnamed
  have shorter := (length_all_parts opened named blank colon domainAt mark closed arrow).2
  exact Nat.lt_trans codomainAt.length_lt shorter

theorem append (unnamed : UnnamedType scope s rest) (more : Text) :
    UnnamedType scope (s ++ newline :: more) (rest ++ newline :: more) := by
  obtain ⟨opened, named, blank, colon, domainAt, mark, closed, arrow, codomainAt⟩ := unnamed
  exact .intro (opened.append more) (named.append more) (blank.append more) (colon.append more) (domainAt.append more)
    (mark.append more) (closed.append more) (arrow.append more) (codomainAt.append more)

theorem named (unnamed : UnnamedType scope s rest) {self : Name} (valid : self.Valid) (scope' : Scope) :
    ∃ u, Derives .term scope' u (self ++ s) rest := by
  obtain @⟨param, _, _, _, _, _, _, _, _, _, _, _, _, _, opened, named, blank, colon, domainAt, mark, closed, arrow,
    codomainAt⟩ := unnamed
  obtain ⟨domain, domainAt⟩ := domainAt.rescope (self :: scope')
  obtain ⟨codomain, codomainAt⟩ := codomainAt.rescope (param :: self :: scope')
  exact ⟨_, .all (.inr valid) opened named blank colon domainAt mark closed arrow codomainAt⟩

theorem argument_eq_none (unnamed : UnnamedType scope s rest) {depth : Nat} (enough : s.length ≤ depth)
    (scope' : Scope) : argument (termWithin depth) scope' s = none := by
  obtain @⟨param, _, _, _, s, s1, s2, s3, s4, _, _, _, _, _, opened, named, blank, colon, domainAt, -, -, -, -⟩ := unnamed
  have colonAt : blanks s2 = s3 := blank.blanks_eq (colon.solid (by decide) (by decide))
  obtain ⟨after, rfl, behind⟩ := colon
  cases inside : termWithin depth scope' s1 with
  | none => simp [argument, opened.read named.solid, inside]
  | some pair =>
    obtain ⟨u, r⟩ := pair
    have shorter : s1.length + 1 ≤ s.length := opened.length_le
    have termAt := (readsTerms depth).sound depth (Nat.le_refl _) inside (by omega)
    rcases termAt.after_name named with rfl | ⟨tail, rfl⟩ | ⟨tail, colons⟩
    · have unmarked : erasure s2 = (false, 58 :: after) := by
        rw [erasure, colonAt]
        rfl
      have unclosed : word (ascii ")") (58 :: after) = none := word_eq_none_of_head (by decide)
      simp [argument, opened.read named.solid, inside, unmarked, unclosed]
    · have solid : blanks (40 :: tail) = 40 :: tail := solid_cons (by decide) (by decide) tail
      rw [solid] at colonAt
      cases colonAt
    · -- a second colon would be the start of the domain
      have second : after = 58 :: tail := by
        rw [colons] at colonAt
        exact (List.cons.inj colonAt).2.symm
      have start : blanks after = s4 := behind.blanks_eq domainAt.solid
      rw [second, solid_cons (by decide) (by decide) tail] at start
      obtain ⟨byte, other, whole, starts⟩ := domainAt.head
      rw [whole] at start
      cases start
      exact absurd starts (by decide)

end UnnamedType

/-- Nothing at the start of the text can be attached to a term before it. -/
structure Barred (s : Text) : Prop where
  noArgument : ∀ {depth : Nat} (scope : Scope), s.length ≤ depth → argument (termWithin depth) scope s = none
  noSign : word (ascii "::") (blanks s) = none
  noArrow : word (ascii "=>") (blanks s) = none

theorem UnnamedType.barred {scope : Scope} {s rest : Text} (unnamed : UnnamedType scope s rest) : Barred s := by
  obtain ⟨tail, rfl⟩ := unnamed.head
  have solid : blanks (40 :: tail) = 40 :: tail := solid_cons (by decide) (by decide) tail
  refine ⟨fun scope' enough => unnamed.argument_eq_none enough scope', ?_, ?_⟩
  · rw [solid]
    exact word_eq_none_of_head (by decide)
  · rw [solid]
    exact word_eq_none_of_head (by decide)

theorem Named.derives {n : Name} {s rest : Text} (named : Named n s rest) (scope : Scope) :
    ∃ t, Derives .spine scope t s rest := by
  by_cases keyword : n = ascii "Type"
  · obtain ⟨-, rfl, ended⟩ := named
    rw [keyword]
    exact ⟨_, .typ ended⟩
  · exact ⟨_, .name named keyword⟩

theorem Begins.argument {scope : Scope} {s rest : Text} (begins : Begins scope s rest) (noName : Parser.name s = none) :
    ∃ erased arg r, Argument scope erased arg s r := by
  have notNamed {n : Name} {r : Text} (named : Named n s r) : False := by
    rw [name_eq_some_iff.mpr named] at noName
    cases noName
  cases begins with
  | name named => exact (notNamed named).elim
  | appliedName named => exact (notNamed named).elim
  | @group t s s1 s2 _ opened termAt closed =>
    have mark := blank_blanks s2
    rw [closed] at mark
    exact ⟨false, t, _, s1, s2, opened, termAt, mark⟩
  | @appliedGroup t s s1 s2 _ _ opened termAt closed =>
    have mark := blank_blanks s2
    rw [closed] at mark
    exact ⟨false, t, _, s1, s2, opened, termAt, mark⟩

theorem Derives.unnamedType_or_argument {scope : Scope} {t : Term} {s rest : Text}
    (derives : Derives .term scope t s rest) (noName : Parser.name s = none) :
    UnnamedType scope s rest ∨ ∃ erased arg r, Argument scope erased arg s r := by
  cases derives with
  | @all _ self _ _ _ _ s _ _ _ _ _ _ _ _ _ selfName opened named blank colon domainAt mark closed arrow codomainAt =>
    rcases selfName with rfl | valid
    · exact .inl (.intro opened named blank colon domainAt mark closed arrow codomainAt)
    · obtain ⟨tail, rfl⟩ := opened.head
      have whole : Named self (self ++ 40 :: tail) (40 :: tail) := ⟨valid, rfl, rfl⟩
      exact nomatch (name_eq_some_iff.mpr whole).symm.trans noName
  | @lam _ _ erased _ _ s1 s2 _ _ _ _ opened named mark closed =>
    obtain ⟨after, rfl, -⟩ := closed
    obtain ⟨arg, argAt⟩ := named.derives scope
    exact .inr ⟨erased, arg, after, s1, s2, opened, .plain argAt, mark⟩
  | plain spine => exact .inr ((spine.begins rfl).argument noName)
  | ann termAt => exact .inr ((termAt.begins rfl).argument noName)

def Settled : Phrase → Scope → Term → Text → Text → Prop
  | .term, scope, t, s, rest => ∀ depth, s.length < depth → termWithin depth scope s = some (t, rest)
  | .spine, scope, _, s, _ => ∀ depth, functionType (termWithin depth) scope s = none

theorem settled_all {scope : Scope} {self param : Name} {erased : Bool} {domain codomain : Term}
    {s s1 s2 s3 s4 s5 s6 s7 s8 rest : Text} (selfName : self = [] ∨ self.Valid) (opened : Symbol (ascii "(") s s1)
    (named : Named param s1 s2) (blank : Blank s2 s3) (colon : Symbol (ascii ":") s3 s4)
    (domainAt : Derives .term (self :: scope) domain s4 s5) (mark : Mark erased s5 s6)
    (closed : Symbol (ascii ")") s6 s7) (arrow : Symbol (ascii "->") s7 s8)
    (codomainAt : Derives .term (param :: self :: scope) codomain s8 rest)
    (codomainSettled : Settled .term (param :: self :: scope) codomain s8 rest) (barred : Barred rest) :
    Settled .term scope (.all erased self param domain codomain) (self ++ s) rest := by
  intro depth enough
  cases depth with
  | zero => exact absurd enough (Nat.not_lt_zero _)
  | succ depth =>
    obtain ⟨domainLt, codomainLt⟩ := length_all_parts opened named blank colon domainAt mark closed arrow
    have shorter := codomainAt.length_lt
    have domainRead := domainAt.found (mark.read_closed closed).2.stops depth (by omega)
    have codomainRead := codomainSettled depth (by omega)
    exact level_of_ended (head_all selfName opened named blank colon domainAt.solid domainRead mark closed arrow
      codomainAt.solid codomainRead) (barred.noArgument scope (by omega)) (annotated_eq_none barred.noSign _)

theorem settled_lam {scope : Scope} {param : Name} {erased : Bool} {body : Term} {s s1 s2 s3 s4 s5 rest : Text}
    (opened : Symbol (ascii "(") s s1) (named : Named param s1 s2) (mark : Mark erased s2 s3)
    (closed : Symbol (ascii ")") s3 s4) (maps : Symbol (ascii "=>") s4 s5)
    (bodyAt : Derives .term (param :: scope) body s5 rest) (bodySettled : Settled .term (param :: scope) body s5 rest)
    (barred : Barred rest) : Settled .term scope (.lam erased param body) s rest := by
  intro depth enough
  cases depth with
  | zero => exact absurd enough (Nat.not_lt_zero _)
  | succ depth =>
    have bodyLt := length_lam_body opened named mark closed maps
    have shorter := bodyAt.length_lt
    have bodyRead := bodySettled depth (by omega)
    exact level_of_ended (head_lam opened named mark closed maps bodyAt.solid bodyRead)
      (barred.noArgument scope (by omega)) (annotated_eq_none barred.noSign _)

theorem settled_plain {scope : Scope} {t : Term} {s rest : Text} (derives : Derives .spine scope t s rest)
    (settled : Settled .spine scope t s rest) (barred : Barred rest) : Settled .term scope t s rest := by
  intro depth enough
  cases depth with
  | zero => exact absurd enough (Nat.not_lt_zero _)
  | succ depth =>
    have shorter := derives.length_lt
    have step := level_of_spine derives.found (Nat.le_of_lt_succ enough) (settled depth)
      ((derives.begins rfl).function_eq_none barred.noArrow) (barred.noArgument scope (by omega))
    rw [annotated_eq_none barred.noSign] at step
    exact step

theorem settled_ann {scope : Scope} {type t : Term} {s s1 s2 s3 rest : Text} (termAt : Derives .spine scope t s s1)
    (blank : Blank s1 s2) (sign : Symbol (ascii "::") s2 s3) (typeAt : Derives .term scope type s3 rest)
    (typeSettled : Settled .term scope type s3 rest) : Settled .term scope (.ann false type t) s rest := by
  intro depth enough
  cases depth with
  | zero => exact absurd enough (Nat.not_lt_zero _)
  | succ depth =>
    have shorter := length_ann_type termAt blank sign
    have typeRead := typeSettled depth (by omega)
    exact level_ann termAt termAt.found (Nat.le_of_lt_succ enough) blank sign typeAt.solid typeRead

theorem settled_group {scope : Scope} {t : Term} {s s1 s2 rest : Text} (opened : Symbol (ascii "(") s s1)
    (termAt : Derives .term scope t s1 s2) (blank : Blank s2 (ascii ")" ++ rest)) : Settled .spine scope t s rest := by
  intro depth
  have closed : blanks s2 = 41 :: rest := blank.blanks_eq (solid_cons (by decide) (by decide) rest)
  exact functionType_eq_none_of_term (termWithin_colon depth) opened.getD_name opened termAt ⟨rest, .inl closed⟩

theorem settled_app {scope : Scope} {erased : Bool} {fn arg : Term} {s s1 s2 s3 rest : Text}
    (fnAt : Derives .spine scope fn s s1) (opened : Symbol (ascii "(") s1 s2) (argAt : Derives .term scope arg s2 s3)
    (mark : Mark erased s3 (ascii ")" ++ rest)) : Settled .spine scope (.app erased fn arg) s rest := by
  intro depth
  have noColon := termWithin_colon depth
  cases fnAt.begins rfl with
  | name named => exact functionType_eq_none_of_term noColon named.getD_name opened argAt mark.closes
  | appliedName named first firstAt closes => exact functionType_eq_none_of_term noColon named.getD_name first firstAt closes
  | group first termAt closed =>
    exact functionType_eq_none_of_term noColon first.getD_name first termAt ⟨_, .inl closed⟩
  | appliedGroup first termAt closed =>
    exact functionType_eq_none_of_term noColon first.getD_name first termAt ⟨_, .inl closed⟩

/-- A phrase right before a function type ends in a name, and then can be read up to the end of the function type; or it
ends in a parenthesis, and is read as it stands in every text that goes on with a new line. -/
theorem Derives.named_or_settled {phrase : Phrase} {scope outer : Scope} {t : Term} {s rest last : Text}
    (derives : Derives phrase scope t s rest) (next : UnnamedType outer rest last) (more : Text) :
    (∃ u, Derives .term scope u s last) ∨
      Settled phrase scope t (s ++ newline :: more) (rest ++ newline :: more) := by
  have barred := (next.append more).barred
  induction derives with
  | all selfName opened named blank colon domainAt mark closed arrow codomainAt _ codomainLaw =>
    rcases codomainLaw next barred with ⟨u, later⟩ | settled
    · exact .inl ⟨_, .all selfName opened named blank colon domainAt mark closed arrow later⟩
    · rw [List.append_assoc]
      exact .inr (settled_all selfName (opened.append more) (named.append more) (blank.append more) (colon.append more)
        (domainAt.append more) (mark.append more) (closed.append more) (arrow.append more) (codomainAt.append more)
        settled barred)
  | lam opened named mark closed maps bodyAt bodyLaw =>
    rcases bodyLaw next barred with ⟨u, later⟩ | settled
    · exact .inl ⟨_, .lam opened named mark closed maps later⟩
    · exact .inr (settled_lam (opened.append more) (named.append more) (mark.append more) (closed.append more)
        (maps.append more) (bodyAt.append more) settled barred)
  | plain spine spineLaw =>
    exact (spineLaw next barred).imp_right (fun settled => settled_plain (spine.append more) settled barred)
  | ann termAt blank sign typeAt _ typeLaw =>
    rcases typeLaw next barred with ⟨u, later⟩ | settled
    · exact .inl ⟨_, .ann termAt blank sign later⟩
    · exact .inr (settled_ann (termAt.append more) (blank.append more) (sign.append more) (typeAt.append more) settled)
  | typ _ => exact .inl (next.named (by decide) _)
  | name named _ =>
    obtain ⟨valid, rfl, -⟩ := named
    exact .inl (next.named valid _)
  | group opened termAt blank =>
    exact .inr (settled_group (opened.append more) (termAt.append more) (blank.append more))
  | app fnAt opened argAt mark =>
    exact .inr (settled_app (fnAt.append more) (opened.append more) (argAt.append more) (mark.append more))

theorem term_append {scope outer : Scope} {t : Term} {s rest last : Text} (read : term scope s = some (t, rest))
    (next : UnnamedType outer rest last) (stops : Stops last) (more : Text) :
    term scope (s ++ newline :: more) = some (t, rest ++ newline :: more) := by
  rcases (derives_of_term read).named_or_settled next more with ⟨u, longer⟩ | settled
  · -- the parser would have gone on to the end of the function type
    have readLonger := term_of_derives longer stops
    rw [read] at readLonger
    cases readLonger
    exact absurd next.length_lt (Nat.lt_irrefl _)
  · exact settled _ (Nat.lt_succ_self _)

end SelfLambda.Parser
