import SelfLambda.Proofs.Parser.Alternatives

/-! The parser finds every derivation that stops where nothing more can follow, one case for each form of the
grammar. -/

namespace SelfLambda.Parser

open Text

/-- The parser finds a term that stops; of a spine that is neither a function type nor a function it finds the head, and
then, one by one, the arguments. -/
def Found : Phrase → Scope → Term → Text → Text → Prop
  | .term, scope, t, s, rest => Stops rest → ∀ depth, s.length < depth → termWithin depth scope s = some (t, rest)
  | .spine, scope, t, s, rest => ∀ depth, s.length ≤ depth → functionType (termWithin depth) scope s = none →
    function (termWithin depth) scope s = none →
      ∃ first mid count, head (termWithin depth) scope s = some (first, mid) ∧ count + rest.length ≤ mid.length ∧
        ∀ more, arguments (termWithin depth) scope (more + count) first mid =
          arguments (termWithin depth) scope more t rest

theorem level_of_spine {scope : Scope} {t : Term} {s rest : Text} {depth : Nat} (found : Found .spine scope t s rest)
    (enough : s.length ≤ depth) (noFunctionType : functionType (termWithin depth) scope s = none)
    (noFunction : function (termWithin depth) scope s = none)
    (noArgument : argument (termWithin depth) scope rest = none) :
    level (termWithin depth) scope s = some ((annotated (termWithin depth) scope t rest).getD (t, rest)) := by
  obtain ⟨first, mid, count, headEq, long, steps⟩ := found depth enough noFunctionType noFunction
  have all := steps (mid.length - count)
  rw [Nat.sub_add_cancel (by omega), arguments_of_argument_eq_none noArgument] at all
  simp [level, headEq, all]

theorem length_all_parts {scope : Scope} {self param : Name} {erased : Bool} {domain : Term}
    {s s1 s2 s3 s4 s5 s6 s7 s8 : Text} (opened : Symbol (ascii "(") s s1) (named : Named param s1 s2) (blank : Blank s2 s3)
    (colon : Symbol (ascii ":") s3 s4) (domainAt : Derives .term (self :: scope) domain s4 s5) (mark : Mark erased s5 s6)
    (closed : Symbol (ascii ")") s6 s7) (arrow : Symbol (ascii "->") s7 s8) :
    s4.length < (self ++ s).length ∧ s8.length < (self ++ s).length := by
  have := opened.length_le
  have := named.length_lt
  have := blank.length_le
  have := colon.length_le
  have := domainAt.length_lt
  have := mark.length_le
  have := closed.length_le
  have := arrow.length_le
  rw [List.length_append]
  omega

theorem length_lam_body {param : Name} {erased : Bool} {s s1 s2 s3 s4 s5 : Text} (opened : Symbol (ascii "(") s s1)
    (named : Named param s1 s2) (mark : Mark erased s2 s3) (closed : Symbol (ascii ")") s3 s4)
    (maps : Symbol (ascii "=>") s4 s5) : s5.length < s.length := by
  have := opened.length_le
  have := named.length_lt
  have := mark.length_le
  have := closed.length_le
  have := maps.length_le
  omega

theorem length_ann_type {scope : Scope} {t : Term} {s s1 s2 s3 : Text} (termAt : Derives .spine scope t s s1)
    (blank : Blank s1 s2) (sign : Symbol (ascii "::") s2 s3) : s3.length < s.length := by
  have := termAt.length_lt
  have := blank.length_le
  have := sign.length_le
  omega

theorem head_all {nested : Scope → Parser Term} {scope : Scope} {self param : Name} {erased : Bool}
    {domain codomain : Term} {s s1 s2 s3 s4 s5 s6 s7 s8 rest : Text} (selfName : self = [] ∨ self.Valid)
    (opened : Symbol (ascii "(") s s1) (named : Named param s1 s2) (blank : Blank s2 s3) (colon : Symbol (ascii ":") s3 s4)
    (domainStart : Solid s4) (domainRead : nested (self :: scope) s4 = some (domain, s5)) (mark : Mark erased s5 s6)
    (closed : Symbol (ascii ")") s6 s7) (arrow : Symbol (ascii "->") s7 s8) (codomainStart : Solid s8)
    (codomainRead : nested (param :: self :: scope) s8 = some (codomain, rest)) :
    head nested scope (self ++ s) = some (.all erased self param domain codomain, rest) := by
  have start : (Parser.name (self ++ s)).getD ([], self ++ s) = (self, s) := by
    rcases selfName with rfl | valid
    · exact opened.getD_name
    · obtain ⟨tail, rfl⟩ := opened.head
      exact Named.getD_name ⟨valid, rfl, rfl⟩
  have solidColon : Solid s3 := colon.solid (by decide) (by decide)
  have solidArrow : Solid s7 := arrow.solid (by decide) (by decide)
  have step : functionType nested scope (self ++ s) = some (.all erased self param domain codomain, rest) := by
    simp [functionType, start, opened.read named.solid, name_eq_some_iff.mpr named, blank.blanks_eq solidColon,
      colon.read domainStart, domainRead, (mark.read_closed closed).1, closed.read solidArrow, arrow.read codomainStart,
      codomainRead]
  simp [head, step]

theorem head_lam {nested : Scope → Parser Term} {scope : Scope} {param : Name} {erased : Bool} {body : Term}
    {s s1 s2 s3 s4 s5 rest : Text} (opened : Symbol (ascii "(") s s1) (named : Named param s1 s2)
    (mark : Mark erased s2 s3) (closed : Symbol (ascii ")") s3 s4) (maps : Symbol (ascii "=>") s4 s5)
    (bodyStart : Solid s5) (bodyRead : nested (param :: scope) s5 = some (body, rest)) :
    head nested scope s = some (.lam erased param body, rest) := by
  have solidArrow : Solid s4 := maps.solid (by decide) (by decide)
  obtain ⟨erasureEq, closing⟩ := mark.read_closed closed
  have noColon : symbol (ascii ":") (blanks s2) = none := by
    obtain ⟨tail, next | next⟩ := closing
    · rw [next]
      rfl
    · rw [next]
      rfl
  have early : functionType nested scope s = none := by
    simp [functionType, opened.getD_name, opened.read named.solid, name_eq_some_iff.mpr named, noColon]
  have step : function nested scope s = some (.lam erased param body, rest) := by
    simp [function, opened.read named.solid, name_eq_some_iff.mpr named, erasureEq, closed.read solidArrow,
      maps.read bodyStart, bodyRead]
  simp [head, early, step]

theorem level_ann {scope : Scope} {type t : Term} {s s1 s2 s3 rest : Text} {depth : Nat}
    (termAt : Derives .spine scope t s s1) (termFound : Found .spine scope t s s1) (enough : s.length ≤ depth)
    (blank : Blank s1 s2) (sign : Symbol (ascii "::") s2 s3) (typeStart : Solid s3)
    (typeRead : termWithin depth scope s3 = some (type, rest)) :
    level (termWithin depth) scope s = some (.ann false type t, rest) := by
  have solidSign : blanks s1 = s2 := blank.blanks_eq (sign.solid (by decide) (by decide))
  obtain ⟨tail, signed⟩ := sign.head
  have noOpen : word (ascii "(") s1 = none := word_open_eq_none (solidSign.trans signed) (by decide)
  have noArrow : word (ascii "=>") (blanks s1) = none := by
    rw [solidSign, signed]
    rfl
  have begins := termAt.begins rfl
  have step := level_of_spine termFound enough (begins.functionType_eq_none (termWithin_colon depth) noOpen)
    (begins.function_eq_none noArrow) (argument_eq_none noOpen)
  have suffix : annotated (termWithin depth) scope t s1 = some (.ann false type t, rest) := by
    simp [annotated, solidSign, sign.read typeStart, typeRead]
  rw [suffix] at step
  exact step

theorem found_all {scope : Scope} {self param : Name} {erased : Bool} {domain codomain : Term}
    {s s1 s2 s3 s4 s5 s6 s7 s8 rest : Text} (selfName : self = [] ∨ self.Valid) (opened : Symbol (ascii "(") s s1)
    (named : Named param s1 s2) (blank : Blank s2 s3) (colon : Symbol (ascii ":") s3 s4)
    (domainAt : Derives .term (self :: scope) domain s4 s5) (mark : Mark erased s5 s6)
    (closed : Symbol (ascii ")") s6 s7) (arrow : Symbol (ascii "->") s7 s8)
    (codomainAt : Derives .term (param :: self :: scope) codomain s8 rest)
    (domainFound : Found .term (self :: scope) domain s4 s5)
    (codomainFound : Found .term (param :: self :: scope) codomain s8 rest) :
    Found .term scope (.all erased self param domain codomain) (self ++ s) rest := by
  intro stops depth enough
  cases depth with
  | zero => exact absurd enough (Nat.not_lt_zero _)
  | succ depth =>
    obtain ⟨domainLt, codomainLt⟩ := length_all_parts opened named blank colon domainAt mark closed arrow
    have domainRead := domainFound (mark.read_closed closed).2.stops depth (by omega)
    have codomainRead := codomainFound stops depth (by omega)
    exact level_of_head (head_all selfName opened named blank colon domainAt.solid domainRead mark closed arrow
      codomainAt.solid codomainRead) stops

theorem found_lam {scope : Scope} {param : Name} {erased : Bool} {body : Term} {s s1 s2 s3 s4 s5 rest : Text}
    (opened : Symbol (ascii "(") s s1) (named : Named param s1 s2) (mark : Mark erased s2 s3)
    (closed : Symbol (ascii ")") s3 s4) (maps : Symbol (ascii "=>") s4 s5)
    (bodyAt : Derives .term (param :: scope) body s5 rest) (bodyFound : Found .term (param :: scope) body s5 rest) :
    Found .term scope (.lam erased param body) s rest := by
  intro stops depth enough
  cases depth with
  | zero => exact absurd enough (Nat.not_lt_zero _)
  | succ depth =>
    have shorter := length_lam_body opened named mark closed maps
    have bodyRead := bodyFound stops depth (by omega)
    exact level_of_head (head_lam opened named mark closed maps bodyAt.solid bodyRead) stops

theorem found_plain {scope : Scope} {t : Term} {s rest : Text} (derives : Derives .spine scope t s rest)
    (found : Found .spine scope t s rest) : Found .term scope t s rest := by
  intro stops depth enough
  cases depth with
  | zero => exact absurd enough (Nat.not_lt_zero _)
  | succ depth =>
    have begins := derives.begins rfl
    have step := level_of_spine found (Nat.le_of_lt_succ enough)
      (begins.functionType_eq_none (termWithin_colon depth) stops.noArgument) (begins.function_eq_none stops.noArrow)
      (argument_eq_none stops.noArgument)
    rw [annotated_eq_none stops.noSign] at step
    exact step

theorem found_ann {scope : Scope} {type t : Term} {s s1 s2 s3 rest : Text} (termAt : Derives .spine scope t s s1)
    (blank : Blank s1 s2) (sign : Symbol (ascii "::") s2 s3) (typeAt : Derives .term scope type s3 rest)
    (termFound : Found .spine scope t s s1) (typeFound : Found .term scope type s3 rest) :
    Found .term scope (.ann false type t) s rest := by
  intro stops depth enough
  cases depth with
  | zero => exact absurd enough (Nat.not_lt_zero _)
  | succ depth =>
    have shorter := length_ann_type termAt blank sign
    have typeRead := typeFound stops depth (by omega)
    exact level_ann termAt termFound (Nat.le_of_lt_succ enough) blank sign typeAt.solid typeRead

theorem found_typ {scope : Scope} {rest : Text} (ended : rest.head?.any isNameByte = false) :
    Found .spine scope .typ (ascii "Type" ++ rest) rest := by
  intro depth _ noFunctionType noFunction
  refine ⟨.typ, rest, 0, ?_, by omega, fun more => rfl⟩
  simp [head, noFunctionType, noFunction, keyword, word_append, ended]

theorem found_name {scope : Scope} {n : Name} {s rest : Text} (named : Named n s rest) (other : n ≠ ascii "Type") :
    Found .spine scope (scope.resolve n) s rest := by
  intro depth _ noFunctionType noFunction
  refine ⟨scope.resolve n, rest, 0, ?_, by omega, fun more => rfl⟩
  simp [head, noFunctionType, noFunction, keyword_eq_none named other, Parser.named, name_eq_some_iff.mpr named]

theorem found_group {scope : Scope} {t : Term} {s s1 s2 rest : Text} (opened : Symbol (ascii "(") s s1)
    (termAt : Derives .term scope t s1 s2) (blank : Blank s2 (ascii ")" ++ rest))
    (termFound : Found .term scope t s1 s2) : Found .spine scope t s rest := by
  intro depth enough noFunctionType noFunction
  refine ⟨t, rest, 0, ?_, by omega, fun more => rfl⟩
  have closed : blanks s2 = ascii ")" ++ rest := blank.blanks_eq (solid_cons (by decide) (by decide) rest)
  have shorter : s1.length < depth := by
    have : s1.length + 1 ≤ s.length := opened.length_le
    omega
  have inside := termFound (Closes.stops ⟨rest, Or.inl closed⟩) depth shorter
  obtain ⟨tail, whole⟩ := opened.head
  have noKeyword : keyword s = none := by
    rw [whole]
    rfl
  have noName : Parser.name s = none := by
    rw [whole]
    exact name_eq_none rfl
  simp [head, noFunctionType, noFunction, noKeyword, Parser.named, noName, group, opened.read termAt.solid, inside,
    closed, word_append]

theorem found_app {scope : Scope} {erased : Bool} {fn arg : Term} {s s1 s2 s3 rest : Text}
    (fnAt : Derives .spine scope fn s s1) (opened : Symbol (ascii "(") s1 s2)
    (argAt : Derives .term scope arg s2 s3) (mark : Mark erased s3 (ascii ")" ++ rest))
    (fnFound : Found .spine scope fn s s1) (argFound : Found .term scope arg s2 s3) :
    Found .spine scope (.app erased fn arg) s rest := by
  intro depth enough noFunctionType noFunction
  obtain ⟨first, mid, count, headEq, long, steps⟩ := fnFound depth enough noFunctionType noFunction
  have lengths : s2.length < depth ∧ rest.length < s1.length := by
    have := fnAt.length_lt
    have : s2.length + 1 ≤ s1.length := opened.length_le
    have := argAt.length_lt
    have := mark.length_le
    rw [List.length_append] at this
    omega
  have closing : Closes s3 := mark.closes
  have marked : erasure s3 = (erased, ascii ")" ++ rest) := mark.read (solid_cons (by decide) (by decide) rest) rfl
  have next : argument (termWithin depth) scope s1 = some ((erased, arg), rest) := by
    simp [argument, opened.read argAt.solid, argFound closing.stops depth lengths.1, marked, word_append]
  refine ⟨first, mid, count + 1, headEq, by omega, fun more => ?_⟩
  have order : more + (count + 1) = more + 1 + count := by omega
  rw [order, steps, arguments, next]

theorem Derives.found {phrase : Phrase} {scope : Scope} {t : Term} {s rest : Text}
    (derives : Derives phrase scope t s rest) : Found phrase scope t s rest := by
  induction derives with
  | all selfName opened named blank colon domainAt mark closed arrow codomainAt domainFound codomainFound =>
    exact found_all selfName opened named blank colon domainAt mark closed arrow codomainAt domainFound codomainFound
  | lam opened named mark closed maps bodyAt bodyFound => exact found_lam opened named mark closed maps bodyAt bodyFound
  | plain spine found => exact found_plain spine found
  | ann termAt blank sign typeAt termFound typeFound => exact found_ann termAt blank sign typeAt termFound typeFound
  | typ ended => exact found_typ ended
  | name named other => exact found_name named other
  | group opened termAt blank termFound => exact found_group opened termAt blank termFound
  | app fnAt opened argAt mark fnFound argFound => exact found_app fnAt opened argAt mark fnFound argFound

theorem term_of_derives {scope : Scope} {t : Term} {s rest : Text} (derives : Derives .term scope t s rest)
    (stops : Stops rest) : term scope s = some (t, rest) :=
  derives.found stops (s.length + 1) (Nat.lt_succ_self _)

theorem parse?_of_derives {scope : Scope} {t : Term} {s start rest : Text} (before : Blank s start)
    (derives : Derives .term scope t start rest) (after : Blank rest []) : Term.parse? scope s = some t := by
  have nothing : blanks rest = [] := after.blanks_eq solid_nil
  have found := term_of_derives derives (stops_of_blank nothing)
  simp [Term.parse?, complete, before.blanks_eq derives.solid, found, nothing]

end SelfLambda.Parser
