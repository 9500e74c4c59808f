import SelfLambda.Proofs.Parser.Printable

/-! Printing and reading are inverse. Whatever the parser reads is a printable term, production by production; and every
printable term is read back from its printed form. -/

namespace SelfLambda

open Text

/-- A name is read as a term that means it, as long as positions fit a word. -/
theorem Scope.resolve_printable {scope : Scope} {n : Name} (fits : scope.length < UInt64.size) (valid : n.Valid)
    (other : n ≠ ascii "Type") : (scope.resolve n).Printable scope := by
  cases position : scope.idxOf? n with
  | none =>
    have free := List.idxOf?_eq_none_iff.mp position
    rw [Scope.resolve_ref free]
    exact ⟨valid, other, free⟩
  | some i =>
    obtain ⟨bound, same, nearest⟩ := List.idxOf?_eq_some_iff.mp position
    have word : (UInt64.ofNat i).toNat = i := UInt64.toNat_ofNat_of_lt' (Nat.lt_trans bound fits)
    rw [Scope.resolve, position]
    refine ⟨n, ?_, valid, other, ?_⟩
    · rw [word, List.getElem?_eq_getElem bound, same]
    · intro nearer before equal
      rw [word] at before
      rw [List.getElem?_eq_getElem (Nat.lt_trans before bound)] at equal
      exact nearest nearer before (Option.some.inj equal)

namespace Parser

theorem length_blanks_le (s : Text) : (blanks s).length ≤ s.length := by
  fun_induction blanks s with
  | case1 => exact Nat.le_refl _
  | case2 byte rest _ ih => exact Nat.le_succ_of_le ih
  | case3 byte rest _ after found ih => exact Nat.le_trans ih (Nat.le_of_lt (length_comment? found))
  | case4 => exact Nat.le_refl _

theorem length_symbol {w s rest : Text} (found : symbol w s = some rest) : rest.length + w.length ≤ s.length := by
  obtain ⟨after, word, rfl⟩ := Option.map_eq_some_iff.mp found
  have total := length_word word
  have shorter := length_blanks_le after
  omega

theorem length_erasure_le (s : Text) : (erasure s).2.length ≤ s.length := by
  have shorter := length_blanks_le s
  rw [erasure]
  split
  next after found =>
    have total := length_word found
    have rest := length_blanks_le after
    exact Nat.le_trans rest (by omega)
  next => exact shorter

def Spells (nested : Scope → Parser Term) : Prop :=
  ∀ {scope : Scope} {s rest : Text} {t : Term}, nested scope s = some (t, rest) →
    scope.length + s.length < UInt64.size → t.Printable scope ∧ rest.length < s.length

section Spells

variable {nested : Scope → Parser Term}

theorem Spells.functionType (spells : Spells nested) : Spells (functionType nested) := by
  intro scope s rest t found bound
  obtain ⟨self, start, startEq, selfName, startLe⟩ : ∃ self start, (Parser.name s).getD ([], s) = (self, start) ∧
      (self = [] ∨ self.Valid) ∧ start.length ≤ s.length := by
    cases named : Parser.name s with
    | none => exact ⟨[], s, rfl, Or.inl rfl, Nat.le_refl _⟩
    | some pair =>
      have read := name_eq_some_iff.mp named
      exact ⟨pair.1, pair.2, rfl, Or.inr read.1, Nat.le_of_lt read.length_lt⟩
  simp only [Parser.functionType, startEq, Option.bind_eq_bind, Option.bind_eq_some_iff, Option.pure_def,
    Prod.exists] at found
  obtain ⟨s1, opened, param, s2, named, s3, colon, domain, s4, domainRead, s5, closed, s6, arrow, codomain, s7,
    codomainRead, whole⟩ := found
  cases whole
  have read := name_eq_some_iff.mp named
  have l1 : s1.length + 1 ≤ start.length := length_symbol opened
  have l2 := read.length_lt
  have l3 : s3.length + 1 ≤ (blanks s2).length := length_symbol colon
  have l4 := length_blanks_le s2
  have l5 := length_symbol closed
  have l6 := length_erasure_le s4
  have l7 := length_symbol arrow
  obtain ⟨domainPrintable, domainLt⟩ := spells domainRead (by rw [List.length_cons]; omega)
  obtain ⟨codomainPrintable, codomainLt⟩ := spells codomainRead (by rw [List.length_cons, List.length_cons]; omega)
  exact ⟨⟨selfName, read.1, domainPrintable, codomainPrintable⟩, by omega⟩

theorem Spells.function (spells : Spells nested) : Spells (function nested) := by
  intro scope s rest t found bound
  simp only [Parser.function, Option.bind_eq_bind, Option.bind_eq_some_iff, Option.pure_def, Prod.exists] at found
  obtain ⟨s1, opened, param, s2, named, s3, closed, s4, maps, body, s5, bodyRead, whole⟩ := found
  cases whole
  have read := name_eq_some_iff.mp named
  have l1 := length_symbol opened
  have l2 := read.length_lt
  have l3 := length_symbol closed
  have l4 := length_erasure_le s2
  have l5 := length_symbol maps
  obtain ⟨bodyPrintable, bodyLt⟩ := spells bodyRead (by rw [List.length_cons]; omega)
  exact ⟨⟨read.1, bodyPrintable⟩, by omega⟩

theorem Spells.group (spells : Spells nested) : Spells (group nested) := by
  intro scope s rest t found bound
  simp only [Parser.group, Option.bind_eq_bind, Option.bind_eq_some_iff, Option.pure_def, Prod.exists] at found
  obtain ⟨s1, opened, term, s2, termRead, s3, closed, whole⟩ := found
  cases whole
  have l1 := length_symbol opened
  have l2 := length_word closed
  have l3 := length_blanks_le s2
  obtain ⟨printable, termLt⟩ := spells termRead (by omega)
  exact ⟨printable, by omega⟩

theorem keyword_spells {scope : Scope} {s rest : Text} {t : Term} (found : keyword s = some (t, rest)) :
    t.Printable scope ∧ rest.length < s.length := by
  simp only [keyword, Option.bind_eq_bind, Option.bind_eq_some_iff] at found
  obtain ⟨r, read, kept⟩ := found
  have total : s.length = 4 + r.length := length_word read
  by_cases more : r.head?.any isNameByte = true
  · rw [if_pos more] at kept
    cases kept
  · rw [if_neg more] at kept
    cases kept
    exact ⟨trivial, by omega⟩

theorem named_spells {scope : Scope} {s rest : Text} {t : Term} (found : Parser.named scope s = some (t, rest))
    (noKeyword : keyword s = none) (bound : scope.length + s.length < UInt64.size) :
    t.Printable scope ∧ rest.length < s.length := by
  simp only [Parser.named, Option.bind_eq_bind, Option.bind_eq_some_iff, Option.pure_def, Prod.exists] at found
  obtain ⟨n, r, named, whole⟩ := found
  cases whole
  have read := name_eq_some_iff.mp named
  have other : n ≠ ascii "Type" := by
    rintro rfl
    have isKeyword : keyword s = some (.typ, rest) := by
      rw [read.2.1]
      simp [keyword, word_append, read.2.2]
    rw [noKeyword] at isKeyword
    cases isKeyword
  exact ⟨Scope.resolve_printable (by omega) read.1 other, read.length_lt⟩

theorem Spells.head (spells : Spells nested) : Spells (head nested) := by
  intro scope s rest t found bound
  unfold Parser.head at found
  cases functionTypeRead : Parser.functionType nested scope s with
  | some pair =>
    rw [functionTypeRead] at found
    cases found
    exact spells.functionType functionTypeRead bound
  | none =>
    cases functionRead : Parser.function nested scope s with
    | some pair =>
      rw [functionTypeRead, functionRead] at found
      cases found
      exact spells.function functionRead bound
    | none =>
      cases keywordRead : keyword s with
      | some pair =>
        rw [functionTypeRead, functionRead, keywordRead] at found
        cases found
        exact keyword_spells keywordRead
      | none =>
        cases namedRead : Parser.named scope s with
        | some pair =>
          rw [functionTypeRead, functionRead, keywordRead, namedRead] at found
          cases found
          exact named_spells namedRead keywordRead bound
        | none =>
          rw [functionTypeRead, functionRead, keywordRead, namedRead] at found
          exact spells.group found bound

theorem Spells.arguments (spells : Spells nested) {scope : Scope} (count : Nat) {fn t : Term} {s rest : Text}
    (printable : fn.Printable scope) (found : arguments nested scope count fn s = (t, rest))
    (bound : scope.length + s.length < UInt64.size) : t.Printable scope ∧ rest.length ≤ s.length := by
  induction count generalizing fn s with
  | zero =>
    cases found
    exact ⟨printable, Nat.le_refl _⟩
  | succ count ih =>
    rw [Parser.arguments] at found
    split at found
    next erased arg r next =>
      simp only [argument, Option.bind_eq_bind, Option.bind_eq_some_iff, Option.pure_def, Prod.exists] at next
      obtain ⟨s1, opened, term, s2, argRead, s3, closed, whole⟩ := next
      cases whole
      have l1 := length_symbol opened
      have l2 := length_word closed
      have l3 := length_erasure_le s2
      obtain ⟨argPrintable, argLt⟩ := spells argRead (by omega)
      have extended : (Term.app (erasure s2).1 fn arg).Printable scope := ⟨printable, argPrintable⟩
      obtain ⟨whole, shorter⟩ := ih extended found (by omega)
      exact ⟨whole, by omega⟩
    next =>
      cases found
      exact ⟨printable, Nat.le_refl _⟩

theorem Spells.level (spells : Spells nested) : Spells (level nested) := by
  intro scope s rest t found bound
  simp only [Parser.level, Option.bind_eq_bind, Option.bind_eq_some_iff, Option.pure_def, Prod.exists,
    Option.some.injEq] at found
  obtain ⟨first, mid, headRead, found⟩ := found
  obtain ⟨firstPrintable, firstLt⟩ := spells.head headRead bound
  cases applied : Parser.arguments nested scope mid.length first mid with
  | mk fn r =>
    obtain ⟨fnPrintable, fnLe⟩ := spells.arguments mid.length firstPrintable applied (by omega)
    rw [applied] at found
    cases suffix : annotated nested scope fn r with
    | none =>
      simp only [suffix, Option.getD_none, Prod.mk.injEq] at found
      obtain ⟨rfl, rfl⟩ := found
      exact ⟨fnPrintable, by omega⟩
    | some pair =>
      rw [suffix] at found
      cases found
      simp only [annotated, Option.bind_eq_bind, Option.bind_eq_some_iff, Option.pure_def, Prod.exists] at suffix
      obtain ⟨s1, sign, type, s2, typeRead, whole⟩ := suffix
      cases whole
      have l1 := length_symbol sign
      have l2 := length_blanks_le r
      obtain ⟨typePrintable, typeLt⟩ := spells typeRead (by omega)
      exact ⟨⟨rfl, typePrintable, fnPrintable⟩, by omega⟩

end Spells

theorem spells_termWithin (depth : Nat) : Spells (termWithin depth) := by
  induction depth with
  | zero =>
    intro scope s rest t found
    cases found
  | succ depth ih => exact ih.level

end Parser

/-- What is read is printable, and what is printable is read back as it was. The names and the bytes of a source
together are fewer than there are words, so that every position in a scope has its index. -/
theorem Term.parse_print_inverse (scope : Scope) :
    (∀ s t, scope.length + s.length < UInt64.size → Term.parse? scope s = some t → t.Printable scope) ∧
      ∀ t : Term, t.Printable scope → Term.parse? scope (t.print scope) = some t := by
  constructor
  · intro s t bound read
    simp only [Term.parse?, Parser.complete, Option.bind_eq_bind, Option.bind_eq_some_iff, Prod.exists] at read
    obtain ⟨other, rest, found, kept⟩ := read
    have shorter := Parser.length_blanks_le s
    have spelt := Parser.spells_termWithin _ found (by omega)
    by_cases nothing : (Parser.blanks rest).isEmpty = true
    · rw [if_pos nothing] at kept
      cases kept
      exact spelt.1
    · rw [if_neg nothing] at kept
      cases kept
  · intro t printable
    have derives := Parser.derives_term (Parser.derives_print printable [] rfl)
    rw [List.append_nil] at derives
    exact Parser.parse?_of_derives (.none _) derives (.none [])

theorem Term.parse_print_inverse_annotated :
    let t : Term := .lam false (ascii "x") (.app false (.var 1) (.ann false .typ (.var 0)))
    Term.parse? [ascii "f"] (ascii "(x) => f(x :: Type)") = some t ∧ t.Printable [ascii "f"] := by
  intro t
  have fn : (Term.var 1).Printable [ascii "x", ascii "f"] := ⟨ascii "f", rfl, by decide, by decide, by decide⟩
  have arg : (Term.var 0).Printable [ascii "x", ascii "f"] := ⟨ascii "x", rfl, by decide, by decide, by decide⟩
  have printable : t.Printable [ascii "f"] := ⟨by decide, fn, rfl, trivial, arg⟩
  obtain ⟨spelt, readBack⟩ := Term.parse_print_inverse [ascii "f"]
  have read := readBack t printable
  exact ⟨read, spelt _ t (by decide) read⟩

end SelfLambda
