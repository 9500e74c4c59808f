import SelfLambda.Proofs.Parser.Extent

/-! What the parser reads is derivable. Blanks, symbols and marks are read as the lexical level describes them; each
production that succeeds is a form of the grammar. A function type or a function takes with its last part all the
arguments and the annotation that follow, so none is left for the level above to attach to it. With completeness the
parser accepts exactly the grammar, and a source has one tree. -/

namespace SelfLambda

open Text

namespace Parser

theorem closeComment_first {s after : Text} (found : closeComment s = some after) :
    ∃ body, s = body ++ (ascii "*/" ++ after) ∧
      ∀ before later, body ++ ascii "*/" = before ++ (ascii "*/" ++ later) → later = [] := by
  induction s with
  | nil => cases found
  | cons byte tail ih =>
    rw [closeComment] at found
    split at found
    next closed =>
      cases found
      refine ⟨[], by rw [List.nil_append, ← word_eq_some_iff.mp closed], fun before later same => ?_⟩
      have total := congrArg List.length same
      simp only [List.length_append, List.length_nil] at total
      exact List.eq_nil_of_length_eq_zero (by omega)
    next unclosed =>
      obtain ⟨body, rfl, first⟩ := ih found
      refine ⟨byte :: body, rfl, fun before later same => ?_⟩
      cases before with
      | nil =>
        -- a mark at the very start would have been found there
        have early : byte :: (body ++ (ascii "*/" ++ after)) = ascii "*/" ++ (later ++ after) := by
          have extended := congrArg (· ++ after) same
          simpa only [List.cons_append, List.nil_append, List.append_assoc] using extended
        rw [early, word_append] at unclosed
        cases unclosed
      | cons first' before =>
        simp only [List.cons_append, List.cons.injEq] at same
        exact first before later same.2

theorem comment_of_comment? {s after : Text} (found : comment? s = some after) : Comment s after := by
  rw [comment?] at found
  split at found
  next body opened =>
    cases found
    have whole : body.takeWhile (· != newline) ++ body.dropWhile (· != newline) = body := List.takeWhile_append_dropWhile
    have within : ∀ byte ∈ body.takeWhile (· != newline), byte ≠ newline := by
      have all : (body.takeWhile (· != newline)).all (· != newline) = true := List.all_takeWhile
      intro byte member
      simpa using List.all_eq_true.mp all byte member
    have ends : body.dropWhile (· != newline) = [] ∨ (body.dropWhile (· != newline)).head? = some newline := by
      have stopped := List.head?_dropWhile_not (· != newline) body
      cases rest : body.dropWhile (· != newline) with
      | nil => exact .inl rfl
      | cons byte tail =>
        rw [rest] at stopped
        simp only [List.head?_cons, bne_eq_false_iff_eq] at stopped
        exact .inr (congrArg some stopped)
    have comment := Comment.line within ends
    rwa [whole, ← word_eq_some_iff.mp opened] at comment
  next =>
    split at found
    next body opened =>
      obtain ⟨inside, rfl, first⟩ := closeComment_first found
      rw [word_eq_some_iff.mp opened]
      exact .block first
    next => cases found

theorem blank_blanks (s : Text) : Blank s (blanks s) := by
  fun_induction blanks s with
  | case1 => exact .none []
  | case2 byte rest space ih => exact .space space ih
  | case3 byte rest _ after found ih => exact .comment (comment_of_comment? found) ih
  | case4 byte rest => exact .none (byte :: rest)

theorem symbol_read {w s rest : Text} (found : symbol w s = some rest) : Symbol w s rest := by
  obtain ⟨after, word, rfl⟩ := Option.map_eq_some_iff.mp found
  exact ⟨after, word_eq_some_iff.mp word, blank_blanks after⟩

theorem mark_erasure (s : Text) : Mark (erasure s).1 s (erasure s).2 := by
  rw [erasure]
  split
  next after found =>
    have before := blank_blanks s
    rw [word_eq_some_iff.mp found] at before
    exact ⟨after, before, blank_blanks after⟩
  next => exact blank_blanks s

def Sound (bound : Nat) (nested : Scope → Parser Term) : Prop :=
  ∀ ⦃scope : Scope⦄ ⦃s rest : Text⦄ ⦃t : Term⦄, nested scope s = some (t, rest) → s.length < bound →
    Derives .term scope t s rest

theorem Sound.shortens {bound : Nat} {nested : Scope → Parser Term} (sound : Sound bound nested) :
    Shortens bound nested :=
  fun _ _ _ _ found within => (sound found within).length_lt

namespace Sound

variable {bound : Nat} {nested : Scope → Parser Term} {scope : Scope} {s rest : Text} {t : Term}

theorem functionType (sound : Sound bound nested) (found : functionType nested scope s = some (t, rest))
    (within : s.length ≤ bound) :
    Derives .term scope t s rest ∧ ∃ scope' u r, nested scope' r = some (u, rest) ∧ r.length < bound := by
  obtain ⟨self, start, startEq, whole, selfName⟩ : ∃ self start, (Parser.name s).getD ([], s) = (self, start) ∧
      s = self ++ start ∧ (self = [] ∨ self.Valid) := by
    cases named : Parser.name s with
    | none => exact ⟨[], s, rfl, rfl, .inl rfl⟩
    | some pair =>
      have read := name_eq_some_iff.mp named
      exact ⟨pair.1, pair.2, rfl, read.2.1, .inr read.1⟩
  simp only [Parser.functionType, startEq, Option.bind_eq_bind, Option.bind_eq_some_iff, Option.pure_def,
    Prod.exists] at found
  obtain ⟨s1, opened, param, s2, named, s3, colon, domain, s4, domainRead, s5, closed, s6, arrow, codomain, s7,
    codomainRead, result⟩ := found
  cases result
  have opened := symbol_read opened
  have named := name_eq_some_iff.mp named
  have blank := blank_blanks s2
  have colon := symbol_read colon
  have mark := mark_erasure s4
  have closed := symbol_read closed
  have arrow := symbol_read arrow
  have l0 := congrArg List.length whole
  rw [List.length_append] at l0
  have l1 : s1.length + 1 ≤ start.length := opened.length_le
  have l2 := named.length_lt
  have l3 := blank.length_le
  have l4 := colon.length_le
  have domainAt := sound domainRead (by omega)
  have l5 := domainAt.length_lt
  have l6 := mark.length_le
  have l7 := closed.length_le
  have l8 := arrow.length_le
  have codomainAt := sound codomainRead (by omega)
  rw [whole]
  exact ⟨.all selfName opened named blank colon domainAt mark closed arrow codomainAt, _, codomain, s6, codomainRead,
    by omega⟩

theorem function (sound : Sound bound nested) (found : function nested scope s = some (t, rest))
    (within : s.length ≤ bound) :
    Derives .term scope t s rest ∧ ∃ scope' u r, nested scope' r = some (u, rest) ∧ r.length < bound := by
  simp only [Parser.function, Option.bind_eq_bind, Option.bind_eq_some_iff, Option.pure_def, Prod.exists] at found
  obtain ⟨s1, opened, param, s2, named, s3, closed, s4, maps, body, s5, bodyRead, result⟩ := found
  cases result
  have opened := symbol_read opened
  have named := name_eq_some_iff.mp named
  have mark := mark_erasure s2
  have closed := symbol_read closed
  have maps := symbol_read maps
  have l1 : s1.length + 1 ≤ s.length := opened.length_le
  have l2 := named.length_lt
  have l3 := mark.length_le
  have l4 := closed.length_le
  have l5 := maps.length_le
  have bodyAt := sound bodyRead (by omega)
  exact ⟨.lam opened named mark closed maps bodyAt, _, body, s4, bodyRead, by omega⟩

theorem group (sound : Sound bound nested) (found : group nested scope s = some (t, rest)) (within : s.length ≤ bound) :
    Derives .spine scope t s rest := by
  simp only [Parser.group, Option.bind_eq_bind, Option.bind_eq_some_iff, Option.pure_def, Prod.exists] at found
  obtain ⟨s1, opened, term, s2, termRead, s3, closed, result⟩ := found
  cases result
  have opened := symbol_read opened
  have l1 : s1.length + 1 ≤ s.length := opened.length_le
  have blank := blank_blanks s2
  rw [word_eq_some_iff.mp closed] at blank
  exact .group opened (sound termRead (by omega)) blank

end Sound

theorem keyword_sound {scope : Scope} {s rest : Text} {t : Term} (found : keyword s = some (t, rest)) :
    Derives .spine scope t s rest := by
  simp only [keyword, Option.bind_eq_bind, Option.bind_eq_some_iff] at found
  obtain ⟨r, read, kept⟩ := found
  by_cases more : r.head?.any isNameByte = true
  · rw [if_pos more] at kept
    cases kept
  · rw [if_neg more] at kept
    cases kept
    rw [word_eq_some_iff.mp read]
    exact .typ (Bool.eq_false_iff.mpr more)

theorem named_sound {scope : Scope} {s rest : Text} {t : Term} (found : Parser.named scope s = some (t, rest))
    (noKeyword : keyword s = none) : Derives .spine scope t s rest := by
  simp only [Parser.named, Option.bind_eq_bind, Option.bind_eq_some_iff, Option.pure_def, Prod.exists] at found
  obtain ⟨n, r, named, result⟩ := found
  cases result
  have read := name_eq_some_iff.mp named
  refine .name read ?_
  rintro rfl
  have isKeyword : keyword s = some (.typ, rest) := by
    rw [read.2.1]
    simp [keyword, word_append, read.2.2]
  rw [noKeyword] at isKeyword
  cases isKeyword

namespace Sound

variable {bound : Nat} {nested : Scope → Parser Term} {scope : Scope} {s rest : Text} {t : Term}

/-- What stands before arguments and annotation is a spine, or it is a binder whose last part `nested` has read up to
the same place. -/
theorem head (sound : Sound bound nested) (found : head nested scope s = some (t, rest)) (within : s.length ≤ bound) :
    Derives .spine scope t s rest ∨
      Derives .term scope t s rest ∧ ∃ scope' u r, nested scope' r = some (u, rest) ∧ r.length < bound := by
  simp only [Parser.head, Option.orElse_eq_orElse, Option.orElse_eq_or, Option.or_eq_some_iff] at found
  rcases found with found | ⟨-, found | ⟨-, found | ⟨noKeyword, found | ⟨-, found⟩⟩⟩⟩
  · exact .inr (sound.functionType found within)
  · exact .inr (sound.function found within)
  · exact .inl (keyword_sound found)
  · exact .inl (named_sound found noKeyword)
  · exact .inl (sound.group found within)

theorem headShortens (sound : Sound bound nested) : Shortens (bound + 1) (Parser.head nested) := by
  intro scope s rest t found within
  rcases sound.head found (Nat.le_of_lt_succ within) with spine | ⟨binder, -⟩
  · exact spine.length_lt
  · exact binder.length_lt

theorem arguments (sound : Sound bound nested) (count : Nat) {fn : Term} {start : Text}
    (fnAt : Derives .spine scope fn start s) (found : arguments nested scope count fn s = (t, rest))
    (within : s.length ≤ bound) : Derives .spine scope t start rest := by
  induction count generalizing fn s with
  | zero =>
    cases found
    exact fnAt
  | succ count ih =>
    rw [Parser.arguments] at found
    split at found
    next erased arg r next =>
      have shorter := length_argument sound.shortens next within
      simp only [argument, Option.bind_eq_bind, Option.bind_eq_some_iff, Option.pure_def, Prod.exists] at next
      obtain ⟨s1, opened, term, s2, argRead, s3, closed, result⟩ := next
      cases result
      have opened := symbol_read opened
      have l1 : s1.length + 1 ≤ s.length := opened.length_le
      have mark := mark_erasure s2
      rw [word_eq_some_iff.mp closed] at mark
      exact ih (.app fnAt opened (sound argRead (by omega)) mark) found (by omega)
    next =>
      cases found
      exact fnAt

theorem annotated (sound : Sound bound nested) {fn : Term} {start : Text} (fnAt : Derives .spine scope fn start s)
    (found : annotated nested scope fn s = some (t, rest)) (within : s.length ≤ bound) :
    Derives .term scope t start rest := by
  simp only [Parser.annotated, Option.bind_eq_bind, Option.bind_eq_some_iff, Option.pure_def, Prod.exists] at found
  obtain ⟨s1, sign, type, s2, typeRead, result⟩ := found
  cases result
  have sign := symbol_read sign
  have l1 : s1.length + 2 ≤ (blanks s).length := sign.length_le
  have l2 := length_blanks_le s
  exact .ann fnAt (blank_blanks s) sign (sound typeRead (by omega))

end Sound

theorem Sound.level {bound : Nat} {nested : Scope → Parser Term} (sound : Sound bound nested)
    (exhausts : Exhausts bound nested nested) : Sound (bound + 1) (level nested) := by
  intro scope s rest t found within
  have within := Nat.le_of_lt_succ within
  have read := found
  simp only [Parser.level, Option.bind_eq_bind, Option.bind_eq_some_iff, Option.pure_def, Prod.exists,
    Option.some.injEq] at found
  obtain ⟨first, mid, headRead, found⟩ := found
  rcases sound.head headRead within with spine | ⟨binder, scope', u, r, lastRead, short⟩
  · have midLe : mid.length ≤ bound := Nat.le_of_lt (Nat.lt_of_lt_of_le spine.length_lt within)
    cases applied : Parser.arguments nested scope mid.length first mid with
    | mk fn r =>
    have fnAt := sound.arguments mid.length spine applied midLe
    have shorter := length_arguments_le sound.shortens scope mid.length midLe first
    rw [applied] at found shorter
    cases suffix : Parser.annotated nested scope fn r with
    | none =>
      simp only [suffix, Option.getD_none, Prod.mk.injEq] at found
      obtain ⟨rfl, rfl⟩ := found
      exact .plain fnAt
    | some pair =>
      rw [suffix] at found
      cases found
      exact sound.annotated fnAt suffix (Nat.le_trans shorter midLe)
  · obtain ⟨noArgument, noSign⟩ := exhausts lastRead short scope
    have ended := level_of_ended headRead noArgument (noSign first)
    rw [read] at ended
    cases ended
    exact binder

structure ReadsTerms (bound : Nat) : Prop where
  sound : ∀ depth, bound ≤ depth → Sound bound (termWithin depth)
  alike : ∀ depth depth', bound ≤ depth → bound ≤ depth' → Alike bound (termWithin depth) (termWithin depth')
  exhausts : ∀ depth depth', bound ≤ depth → bound ≤ depth' → Exhausts bound (termWithin depth) (termWithin depth')

theorem ReadsTerms.succ {bound : Nat} (ih : ReadsTerms bound) : ReadsTerms (bound + 1) := by
  refine ⟨?_, ?_, ?_⟩
  · rintro (_ | depth) enough
    · cases enough
    · have enough := Nat.le_of_succ_le_succ enough
      exact (ih.sound depth enough).level (ih.exhausts depth depth enough enough)
  · rintro (_ | depth) (_ | depth') enough enough'
    · cases enough
    · cases enough
    · cases enough'
    · have enough := Nat.le_of_succ_le_succ enough
      have sound := ih.sound depth enough
      exact (ih.alike depth depth' enough (Nat.le_of_succ_le_succ enough')).level sound.shortens sound.headShortens
  · rintro (_ | depth) depth' enough enough'
    · cases enough
    · have enough := Nat.le_of_succ_le_succ enough
      have enough' := Nat.le_of_succ_le enough'
      have sound := ih.sound depth enough
      exact Exhausts.level (ih.alike depth depth' enough enough') sound.shortens sound.headShortens
        (ih.exhausts depth depth' enough enough')

theorem readsTerms (bound : Nat) : ReadsTerms bound := by
  induction bound with
  | zero =>
    refine ⟨?_, ?_, ?_⟩
    · intro depth _ scope s rest t _ within
      cases within
    · intro depth depth' _ _ scope scope' s within
      cases within
    · intro depth depth' _ _ scope s rest t _ within
      cases within
  | succ bound ih => exact ih.succ

theorem derives_of_term {scope : Scope} {s rest : Text} {t : Term} (found : term scope s = some (t, rest)) :
    Derives .term scope t s rest :=
  (readsTerms (s.length + 1)).sound (s.length + 1) (Nat.le_refl _) found (Nat.lt_succ_self _)

/-- The text is a term with blanks around it, and its tree is `t`. -/
def Spelt (scope : Scope) (t : Term) (s : Text) : Prop :=
  ∃ start rest, Blank s start ∧ Derives .term scope t start rest ∧ Blank rest []

theorem spelt_of_parse? {scope : Scope} {s : Text} {t : Term} (read : Term.parse? scope s = some t) :
    Spelt scope t s := by
  simp only [Term.parse?, Parser.complete, Option.bind_eq_bind, Option.bind_eq_some_iff, Prod.exists] at read
  obtain ⟨other, rest, found, kept⟩ := read
  by_cases nothing : (blanks rest).isEmpty = true
  · rw [if_pos nothing] at kept
    cases kept
    have after := blank_blanks rest
    rw [List.isEmpty_iff.mp nothing] at after
    exact ⟨blanks s, rest, blank_blanks s, derives_of_term found, after⟩
  · rw [if_neg nothing] at kept
    cases kept

theorem parse?_eq_some_iff {scope : Scope} {s : Text} {t : Term} : Term.parse? scope s = some t ↔ Spelt scope t s :=
  ⟨spelt_of_parse?, fun ⟨_, _, before, derives, after⟩ => parse?_of_derives before derives after⟩

/-- A function type or a function is a whole term as it stands: what follows it is no part of it. -/
theorem term_of_binder {scope : Scope} {s rest : Text} {t : Term}
    (found : functionType (termWithin s.length) scope s = some (t, rest) ∨
      functionType (termWithin s.length) scope s = none ∧ function (termWithin s.length) scope s = some (t, rest)) :
    term scope s = some (t, rest) := by
  have reads := readsTerms s.length
  have sound := reads.sound s.length (Nat.le_refl _)
  have headRead : head (termWithin s.length) scope s = some (t, rest) := by
    rcases found with found | ⟨failed, found⟩
    · simp [head, found]
    · simp [head, failed, found]
  have ended : ∃ scope' u r, termWithin s.length scope' r = some (u, rest) ∧ r.length < s.length := by
    rcases found with found | ⟨-, found⟩
    · exact (sound.functionType found (Nat.le_refl _)).2
    · exact (sound.function found (Nat.le_refl _)).2
  obtain ⟨scope', u, r, lastRead, short⟩ := ended
  obtain ⟨noArgument, noSign⟩ :=
    reads.exhausts s.length s.length (Nat.le_refl _) (Nat.le_refl _) lastRead short scope
  exact level_of_ended headRead noArgument (noSign t)

end Parser

theorem Scope.resolve_cases (scope : Scope) (n : Name) :
    (∃ index, scope[index]? = some n ∧ (∀ nearer < index, scope[nearer]? ≠ some n) ∧
      scope.resolve n = .var (UInt64.ofNat index)) ∨ n ∉ scope ∧ scope.resolve n = .ref n := by
  cases position : scope.idxOf? n with
  | none =>
    have free := List.idxOf?_eq_none_iff.mp position
    exact .inr ⟨free, Scope.resolve_ref free⟩
  | some index =>
    obtain ⟨bound, same, nearest⟩ := List.idxOf?_eq_some_iff.mp position
    refine .inl ⟨index, by rw [List.getElem?_eq_getElem bound, same], ?_, by rw [resolve, position]⟩
    intro nearer before equal
    rw [List.getElem?_eq_getElem (Nat.lt_trans before bound)] at equal
    exact nearest nearer before (Option.some.inj equal)

/-- The parser accepts exactly the grammar and builds the tree of the derivation, which is the only one. Names are
resolved to the nearest binder, and neither an argument nor an annotation is ever attached to a binder. -/
theorem Term.parse_iff_spelt (scope : Scope) (s : Text) :
    (∀ t, Term.parse? scope s = some t ↔ Parser.Spelt scope t s) ∧
      (∀ t u, Parser.Spelt scope t s → Parser.Spelt scope u s → t = u) ∧
      (∀ n, (∃ index, scope[index]? = some n ∧ (∀ nearer < index, scope[nearer]? ≠ some n) ∧
        scope.resolve n = .var (UInt64.ofNat index)) ∨ n ∉ scope ∧ scope.resolve n = .ref n) ∧
      ∀ t rest, Parser.functionType (Parser.termWithin s.length) scope s = some (t, rest) ∨
        Parser.functionType (Parser.termWithin s.length) scope s = none ∧
          Parser.function (Parser.termWithin s.length) scope s = some (t, rest) →
        Parser.term scope s = some (t, rest) := by
  refine ⟨fun t => Parser.parse?_eq_some_iff, ?_, scope.resolve_cases, fun t rest => Parser.term_of_binder⟩
  intro t u first second
  have read := Parser.parse?_eq_some_iff.mpr first
  rw [Parser.parse?_eq_some_iff.mpr second] at read
  exact (Option.some.inj read).symm

-- every space byte, both kinds of comment and a name before the end; and, byte by byte, what may follow a letter
example : Term.parse? [] ([32, 9, 10, 13] ++ Text.ascii "// a\n/* b\n*/09azAZ_ /* c */ // d") =
      some (.ref (Text.ascii "09azAZ_")) ∧
    ∀ n < 256, (Term.parse? [] [97, UInt8.ofNat n]).isSome ↔
      n ∈ [32, 9, 10, 13, 95] ∨ 48 ≤ n ∧ n ≤ 57 ∨ 65 ≤ n ∧ n ≤ 90 ∨ 97 ≤ n ∧ n ≤ 122 := by decide +kernel

end SelfLambda
