import SelfLambda.Proofs.Module.Loading
import SelfLambda.Proofs.Parser.Backtracking

/-! What a reader leaves behind. From any place in any text and under any names, what it tries comes to an end that no
further round changes; a success has moved it on, a failure has not moved it, and the names are as they were. Arguments are
read up to the end of the last one that is complete, and after a term there is none left to read, nor an annotation. -/

namespace SelfLambda

open Text

namespace Parser

theorem sound_term (bound : Nat) : Sound bound term := fun _ _ _ _ found _ => derives_of_term found

theorem alike_term {bound depth : Nat} (deep : bound ≤ depth) : Alike bound (termWithin depth) term := by
  intro scope scope' s short
  exact (readsTerms (s.length + 1)).alike depth _ (Nat.le_trans short deep) (Nat.le_refl _) scope scope' s
    (Nat.lt_succ_self _)

theorem term_exhausts {scope : Scope} {s rest : Text} {t : Term} (found : term scope s = some (t, rest)) (scope' : Scope) :
    argument term scope' rest = none ∧ ∀ u, annotated term scope' u rest = none := by
  have shorter := (derives_of_term found).length_lt
  have alike : Alike s.length (termWithin (s.length + 1)) term := alike_term (Nat.le_succ _)
  obtain ⟨noArgument, noSign⟩ := (readsTerms (s.length + 1)).exhausts (s.length + 1) (s.length + 1) (Nat.le_refl _)
    (Nat.le_refl _) found (Nat.lt_succ_self _) scope'
  exact ⟨(alike.argument (Nat.le_of_lt shorter)).eq_none noArgument,
    fun u => (alike.annotated (Nat.le_of_lt shorter) u u).eq_none (noSign u)⟩

theorem length_named {scope : Scope} {t : Term} {s rest : Text} (found : Parser.named scope s = some (t, rest)) :
    rest.length < s.length := by
  simp only [Parser.named, Option.bind_eq_bind, Option.bind_eq_some_iff, Option.pure_def, Prod.exists] at found
  obtain ⟨n, s1, read, whole⟩ := found
  cases whole
  exact (name_eq_some_iff.mp read).length_lt

theorem length_annotated {scope : Scope} {u t : Term} {s rest : Text}
    (found : annotated term scope u s = some (t, rest)) : rest.length < s.length := by
  simp only [annotated, Option.bind_eq_bind, Option.bind_eq_some_iff, Option.pure_def, Prod.exists] at found
  obtain ⟨s1, sign, type, s2, typeRead, whole⟩ := found
  cases whole
  have l1 : s1.length + 2 ≤ (blanks s).length := length_symbol sign
  have l2 := length_blanks_le s
  have l3 := (derives_of_term typeRead).length_lt
  omega

def Argument (scope : Scope) (erased : Bool) (arg : Term) (s rest : Text) : Prop :=
  ∃ s1 s2, Symbol (ascii "(") s s1 ∧ Derives .term scope arg s1 s2 ∧ Mark erased s2 (ascii ")" ++ rest)

theorem argument_eq_some_iff {scope : Scope} {erased : Bool} {arg : Term} {s rest : Text} :
    argument term scope s = some ((erased, arg), rest) ↔ Argument scope erased arg s rest := by
  constructor
  · intro found
    simp only [argument, Option.bind_eq_bind, Option.bind_eq_some_iff, Option.pure_def, Prod.exists] at found
    obtain ⟨s1, opened, arg, s2, argRead, s3, closed, whole⟩ := found
    cases whole
    have mark := mark_erasure s2
    rw [word_eq_some_iff.mp closed] at mark
    exact ⟨s1, s2, symbol_read opened, derives_of_term argRead, mark⟩
  · rintro ⟨s1, s2, opened, argAt, mark⟩
    have closing : Closes s2 := mark.closes
    have argRead : term scope s1 = some (arg, s2) := argAt.found closing.stops _ (Nat.lt_succ_self _)
    have marked : erasure s2 = (erased, ascii ")" ++ rest) :=
      mark.read (solid_cons (by decide) (by decide) rest) rfl
    simp [argument, opened.read argAt.solid, argRead, marked, word_append]

theorem Argument.length_lt {scope : Scope} {erased : Bool} {arg : Term} {s rest : Text}
    (argumentAt : Argument scope erased arg s rest) : rest.length < s.length := by
  obtain ⟨s1, s2, opened, argAt, mark⟩ := argumentAt
  have l1 := opened.length_le
  have l2 := argAt.length_lt
  have l3 := mark.length_le
  rw [List.length_append] at l3
  omega

/-- The function, applied to the arguments from the first text up to the second, one or more, is the term. -/
inductive Applied (scope : Scope) : Term → Text → Term → Text → Prop where
  | last {fn arg : Term} {erased : Bool} {s rest : Text} (argumentAt : Argument scope erased arg s rest) :
    Applied scope fn s (.app erased fn arg) rest
  | more {fn arg t : Term} {erased : Bool} {s mid rest : Text} (argumentAt : Argument scope erased arg s mid)
    (others : Applied scope (.app erased fn arg) mid t rest) : Applied scope fn s t rest

theorem Applied.length_lt {scope : Scope} {fn t : Term} {s rest : Text} (applied : Applied scope fn s t rest) :
    rest.length < s.length := by
  induction applied with
  | last argumentAt => exact argumentAt.length_lt
  | more argumentAt _ ih => exact Nat.lt_trans ih argumentAt.length_lt

theorem Argument.arguments_eq {scope : Scope} {erased : Bool} {arg : Term} {s mid : Text} {count : Nat}
    (argumentAt : Argument scope erased arg s mid) (enough : s.length ≤ count) (fn : Term) :
    ∃ others, mid.length ≤ others ∧
      arguments term scope count fn s = arguments term scope others (.app erased fn arg) mid := by
  have shorter := argumentAt.length_lt
  cases count with
  | zero => omega
  | succ count => exact ⟨count, by omega, arguments_of_argument (argument_eq_some_iff.mpr argumentAt) count fn⟩

theorem Argument.applied {scope : Scope} {count : Nat} {fn t arg : Term} {erased : Bool} {s mid rest : Text}
    (argumentAt : Argument scope erased arg s mid)
    (found : arguments term scope count (.app erased fn arg) mid = (t, rest)) : Applied scope fn s t rest := by
  induction count generalizing fn arg erased s mid with
  | zero =>
    cases found
    exact .last argumentAt
  | succ count ih =>
    rw [arguments] at found
    split at found
    next read => exact .more argumentAt (ih (argument_eq_some_iff.mp read) found)
    next =>
      cases found
      exact .last argumentAt

theorem Applied.arguments_eq {scope : Scope} {fn t : Term} {s rest : Text} {count : Nat}
    (applied : Applied scope fn s t rest) (noMore : argument term scope rest = none) (enough : s.length ≤ count) :
    arguments term scope count fn s = (t, rest) := by
  induction applied generalizing count with
  | last argumentAt =>
    obtain ⟨others, -, step⟩ := argumentAt.arguments_eq enough _
    rw [step, arguments_of_argument_eq_none noMore]
  | more argumentAt _ ih =>
    obtain ⟨others, left, step⟩ := argumentAt.arguments_eq enough _
    rw [step]
    exact ih noMore left

theorem argument_eq_none_iff {scope : Scope} {s : Text} :
    argument term scope s = none ↔ ∀ erased arg rest, ¬Argument scope erased arg s rest := by
  simp only [Option.eq_none_iff_forall_ne_some, Prod.forall, ne_eq, argument_eq_some_iff]

theorem application_eq_some_iff {scope : Scope} {fn t : Term} {s rest : Text} :
    application term scope fn s = some (t, rest) ↔
      Applied scope fn s t rest ∧ ∀ erased arg last, ¬Argument scope erased arg rest last := by
  rw [← argument_eq_none_iff]
  constructor
  · intro found
    obtain ⟨⟨⟨erased, arg⟩, mid⟩, read, whole⟩ := Option.map_eq_some_iff.mp found
    have argumentAt := argument_eq_some_iff.mp read
    have noMore := argument_arguments_eq_none (sound_term s.length).shortens scope s.length (Nat.le_refl _)
      (Nat.le_refl _) fn
    rw [whole] at noMore
    obtain ⟨others, -, step⟩ := argumentAt.arguments_eq (Nat.le_refl _) fn
    exact ⟨argumentAt.applied (step.symm.trans whole), noMore⟩
  · rintro ⟨applied, noMore⟩
    have whole := applied.arguments_eq noMore (Nat.le_refl _)
    have first : ∃ found, argument term scope s = some found := by
      cases applied with
      | last argumentAt => exact ⟨_, argument_eq_some_iff.mpr argumentAt⟩
      | more argumentAt => exact ⟨_, argument_eq_some_iff.mpr argumentAt⟩
    obtain ⟨found, read⟩ := first
    rw [application, read, Option.map_some, whole]

end Parser

namespace Reader

variable {α : Type}

theorem Gives.unique {read : Option (α × Text)} {r after after' : Reader} {result result' : Option α}
    (first : Gives read r result after) (second : Gives read r result' after') : result = result' ∧ after = after' := by
  cases read with
  | some pair => exact ⟨first.1.trans second.1.symm, first.2.unique second.2⟩
  | none => exact ⟨first.1.trans second.1.symm, first.2.trans second.2.symm⟩

theorem Reaches.before_eq {r after : Reader} {rest : Text} (reaches : r.Reaches rest after)
    (inside : r.cursor.position ≤ r.cursor.text.length) : r.cursor.before rest = after.cursor := by
  have position := reaches.position
  have total : r.remaining.length = r.cursor.text.length - r.cursor.position := List.length_drop
  have same : r.cursor.text.length - rest.length = after.cursor.position := by omega
  rw [Cursor.before, same, ← reaches.text]

/-- Whatever is tried comes to one end, the same for all numbers of rounds beyond the bytes that are left, and no move is
refused on the way. It gives what the parser reads there and has moved on, or it gives nothing and nothing has moved. -/
def Traceless (act : Nat → Action (Option α)) (p : Parser α) (r : Reader) : Prop :=
  ∃ result after, (∀ rounds, r.remaining.length < rounds → (act rounds).run r = .ok (result, after)) ∧
    after.names = r.names ∧ (r.cursor.position ≤ r.cursor.text.length → r.cursor.parse p = (result, after.cursor)) ∧
    match result with
    | some value => r.cursor.position < after.cursor.position ∧ p r.remaining = some (value, after.remaining)
    | none => after = r ∧ p r.remaining = none

theorem traceless {act : Nat → Action (Option α)} {p : Parser α} {r : Reader}
    (gives : ∀ rounds, r.remaining.length < rounds → Ends (act rounds) r (Gives (p r.remaining) r))
    (shortens : ∀ value rest, p r.remaining = some (value, rest) → rest.length < r.remaining.length) :
    Traceless act p r := by
  -- what is read fixes the result and the place, so any number of rounds that is enough will do
  obtain ⟨result, after, -, given⟩ := gives (r.remaining.length + 1) (Nat.lt_succ_self _)
  refine ⟨result, after, ?_, ?_⟩
  · intro rounds enough
    obtain ⟨result', after', ran, given'⟩ := gives rounds enough
    obtain ⟨rfl, rfl⟩ := given.unique given'
    exact ran
  · rw [Cursor.parse, show r.cursor.remaining = r.remaining from rfl]
    cases read : p r.remaining with
    | none =>
      rw [read] at given
      obtain ⟨rfl, rfl⟩ := given
      exact ⟨rfl, fun _ => rfl, rfl, rfl⟩
    | some pair =>
      obtain ⟨value, rest⟩ := pair
      have shorter := shortens value rest read
      rw [read] at given
      obtain ⟨rfl, reaches⟩ : result = some value ∧ r.Reaches rest after := given
      have position := reaches.position
      refine ⟨reaches.names, fun inside => ?_, by omega, by rw [reaches.remaining]⟩
      simp only [reaches.before_eq inside]

/-- Whatever the rounds, blanks are passed up to one place, never behind the one before; from there the reader does not move
again. -/
def PassesBlanks (r : Reader) : Prop :=
  ∃ after, after.names = r.names ∧ r.cursor.position ≤ after.cursor.position ∧
    after.remaining = Parser.blanks r.remaining ∧
    (r.cursor.position ≤ r.cursor.text.length → r.cursor.skipBlanks = after.cursor) ∧
    ∀ rounds, r.remaining.length < rounds →
      (space rounds).run r = .ok ((), after) ∧ (space rounds).run after = .ok ((), after)

theorem passesBlanks (r : Reader) : PassesBlanks r := by
  obtain ⟨⟨⟩, after, -, reaches⟩ := space_ends (Nat.lt_succ_self r.remaining.length)
  refine ⟨after, reaches.names, reaches.position_le, reaches.remaining, reaches.before_eq, fun rounds enough => ⟨?_, ?_⟩⟩
  · obtain ⟨⟨⟩, after', ran, reaches'⟩ := space_ends enough
    rw [ran, reaches'.unique reaches]
  · obtain ⟨⟨⟩, last, ran, onward⟩ := space_ends (reaches.within enough)
    rw [reaches.remaining, Parser.blanks_blanks, ← reaches.remaining] at onward
    rw [ran, onward.unique (Reaches.refl after)]

theorem run_of_gives_none {act : Action (Option α)} {r : Reader} {read : Option (α × Text)}
    (ends : Ends act r (Gives read r)) (failed : read = none) : act.run r = .ok (none, r) := by
  obtain ⟨result, after, ran, given⟩ := ends
  rw [failed] at given
  obtain ⟨rfl, rfl⟩ := given
  exact ran

theorem term_exhausted {r after : Reader} {rounds : Nat} {t : Term} (enough : r.remaining.length < rounds)
    (found : (term rounds).run r = .ok (some t, after)) (names : Scope) (u : Term) :
    (arguments (term rounds) rounds u none).run { after with names } = .ok (none, { after with names }) ∧
      (annotated rounds (term rounds) u).run { after with names } = .ok (none, { after with names }) := by
  have mirrors := mirrors_term rounds
  obtain ⟨result, last, ran, given⟩ := mirrors r enough
  rw [found] at ran
  cases ran
  cases read : Parser.term r.names r.remaining with
  | none =>
    rw [read] at given
    cases given.1
  | some pair =>
    rw [read] at given
    have reaches : r.Reaches pair.2 after := given.2
    obtain ⟨noArgument, noSign⟩ := Parser.term_exhausts read names
    rw [← reaches.remaining] at noArgument noSign
    have within : after.remaining.length < rounds := reaches.within enough
    have noApplication : Parser.application Parser.term names u after.remaining = none := by
      rw [Parser.application, noArgument, Option.map_none]
    exact ⟨run_of_gives_none (mirrors.arguments (r := { after with names }) (Parser.sound_term rounds).shortens
        (Nat.le_of_lt within) within u) noApplication,
      run_of_gives_none (mirrors.annotated (r := { after with names }) (Nat.le_of_lt within) within u) (noSign u)⟩

/-- Nothing that a reader tries leaves a trace. -/
structure LeavesNoTrace (r : Reader) : Prop where
  term : Traceless term (Parser.term r.names) r
  functionType : Traceless (fun n => functionType n (Reader.term n)) (Parser.functionType Parser.term r.names) r
  function : Traceless (fun n => function n (Reader.term n)) (Parser.function Parser.term r.names) r
  keyword : Traceless (fun _ => keyword) Parser.keyword r
  named : Traceless named (Parser.named r.names) r
  group : Traceless (fun n => group n (Reader.term n)) (Parser.group Parser.term r.names) r
  annotated (t : Term) : Traceless (fun n => annotated n (Reader.term n) t) (Parser.annotated Parser.term r.names t) r
  /-- A definition has names of its own. -/
  definition : Traceless (fun n => definition n (Reader.term n)) Parser.definition { r with names := [] }
  arguments (fn : Term) :
    Traceless (fun n => arguments (Reader.term n) n fn none) (Parser.application Parser.term r.names fn) r
  /-- Arguments end just after the last one that is complete. -/
  complete (fn t : Term) (rest : Text) :
    Parser.application Parser.term r.names fn r.remaining = some (t, rest) ↔
      Parser.Applied r.names fn r.remaining t rest ∧ ∀ erased arg last, ¬Parser.Argument r.names erased arg rest last
  space : PassesBlanks r
  /-- Where a term ended, neither an argument nor an annotation is read, whatever the names and the term. -/
  exhausted (rounds : Nat) (t : Term) (after : Reader) (names : Scope) (u : Term) :
    r.remaining.length < rounds → (Reader.term rounds).run r = .ok (some t, after) →
      (Reader.arguments (Reader.term rounds) rounds u none).run { after with names } = .ok (none, { after with names }) ∧
        (Reader.annotated rounds (Reader.term rounds) u).run { after with names } = .ok (none, { after with names })

theorem reading_leaves_no_trace (r : Reader) : LeavesNoTrace r where
  term := traceless (fun n enough => mirrors_term n r enough)
    (fun _ _ found => (Parser.derives_of_term found).length_lt)
  functionType := traceless
    (fun n enough => (mirrors_term n).functionType (Parser.sound_term n).shortens (Nat.le_of_lt enough) enough)
    (fun _ _ found => ((Parser.sound_term _).functionType found (Nat.le_refl _)).1.length_lt)
  function := traceless (fun n enough => (mirrors_term n).function (Nat.le_of_lt enough) enough)
    (fun _ _ found => ((Parser.sound_term _).function found (Nat.le_refl _)).1.length_lt)
  keyword := traceless (fun _ _ => keyword_ends r)
    (fun _ _ found => (@Parser.keyword_sound r.names _ _ _ found).length_lt)
  named := traceless (fun _ enough => named_ends enough) (fun _ _ found => Parser.length_named found)
  group := traceless (fun n enough => (mirrors_term n).group (Nat.le_of_lt enough) enough)
    (fun _ _ found => ((Parser.sound_term _).group found (Nat.le_refl _)).length_lt)
  annotated t := traceless (fun n enough => (mirrors_term n).annotated (Nat.le_of_lt enough) enough t)
    (fun _ _ found => Parser.length_annotated found)
  definition := traceless (fun _ enough => definition_ends enough rfl) (fun _ _ found => Parser.length_definition found)
  arguments fn := traceless
    (fun n enough => (mirrors_term n).arguments (Parser.sound_term n).shortens (Nat.le_of_lt enough) enough fn)
    (fun _ _ found => (Parser.application_eq_some_iff.mp found).1.length_lt)
  complete _ _ _ := Parser.application_eq_some_iff
  space := passesBlanks r
  exhausted _ _ _ names u enough found := term_exhausted enough found names u

/-- The second argument is never closed, so the term ends before it. -/
theorem reading_leaves_no_trace_unclosed :
    ∃ after : Reader, (term 8).run ⟨⟨ascii "f(x;)(y", 0⟩, [ascii "x"]⟩ =
        .ok (some (.app true (.ref (ascii "f")) (.var 0)), after) ∧ after.cursor.position = 5 ∧
      (arguments (term 8) 8 .typ none).run after = .ok (none, after) := by
  let r : Reader := ⟨⟨ascii "f(x;)(y", 0⟩, [ascii "x"]⟩
  have read : Parser.term r.names r.remaining = some (.app true (.ref (ascii "f")) (.var 0), ascii "(y") := by
    decide +kernel
  obtain ⟨result, after, ran, given⟩ := mirrors_term 8 r (by decide)
  rw [read] at given
  obtain ⟨rfl, reaches⟩ : result = _ ∧ r.Reaches (ascii "(y") after := given
  have position : after.cursor.position + 2 = 0 + 7 := reaches.position
  have ended := (reading_leaves_no_trace r).exhausted 8 _ after after.names .typ (by decide) ran
  exact ⟨after, ran, by omega, ended.1⟩

end Reader

end SelfLambda
