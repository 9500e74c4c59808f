import SelfLambda.Text

/-! Lexical level of the grammar. A parser looks at the text that is left and either gives a result with the text
that is then left, or fails; it only ever returns what follows, so a failure leaves nothing behind. -/

namespace SelfLambda

abbrev Parser (α : Type) := Text → Option (α × Text)

namespace Parser

open Text

def word : Text → Text → Option Text
  | [], s => some s
  | _ :: _, [] => none
  | byte :: w, first :: s => if byte = first then word w s else none

theorem word_eq_some_iff {w s rest : Text} : word w s = some rest ↔ s = w ++ rest := by
  induction w generalizing s with
  | nil => simp only [word, Option.some.injEq, List.nil_append]
  | cons byte w ih =>
    cases s with
    | nil => simp only [word, List.cons_append, reduceCtorEq]
    | cons first s =>
      simp only [word, List.cons_append, List.cons.injEq]
      split
      next same => simp only [ih, same, true_and]
      next different => simp only [reduceCtorEq, Ne.symm different, false_and]

theorem length_word {w s rest : Text} (found : word w s = some rest) : s.length = w.length + rest.length := by
  rw [word_eq_some_iff.mp found, List.length_append]

def closeComment : Text → Option Text
  | [] => none
  | byte :: rest =>
    match word (ascii "*/") (byte :: rest) with
    | some after => some after
    | none => closeComment rest

theorem length_closeComment {s rest : Text} (found : closeComment s = some rest) : rest.length < s.length := by
  induction s with
  | nil => cases found
  | cons byte tail ih =>
    rw [closeComment] at found
    split at found
    next after closed =>
      cases found
      have total := length_word closed
      have two : (ascii "*/").length = 2 := rfl
      omega
    next =>
      have shorter := ih found
      rw [List.length_cons]
      omega

/-- The text after a comment. A line comment leaves its newline; a block comment that never closes is no comment. -/
def comment? (s : Text) : Option Text :=
  match word (ascii "//") s with
  | some rest => some (rest.dropWhile (· != newline))
  | none =>
    match word (ascii "/*") s with
    | some rest => closeComment rest
    | none => none

theorem length_comment? {s rest : Text} (found : comment? s = some rest) : rest.length < s.length := by
  rw [comment?] at found
  split at found
  next body opened =>
    cases found
    have total := length_word opened
    have two : (ascii "//").length = 2 := rfl
    have shorter : (body.dropWhile (· != newline)).length ≤ body.length :=
      (List.dropWhile_sublist (· != newline)).length_le
    omega
  next =>
    split at found
    next body opened =>
      have total := length_word opened
      have shorter := length_closeComment found
      omega
    next => cases found

def blanks (s : Text) : Text :=
  match s with
  | [] => []
  | byte :: rest =>
    if isSpace byte then blanks rest
    else match _found : comment? (byte :: rest) with
      | some after => blanks after
      | none => byte :: rest
termination_by s.length
decreasing_by
  · simp only [List.length_cons, Nat.lt_succ_self]
  · exact length_comment? _found

def symbol (w : Text) (s : Text) : Option Text := (word w s).map blanks

/-- A longest run of name bytes, which must not be empty. -/
def name : Parser Name := fun s =>
  match s.takeWhile isNameByte with
  | [] => none
  | first :: others => some (first :: others, s.dropWhile isNameByte)

def erasure (s : Text) : Bool × Text :=
  match word (ascii ";") (blanks s) with
  | some rest => (true, blanks rest)
  | none => (false, blanks s)

end Parser

end SelfLambda
