import SelfLambda.Parser.Lexical

/-! What the lexical level reads, as relations between a text and what is left of it: blanks, names, symbols with the
blanks after them, and erasure marks. The functions read as much as they can, so a relation holds of their result
wherever the text that is left does not go on in the same way. -/

namespace SelfLambda

open Text

def Name.Valid (n : Name) : Prop := n ≠ [] ∧ ∀ byte ∈ n, isNameByte byte = true

instance (n : Name) : Decidable n.Valid :=
  decidable_of_iff (n ≠ [] ∧ n.all isNameByte = true) (by rw [Name.Valid, List.all_eq_true])

namespace Parser

/-- A comment and the text after it. It goes up to the end of its line, or to the first `*/`. -/
inductive Comment : Text → Text → Prop where
  | line {body after : Text} (within : ∀ byte ∈ body, byte ≠ newline)
    (ends : after = [] ∨ after.head? = some newline) : Comment (ascii "//" ++ (body ++ after)) after
  | block {body after : Text}
    (first : ∀ before later, body ++ ascii "*/" = before ++ (ascii "*/" ++ later) → later = []) :
    Comment (ascii "/*" ++ (body ++ (ascii "*/" ++ after))) after

inductive Blank : Text → Text → Prop where
  | none (s : Text) : Blank s s
  | space {byte : UInt8} {s rest : Text} (space : isSpace byte = true) (more : Blank s rest) : Blank (byte :: s) rest
  | comment {s after rest : Text} (comment : Comment s after) (more : Blank after rest) : Blank s rest

def Solid (s : Text) : Prop := blanks s = s

def Named (n : Name) (s rest : Text) : Prop := n.Valid ∧ s = n ++ rest ∧ rest.head?.any isNameByte = false

def Symbol (w s rest : Text) : Prop := ∃ after, s = w ++ after ∧ Blank after rest

/-- Blanks with a semicolon among them or, if nothing is erased, without one. -/
def Mark (erased : Bool) (s rest : Text) : Prop :=
  if erased then ∃ after, Blank s (ascii ";" ++ after) ∧ Blank after rest else Blank s rest

theorem word_append (w rest : Text) : word w (w ++ rest) = some rest := word_eq_some_iff.mpr rfl

theorem word_eq_none_of_head {byte first : UInt8} {w s : Text} (different : byte ≠ first) :
    word (byte :: w) (first :: s) = none := by rw [word, if_neg different]

theorem closeComment_append {body after : Text}
    (first : ∀ before later, body ++ ascii "*/" = before ++ (ascii "*/" ++ later) → later = []) :
    closeComment (body ++ (ascii "*/" ++ after)) = some after := by
  induction body with
  | nil => rfl
  | cons byte body ih =>
    have open_ : word (ascii "*/") (byte :: (body ++ (ascii "*/" ++ after))) = none := by
      cases found : word (ascii "*/") (byte :: (body ++ (ascii "*/" ++ after))) with
      | none => rfl
      | some rest =>
        -- a mark at the very start would be an earlier one, with a rest that is not empty
        have early : byte :: (body ++ ascii "*/") ++ after = ascii "*/" ++ rest := by
          simpa using word_eq_some_iff.mp found
        have two : (ascii "*/").length = 2 := rfl
        have long : (byte :: (body ++ ascii "*/")).length = body.length + 3 := by simp [two]
        rcases List.append_eq_append_iff.mp early with ⟨middle, whole, _⟩ | ⟨middle, whole, _⟩
        · have total := congrArg List.length whole
          rw [List.length_append, long, two] at total
          omega
        · have nothing := first [] middle (by simpa using whole)
          rw [nothing, List.append_nil] at whole
          have total := congrArg List.length whole
          rw [long, two] at total
          omega
    rw [List.cons_append, closeComment, open_]
    refine ih fun before later same => first (byte :: before) later ?_
    rw [List.cons_append, List.cons_append, same]

theorem Comment.read {s after : Text} (comment : Comment s after) : comment? s = some after := by
  cases comment with
  | @line body _ within ends =>
    rw [Parser.comment?, word_append]
    have passed : ∀ byte ∈ body, (byte != newline) = true := fun byte member => by simpa using within byte member
    have stopped : after.dropWhile (· != newline) = after := by
      rcases ends with rfl | ends
      · rfl
      · cases after with
        | nil => rfl
        | cons byte rest =>
          cases ends
          rfl
    simp only [List.dropWhile_append_of_pos passed, stopped]
  | block first =>
    rw [Parser.comment?, word_append]
    exact closeComment_append first

theorem blanks_space {byte : UInt8} (space : isSpace byte = true) (s : Text) : blanks (byte :: s) = blanks s := by
  rw [blanks, if_pos space]

theorem Comment.head {s after : Text} (comment : Comment s after) : ∃ tail, s = 47 :: tail := by
  cases comment with
  | line within ends => exact ⟨_, rfl⟩
  | block first => exact ⟨_, rfl⟩

theorem Comment.skipped {s after : Text} (comment : Comment s after) : blanks s = blanks after := by
  obtain ⟨tail, rfl⟩ := comment.head
  have found := comment.read
  rw [Parser.blanks, if_neg (by decide)]
  split
  next other same =>
    rw [found] at same
    cases same
    rfl
  next missing =>
    rw [found] at missing
    cases missing

theorem Blank.skipped {s rest : Text} (blank : Blank s rest) : blanks s = blanks rest := by
  induction blank with
  | none s => rfl
  | space space _ ih => rw [blanks_space space, ih]
  | comment comment _ ih => rw [comment.skipped, ih]

theorem Blank.blanks_eq {s rest : Text} (blank : Blank s rest) (solid : Solid rest) : blanks s = rest :=
  blank.skipped.trans solid

theorem solid_nil : Solid [] := by rw [Solid, blanks]

theorem solid_cons {byte : UInt8} (notSpace : isSpace byte = false) (notSlash : byte ≠ 47) (s : Text) :
    Solid (byte :: s) := by
  have line : word (ascii "//") (byte :: s) = none := word_eq_none_of_head (Ne.symm notSlash)
  have block : word (ascii "/*") (byte :: s) = none := word_eq_none_of_head (Ne.symm notSlash)
  have missing : comment? (byte :: s) = none := by rw [comment?, line, block]
  rw [Solid, blanks, if_neg (by rw [notSpace]; decide)]
  split
  next after found =>
    rw [missing] at found
    cases found
  next => rfl

theorem isSpace_of_isNameByte {byte : UInt8} (inName : isNameByte byte = true) : isSpace byte = false := by
  cases space : isSpace byte with
  | false => rfl
  | true =>
    simp only [isSpace, Bool.or_eq_true, beq_iff_eq] at space
    rcases space with ((rfl | rfl) | rfl) | rfl
    all_goals cases inName

theorem solid_of_isNameByte {byte : UInt8} (inName : isNameByte byte = true) (s : Text) : Solid (byte :: s) := by
  refine solid_cons (isSpace_of_isNameByte inName) ?_ s
  rintro rfl
  cases inName

theorem Named.head {n : Name} {s rest : Text} (named : Named n s rest) :
    ∃ byte tail, s = byte :: tail ∧ isNameByte byte = true := by
  obtain ⟨⟨filled, bytes⟩, rfl, -⟩ := named
  cases n with
  | nil => exact absurd rfl filled
  | cons byte n => exact ⟨byte, n ++ rest, rfl, bytes byte List.mem_cons_self⟩

theorem Named.solid {n : Name} {s rest : Text} (named : Named n s rest) : Solid s := by
  obtain ⟨byte, tail, rfl, inName⟩ := named.head
  exact solid_of_isNameByte inName tail

theorem name_eq_some_iff {n : Name} {s rest : Text} : name s = some (n, rest) ↔ Named n s rest := by
  constructor
  · intro found
    have whole : s.takeWhile isNameByte ++ s.dropWhile isNameByte = s := List.takeWhile_append_dropWhile
    have inside : ∀ byte ∈ s.takeWhile isNameByte, isNameByte byte = true := by
      have all : (s.takeWhile isNameByte).all isNameByte = true := List.all_takeWhile
      exact List.all_eq_true.mp all
    have ended : (s.dropWhile isNameByte).head?.any isNameByte = false := by
      have stopped := List.head?_dropWhile_not isNameByte s
      cases rest : (s.dropWhile isNameByte).head? with
      | none => rfl
      | some byte =>
        rw [rest] at stopped
        simpa using stopped
    rw [name] at found
    split at found
    · cases found
    next first others taken =>
      cases found
      rw [taken] at whole inside
      exact ⟨⟨List.cons_ne_nil _ _, inside⟩, whole.symm, ended⟩
  · rintro ⟨⟨filled, bytes⟩, rfl, ended⟩
    have nothing : rest.takeWhile isNameByte = [] ∧ rest.dropWhile isNameByte = rest := by
      cases rest with
      | nil => exact ⟨rfl, rfl⟩
      | cons byte tail =>
        have outside : isNameByte byte = false := ended
        exact ⟨by rw [List.takeWhile_cons, outside]; rfl, by rw [List.dropWhile_cons, outside]; rfl⟩
    rw [name, List.takeWhile_append_of_pos bytes, List.dropWhile_append_of_pos bytes, nothing.1, nothing.2,
      List.append_nil]
    cases n with
    | nil => exact absurd rfl filled
    | cons first others => rfl

theorem name_eq_none {byte : UInt8} {s : Text} (outside : isNameByte byte = false) : name (byte :: s) = none := by
  rw [name, List.takeWhile_cons, outside]
  rfl

theorem Symbol.read {w s rest : Text} (symbol : Symbol w s rest) (solid : Solid rest) :
    Parser.symbol w s = some rest := by
  obtain ⟨after, rfl, blank⟩ := symbol
  rw [Parser.symbol, word_append, Option.map_some, blank.blanks_eq solid]

theorem Mark.read {erased : Bool} {s rest : Text} (mark : Mark erased s rest) (solid : Solid rest)
    (unmarked : word (ascii ";") rest = none) : erasure s = (erased, rest) := by
  unfold Mark at mark
  cases erased with
  | false =>
    have skipped : blanks s = rest := Blank.blanks_eq mark solid
    rw [erasure, skipped, unmarked]
  | true =>
    obtain ⟨after, before, behind⟩ := mark
    have skipped : blanks s = ascii ";" ++ after := before.blanks_eq (solid_cons (by decide) (by decide) _)
    have reached : blanks after = rest := behind.blanks_eq solid
    simp only [erasure, skipped, word_append, reached]

end Parser

end SelfLambda
