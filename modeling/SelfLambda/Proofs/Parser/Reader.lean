import SelfLambda.Text.Cursor
import SelfLambda.Proofs.Parser.Soundness

/-! Readers work the grammar off byte by byte. A reader moves one cursor over the text, forward and back, and keeps the
names of the enclosing binders on a stack; whatever it tries, it has to take back itself if that fails. Nothing bounds its
loops and its recursion but a number of rounds, and running out of them is a halt of its own, as is a move that the cursor
refuses. The lexical level is shown here to come to no halt and to read what the parser reads. -/

namespace SelfLambda

open Text

theorem Parser.solid_of_comment? {byte : UInt8} {s : Text} (notSpace : ¬isSpace byte = true)
    (missing : comment? (byte :: s) = none) : Solid (byte :: s) := by
  rw [Solid, blanks, if_neg notSpace]
  split
  next after found =>
    rw [missing] at found
    cases found
  next => rfl

theorem Parser.blanks_blanks (s : Text) : blanks (blanks s) = blanks s := (blank_blanks s).skipped.symm

/-- Where a reader stands, and the names of the binders around that place, the nearest first. -/
structure Reader where
  cursor : Cursor
  names : Scope
  deriving DecidableEq, Repr

namespace Reader

/-- Why a reader gives no answer: the cursor refuses a move, there is no name to take off the stack, or no round is
left. -/
inductive Halt where
  | refused (cause : Cursor.Refusal)
  | noName
  | outOfRounds
  deriving DecidableEq, Repr

abbrev Action := StateT Reader (Except Halt)

def remaining (r : Reader) : Text := r.cursor.remaining

def position : Action Nat := fun r => .ok (r.cursor.position, r)

def peek : Action (Option UInt8) := fun r => .ok (r.cursor.peek, r)

def advance : Action (Option UInt8) := fun r => .ok (r.cursor.advance.1, { r with cursor := r.cursor.advance.2 })

def revert (position : Nat) : Action Unit := fun r =>
  match r.cursor.revert position with
  | .ok cursor => .ok ((), { r with cursor })
  | .error cause => .error (.refused cause)

def slice (start stop : Nat) : Action Text := fun r =>
  match r.cursor.slice start stop with
  | .ok part => .ok (part, r)
  | .error cause => .error (.refused cause)

def push (name : Name) : Action Unit := fun r => .ok ((), { r with names := name :: r.names })

def pop : Action Unit := fun r =>
  match r.names with
  | [] => .error .noName
  | _ :: names => .ok ((), { r with names })

def wordFrom (start : Nat) : Text → Action Bool
  | [] => return true
  | byte :: w => do
    if (← advance) = some byte then wordFrom start w
    else
      revert start
      return false

def word (w : Text) : Action Bool := do wordFrom (← position) w

def optional (byte : UInt8) : Action Bool := do
  if (← peek) = some byte then
    let _ ← advance
    return true
  else return false

def skipWhile (p : UInt8 → Bool) : Nat → Action Unit
  | 0 => throw .outOfRounds
  | rounds + 1 => do
    if (← peek).any p then
      let _ ← advance
      skipWhile p rounds
    else return ()

def name (rounds : Nat) : Action (Option Name) := do
  let start ← position
  skipWhile isNameByte rounds
  let stop ← position
  if stop = start then return none
  else return some (← slice start stop)

def closeComment (start : Nat) : Nat → Action Bool
  | 0 => throw .outOfRounds
  | rounds + 1 => do
    if ← word (ascii "*/") then return true
    else if (← advance).isSome then closeComment start rounds
    else
      revert start
      return false

def comment (rounds : Nat) : Action Bool := do
  if ← word (ascii "//") then
    skipWhile (· != newline) rounds
    return true
  else
    let start ← position
    if ← word (ascii "/*") then closeComment start rounds else return false

def space : Nat → Action Unit
  | 0 => throw .outOfRounds
  | rounds + 1 => do
    match ← peek with
    | none => return ()
    | some byte =>
      if isSpace byte then
        let _ ← advance
        space rounds
      else if ← comment rounds then space rounds
      else return ()

def symbol (rounds : Nat) (w : Text) : Action Bool := do
  if ← word w then
    space rounds
    return true
  else return false

def erasure (rounds : Nat) : Action Bool := do
  space rounds
  let erased ← optional 59
  space rounds
  return erased

/-- The second reader has passed, in the same text and under the same names, all that stood before `rest`. -/
structure Reaches (before : Reader) (rest : Text) (after : Reader) : Prop where
  names : after.names = before.names
  text : after.cursor.text = before.cursor.text
  remaining : after.remaining = rest
  shorter : rest.length ≤ before.remaining.length
  position : after.cursor.position + rest.length = before.cursor.position + before.remaining.length

theorem Reaches.refl (r : Reader) : r.Reaches r.remaining r := ⟨rfl, rfl, rfl, Nat.le_refl _, rfl⟩

theorem Reaches.trans {r r' r'' : Reader} {rest rest' : Text} (first : r.Reaches rest r') (second : r'.Reaches rest' r'') :
    r.Reaches rest' r'' := by
  have shorter := second.shorter
  have position := second.position
  rw [first.remaining] at shorter position
  exact ⟨second.names.trans first.names, second.text.trans first.text, second.remaining,
    Nat.le_trans shorter first.shorter, position.trans first.position⟩

theorem Reaches.unique {r r' r'' : Reader} {rest : Text} (first : r.Reaches rest r') (second : r.Reaches rest r'') :
    r' = r'' := by
  obtain ⟨⟨text, position⟩, names⟩ := r'
  obtain ⟨⟨text', position'⟩, names'⟩ := r''
  obtain rfl : names = names' := first.names.trans second.names.symm
  obtain rfl : text = text' := first.text.trans second.text.symm
  obtain rfl : position = position' := Nat.add_right_cancel (first.position.trans second.position.symm)
  rfl

theorem Reaches.position_le {r r' : Reader} {rest : Text} (reaches : r.Reaches rest r') :
    r.cursor.position ≤ r'.cursor.position := by
  have shorter := reaches.shorter
  have position := reaches.position
  omega

/-- From `before` the action comes to an end without a halt, and to what `post` says. -/
def Ends {α : Type} (act : Action α) (before : Reader) (post : α → Reader → Prop) : Prop :=
  ∃ result after, act.run before = .ok (result, after) ∧ post result after

section Rules

variable {α β : Type} {r : Reader} {act : Action α} {mid : α → Reader → Prop} {post : β → Reader → Prop}

theorem Ends.bind {next : α → Action β} (first : Ends act r mid)
    (second : ∀ result after, mid result after → Ends (next result) after post) : Ends (act >>= next) r post := by
  obtain ⟨result, after, ran, holds⟩ := first
  obtain ⟨result', after', ran', holds'⟩ := second result after holds
  refine ⟨result', after', ?_, holds'⟩
  rw [StateT.run_bind, ran]
  exact ran'

theorem Ends.mono {weaker : α → Reader → Prop} (ends : Ends act r mid)
    (imp : ∀ result after, mid result after → weaker result after) : Ends act r weaker := by
  obtain ⟨result, after, ran, holds⟩ := ends
  exact ⟨result, after, ran, imp result after holds⟩

theorem ends_pure {value : α} (holds : mid value r) : Ends (pure value) r mid := ⟨value, r, rfl, holds⟩

theorem Ends.at {next : Nat → Action β} (rest : Ends (next r.cursor.position) r post) :
    Ends (position >>= next) r post := rest

theorem peek_eq (r : Reader) : r.cursor.peek = r.remaining.head? := by
  rw [Cursor.peek, remaining, Cursor.remaining, List.head?_drop]

theorem Ends.peeking {next : Option UInt8 → Action β} (rest : Ends (next r.remaining.head?) r post) :
    Ends (peek >>= next) r post := by
  rw [← peek_eq] at rest
  exact rest

theorem advance_nil (nothing : r.remaining = []) : Ends advance r fun byte after => byte = none ∧ after = r := by
  have none : r.cursor.peek = none := by rw [peek_eq, nothing, List.head?_nil]
  refine ⟨_, _, rfl, ?_⟩
  rw [Cursor.advance, none]
  exact ⟨rfl, rfl⟩

theorem advance_cons {byte : UInt8} {rest : Text} (next : r.remaining = byte :: rest) :
    Ends advance r fun found after => found = some byte ∧ r.Reaches rest after := by
  have some : r.cursor.peek = some byte := by rw [peek_eq, next, List.head?_cons]
  refine ⟨_, _, rfl, ?_⟩
  rw [Cursor.advance, some]
  have left : r.cursor.text.drop (r.cursor.position + 1) = rest := by
    rw [← List.drop_drop]
    exact congrArg (List.drop 1) next
  refine ⟨rfl, rfl, rfl, left, ?_, ?_⟩
  · rw [next, List.length_cons]
    exact Nat.le_succ _
  · rw [next, List.length_cons, Nat.add_comm rest.length 1, ← Nat.add_assoc]

theorem Reaches.revert {r' : Reader} {rest : Text} (reaches : r.Reaches rest r') :
    Ends (revert r.cursor.position) r' fun _ after => after = r := by
  refine ⟨(), r, ?_, rfl⟩
  have back : r'.cursor.revert r.cursor.position = .ok r.cursor := by
    rw [Cursor.revert, if_pos reaches.position_le, reaches.text]
  have restored : ({ r' with cursor := r.cursor } : Reader) = r := by rw [reaches.names]
  show Reader.revert r.cursor.position r' = _
  rw [Reader.revert, back]
  simp only [restored]

theorem Reaches.position_of_append {r' : Reader} {rest part : Text} (reaches : r.Reaches rest r')
    (whole : r.remaining = part ++ rest) : r'.cursor.position = r.cursor.position + part.length := by
  have position := reaches.position
  have lengths := congrArg List.length whole
  rw [List.length_append] at lengths
  omega

theorem Reaches.slice {r' : Reader} {rest part : Text} (reaches : r.Reaches rest r')
    (whole : r.remaining = part ++ rest) :
    Ends (slice r.cursor.position r'.cursor.position) r' fun found after => found = part ∧ after = r' := by
  refine ⟨part, r', ?_, rfl, rfl⟩
  have count : r'.cursor.position - r.cursor.position = part.length := by
    rw [reaches.position_of_append whole, Nat.add_sub_cancel_left]
  have passed : (r'.cursor.text.drop r.cursor.position).take (r'.cursor.position - r.cursor.position) = part := by
    rw [reaches.text, count]
    show r.remaining.take part.length = part
    rw [whole, List.take_left]
  have cut : r'.cursor.slice r.cursor.position r'.cursor.position = .ok part := by
    rw [Cursor.slice, if_pos ⟨reaches.position_le, Nat.le_refl _⟩, passed]
  show Reader.slice r.cursor.position r'.cursor.position r' = _
  rw [Reader.slice, cut]

theorem Reaches.give_up {r' : Reader} {rest : Text} {value : α} (reaches : r.Reaches rest r')
    (holds : mid value r) : Ends (do Reader.revert r.cursor.position; return value) r' mid := by
  refine Ends.bind reaches.revert ?_
  rintro _ _ rfl
  exact ends_pure holds

end Rules

def Finds (left : Option Text) (before : Reader) (found : Bool) (after : Reader) : Prop :=
  match left with
  | some rest => found = true ∧ before.Reaches rest after
  | none => found = false ∧ after = before

/-- The reader gives what was read and has passed it, or gives nothing and stands where it stood. -/
def Gives {α : Type} (read : Option (α × Text)) (before : Reader) (result : Option α) (after : Reader) : Prop :=
  match read with
  | some (value, rest) => result = some value ∧ before.Reaches rest after
  | none => result = none ∧ after = before

section Cases

variable {α β : Type} {r : Reader} {post : β → Reader → Prop}

theorem Ends.finding {act : Action Bool} {next : Bool → Action β} {left : Option Text} (finds : Ends act r (Finds left r))
    (found : ∀ rest after, left = some rest → r.Reaches rest after → Ends (next true) after post)
    (missed : left = none → Ends (next false) r post) : Ends (act >>= next) r post := by
  refine Ends.bind finds ?_
  intro result after finds
  cases left with
  | some rest =>
    obtain ⟨rfl, reaches⟩ := finds
    exact found rest after rfl reaches
  | none =>
    obtain ⟨rfl, rfl⟩ := finds
    exact missed rfl

theorem Ends.giving {act : Action (Option α)} {next : Option α → Action β} {read : Option (α × Text)}
    (gives : Ends act r (Gives read r))
    (given : ∀ value rest after, read = some (value, rest) → r.Reaches rest after → Ends (next (some value)) after post)
    (nothing : read = none → Ends (next none) r post) : Ends (act >>= next) r post := by
  refine Ends.bind gives ?_
  intro result after gives
  cases read with
  | some pair =>
    obtain ⟨rfl, reaches⟩ := gives
    exact given pair.1 pair.2 after rfl reaches
  | none =>
    obtain ⟨rfl, rfl⟩ := gives
    exact nothing rfl

end Cases

variable {r : Reader} {rounds : Nat}

theorem wordFrom_ends {start : Reader} (reaches : start.Reaches r.remaining r) (w : Text) :
    Ends (wordFrom start.cursor.position w) r (Finds (Parser.word w r.remaining) start) := by
  induction w generalizing r with
  | nil => exact ends_pure ⟨rfl, reaches⟩
  | cons byte w ih =>
    rw [wordFrom]
    cases next : r.remaining with
    | nil =>
      refine Ends.bind (advance_nil next) ?_
      rintro _ _ ⟨rfl, rfl⟩
      rw [if_neg nofun]
      exact reaches.give_up ⟨rfl, rfl⟩
    | cons first s =>
      refine Ends.bind (advance_cons next) ?_
      rintro _ after ⟨rfl, step⟩
      rw [Parser.word]
      by_cases same : byte = first
      · rw [if_pos (by rw [same]), if_pos same, ← step.remaining]
        apply ih
        rw [step.remaining]
        exact reaches.trans step
      · rw [if_neg (fun equal => same (Option.some.inj equal).symm), if_neg same]
        exact (reaches.trans step).give_up ⟨rfl, rfl⟩

theorem word_ends (r : Reader) (w : Text) : Ends (word w) r (Finds (Parser.word w r.remaining) r) :=
  wordFrom_ends (Reaches.refl r) w

theorem optional_ends (r : Reader) (byte : UInt8) :
    Ends (optional byte) r (Finds (Parser.word [byte] r.remaining) r) := by
  refine Ends.peeking ?_
  cases next : r.remaining with
  | nil => exact ends_pure ⟨rfl, rfl⟩
  | cons first s =>
    rw [List.head?_cons, Parser.word]
    by_cases same : byte = first
    · rw [if_pos (by rw [same]), if_pos same]
      refine Ends.bind (advance_cons next) ?_
      rintro _ after ⟨-, step⟩
      exact ends_pure ⟨rfl, step⟩
    · rw [if_neg (fun equal => same (Option.some.inj equal).symm), if_neg same]
      exact ends_pure ⟨rfl, rfl⟩

theorem skipWhile_ends (p : UInt8 → Bool) (enough : r.remaining.length < rounds) :
    Ends (skipWhile p rounds) r fun _ after => r.Reaches (r.remaining.dropWhile p) after := by
  induction rounds generalizing r with
  | zero => cases enough
  | succ rounds ih =>
    rw [skipWhile]
    refine Ends.peeking ?_
    cases next : r.remaining with
    | nil =>
      refine ends_pure ?_
      rw [List.dropWhile_nil, ← next]
      exact Reaches.refl r
    | cons byte s =>
      rw [List.head?_cons, Option.any_some, List.dropWhile_cons]
      cases skipped : p byte with
      | true =>
        refine Ends.bind (advance_cons next) ?_
        rintro _ after ⟨-, step⟩
        rw [next, List.length_cons] at enough
        have later := ih (r := after) (by rw [step.remaining]; omega)
        rw [step.remaining] at later
        exact later.mono (fun _ _ reaches => step.trans reaches)
      | false =>
        refine ends_pure ?_
        rw [← next]
        exact Reaches.refl r

theorem name_ends (enough : r.remaining.length < rounds) :
    Ends (name rounds) r (Gives (Parser.name r.remaining) r) := by
  refine Ends.at ?_
  refine Ends.bind (skipWhile_ends isNameByte enough) ?_
  intro _ after reaches
  refine Ends.at ?_
  have whole : r.remaining = r.remaining.takeWhile isNameByte ++ r.remaining.dropWhile isNameByte :=
    List.takeWhile_append_dropWhile.symm
  have position := reaches.position_of_append whole
  rw [Parser.name]
  cases taken : r.remaining.takeWhile isNameByte with
  | nil =>
    rw [taken, List.nil_append] at whole
    have same : after = r := by
      refine reaches.unique ?_
      rw [← whole]
      exact Reaches.refl r
    rw [same, if_pos rfl]
    exact ends_pure ⟨rfl, rfl⟩
  | cons first others =>
    rw [taken] at whole position
    rw [List.length_cons] at position
    rw [if_neg (by omega)]
    refine Ends.bind (reaches.slice whole) ?_
    rintro _ _ ⟨rfl, rfl⟩
    exact ends_pure ⟨rfl, reaches⟩

theorem closeComment_ends {start : Reader} (reaches : start.Reaches r.remaining r)
    (enough : r.remaining.length < rounds) :
    Ends (closeComment start.cursor.position rounds) r (Finds (Parser.closeComment r.remaining) start) := by
  induction rounds generalizing r with
  | zero => cases enough
  | succ rounds ih =>
    rw [closeComment]
    refine (word_ends r _).finding ?_ ?_
    · intro rest after closed step
      cases next : r.remaining with
      | nil =>
        rw [next] at closed
        cases closed
      | cons byte s =>
        rw [next] at closed
        rw [Parser.closeComment, closed]
        exact ends_pure ⟨rfl, reaches.trans step⟩
    · intro unclosed
      cases next : r.remaining with
      | nil =>
        refine Ends.bind (advance_nil next) ?_
        rintro _ _ ⟨rfl, rfl⟩
        exact reaches.give_up ⟨rfl, rfl⟩
      | cons byte s =>
        rw [next] at unclosed
        rw [Parser.closeComment, unclosed]
        refine Ends.bind (advance_cons next) ?_
        rintro _ after ⟨rfl, step⟩
        rw [next, List.length_cons] at enough
        have later := ih (r := after) (by rw [step.remaining]; exact reaches.trans step) (by rw [step.remaining]; omega)
        rw [step.remaining] at later
        exact later

theorem comment_ends (enough : r.remaining.length ≤ rounds) :
    Ends (comment rounds) r (Finds (Parser.comment? r.remaining) r) := by
  rw [Parser.comment?]
  refine (word_ends r _).finding ?_ ?_
  · intro body after line step
    have total : r.remaining.length = 2 + body.length := Parser.length_word line
    have within : after.remaining.length < rounds := by
      rw [step.remaining]
      omega
    rw [line]
    refine Ends.bind (skipWhile_ends _ within) ?_
    intro _ last reaches
    rw [step.remaining] at reaches
    exact ends_pure ⟨rfl, step.trans reaches⟩
  · intro noLine
    rw [noLine]
    refine Ends.at ((word_ends r _).finding ?_ ?_)
    · intro body after block step
      have total : r.remaining.length = 2 + body.length := Parser.length_word block
      have closes : Ends (closeComment r.cursor.position rounds) after (Finds (Parser.closeComment after.remaining) r) :=
        closeComment_ends (by rwa [step.remaining]) (by rw [step.remaining]; omega)
      rw [step.remaining] at closes
      rw [block]
      exact closes
    · intro noBlock
      rw [noBlock]
      exact ends_pure ⟨rfl, rfl⟩

theorem space_ends (enough : r.remaining.length < rounds) :
    Ends (space rounds) r fun _ after => r.Reaches (Parser.blanks r.remaining) after := by
  induction rounds generalizing r with
  | zero => cases enough
  | succ rounds ih =>
    have again {after : Reader} {rest : Text} (step : r.Reaches rest after) (less : rest.length < r.remaining.length)
        (skipped : Parser.blanks r.remaining = Parser.blanks rest) :
        Ends (space rounds) after fun _ last => r.Reaches (Parser.blanks r.remaining) last := by
      have later := ih (r := after) (by rw [step.remaining]; omega)
      rw [step.remaining, ← skipped] at later
      exact later.mono (fun _ _ reaches => step.trans reaches)
    have stays (solid : Parser.Solid r.remaining) : r.Reaches (Parser.blanks r.remaining) r := by
      rw [solid]
      exact Reaches.refl r
    rw [space]
    refine Ends.peeking ?_
    cases next : r.remaining with
    | nil =>
      rw [next] at stays
      exact ends_pure (stays Parser.solid_nil)
    | cons byte s =>
      rw [next] at again stays
      rw [List.head?_cons]
      by_cases blank : isSpace byte = true
      · simp only [if_pos blank]
        refine Ends.bind (advance_cons next) ?_
        rintro _ after ⟨-, step⟩
        exact again step (Nat.lt_succ_self _) (Parser.blanks_space blank s)
      · simp only [if_neg blank]
        have finds := comment_ends (Nat.le_of_lt_succ enough)
        rw [next] at finds
        refine finds.finding ?_ ?_
        · intro rest after comment step
          exact again step (Parser.length_comment? comment) (Parser.comment_of_comment? comment).skipped
        · intro noComment
          exact ends_pure (stays (Parser.solid_of_comment? blank noComment))

theorem Reaches.within {start : Reader} {s : Text} (reaches : start.Reaches s r)
    (enough : start.remaining.length < rounds) : r.remaining.length < rounds := by
  rw [reaches.remaining]
  exact Nat.lt_of_le_of_lt reaches.shorter enough

theorem symbol_ends (enough : r.remaining.length < rounds) (w : Text) :
    Ends (symbol rounds w) r (Finds (Parser.symbol w r.remaining) r) := by
  rw [Parser.symbol]
  refine (word_ends r w).finding ?_ ?_
  · intro rest after read step
    rw [read]
    refine Ends.bind (space_ends (step.within enough)) ?_
    intro _ last reaches
    rw [step.remaining] at reaches
    exact ends_pure ⟨rfl, step.trans reaches⟩
  · intro missing
    rw [missing]
    exact ends_pure ⟨rfl, rfl⟩

theorem erasure_ends (enough : r.remaining.length < rounds) :
    Ends (erasure rounds) r fun erased after =>
      erased = (Parser.erasure r.remaining).1 ∧ r.Reaches (Parser.erasure r.remaining).2 after := by
  refine Ends.bind (space_ends enough) ?_
  intro _ after reaches
  have finds := optional_ends after 59
  rw [reaches.remaining, show [59] = ascii ";" from rfl] at finds
  rw [Parser.erasure]
  refine finds.finding ?_ ?_
  · intro rest next mark step
    rw [mark]
    refine Ends.bind (space_ends ((reaches.trans step).within enough)) ?_
    intro _ last onward
    rw [step.remaining] at onward
    exact ends_pure ⟨rfl, (reaches.trans step).trans onward⟩
  · intro noMark
    rw [noMark]
    refine Ends.bind (space_ends (reaches.within enough)) ?_
    intro _ last onward
    rw [reaches.remaining, Parser.blanks_blanks] at onward
    exact ends_pure ⟨rfl, reaches.trans onward⟩

end Reader

end SelfLambda
