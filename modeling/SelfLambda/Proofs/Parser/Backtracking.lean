import SelfLambda.Proofs.Parser.Reader

/-! Backtracking without a trace. The productions of the grammar as a reader works them off, each taking back itself what it
read in vain. From any place in any text and under any names a reader comes to an end, gives what the parser reads there,
and stands past it, or gives nothing and stands where it stood; the stack of names is as it was in every case. -/

namespace SelfLambda

open Text

namespace Reader

variable {α β : Type}

def required (act : Action Bool) : OptionT Action Unit := OptionT.mk do
  if ← act then return some () else return none

def needed (act : Action (Option α)) : OptionT Action α := OptionT.mk act

def always (act : Action α) : OptionT Action α := OptionT.lift act

def retreat (start : Nat) (act : Action (Option α)) : Action (Option α) := do
  match ← act with
  | some value => return some value
  | none =>
    revert start
    return none

def attempt (body : OptionT Action α) : Action (Option α) := do retreat (← position) body.run

def opened (rounds : Nat) (body : Action (Option α)) : Action (Option α) := do
  let start ← position
  if ← symbol rounds (ascii "(") then retreat start body else return none

def under (name : Name) (nested : Action (Option α)) : Action (Option α) := do
  push name
  let result ← nested
  pop
  return result

def selfName (rounds : Nat) : Action Name := do return (← name rounds).getD []

def functionType (rounds : Nat) (nested : Action (Option Term)) : Action (Option Term) := attempt do
  let self ← always (selfName rounds)
  required (symbol rounds (ascii "("))
  let param ← needed (name rounds)
  always (space rounds)
  required (symbol rounds (ascii ":"))
  let domain ← needed (under self nested)
  let erased ← always (erasure rounds)
  required (symbol rounds (ascii ")"))
  required (symbol rounds (ascii "->"))
  let codomain ← needed (under self (under param nested))
  return .all erased self param domain codomain

def function (rounds : Nat) (nested : Action (Option Term)) : Action (Option Term) := attempt do
  required (symbol rounds (ascii "("))
  let param ← needed (name rounds)
  let erased ← always (erasure rounds)
  required (symbol rounds (ascii ")"))
  required (symbol rounds (ascii "=>"))
  let body ← needed (under param nested)
  return .lam erased param body

def keyword : Action (Option Term) := do
  let start ← position
  if ← word (ascii "Type") then
    if (← peek).any isNameByte then
      revert start
      return none
    else return some .typ
  else return none

def named (rounds : Nat) : Action (Option Term) := do
  match ← name rounds with
  | some found => return some ((← get).names.resolve found)
  | none => return none

def group (rounds : Nat) (nested : Action (Option Term)) : Action (Option Term) := opened rounds do
  let t ← nested
  space rounds
  match t with
  | some t => if ← word (ascii ")") then return some t else return none
  | none => return none

def argument (rounds : Nat) (nested : Action (Option Term)) : Action (Option (Bool × Term)) :=
  opened rounds (OptionT.run do
    let arg ← needed nested
    let erased ← always (erasure rounds)
    required (word (ascii ")"))
    return (erased, arg))

def arguments (nested : Action (Option Term)) : Nat → Term → Option Term → Action (Option Term)
  | 0, _, _ => throw .outOfRounds
  | rounds + 1, fn, sofar => do
    match ← argument (rounds + 1) nested with
    | some (erased, arg) => arguments nested rounds (.app erased fn arg) (some (.app erased fn arg))
    | none => return sofar

def annotated (rounds : Nat) (nested : Action (Option Term)) (t : Term) : Action (Option Term) := attempt do
  always (space rounds)
  required (symbol rounds (ascii "::"))
  let type ← needed nested
  return .ann false type t

def orElse (first second : Action (Option α)) : Action (Option α) := do
  match ← first with
  | some value => return some value
  | none => second

def head (rounds : Nat) (nested : Action (Option Term)) : Action (Option Term) :=
  orElse (functionType rounds nested) <| orElse (function rounds nested) <| orElse keyword <|
    orElse (named rounds) (group rounds nested)

def level (rounds : Nat) (nested : Action (Option Term)) : Action (Option Term) := do
  match ← head rounds nested with
  | none => return none
  | some t =>
    let t := (← arguments nested rounds t none).getD t
    let t := (← annotated rounds nested t).getD t
    return some t

def term : Nat → Action (Option Term)
  | 0 => throw .outOfRounds
  | rounds + 1 => level (rounds + 1) (term rounds)

/-- A definition stands outside all binders: its reader has no names to start with. -/
def definition (rounds : Nat) (nested : Action (Option Term)) : Action (Option Definition) := attempt do
  let found ← needed (name rounds)
  always (space rounds)
  required (symbol rounds (ascii ":"))
  let type ← needed nested
  always (space rounds)
  let body ← needed nested
  return ⟨found, type, body⟩

/-- As `Gives`, but what failed may have left the reader farther on. -/
def Tries (read : Option (α × Text)) (before : Reader) (result : Option α) (after : Reader) : Prop :=
  match read with
  | some (value, rest) => result = some value ∧ before.Reaches rest after
  | none => result = none ∧ before.Reaches after.remaining after

variable {start r : Reader} {s : Text} {rounds : Nat}

theorem retreat_ends {body : Action (Option α)} {read : Option (α × Text)} (tries : Ends body r (Tries read start)) :
    Ends (retreat start.cursor.position body) r (Gives read start) := by
  refine Ends.bind tries ?_
  intro result after tried
  cases read with
  | some pair =>
    obtain ⟨rfl, reaches⟩ := tried
    exact ends_pure ⟨rfl, reaches⟩
  | none =>
    obtain ⟨rfl, reaches⟩ := tried
    exact reaches.give_up ⟨rfl, rfl⟩

theorem attempt_ends {body : OptionT Action α} {read : Option (α × Text)} (tries : Ends body.run r (Tries read r)) :
    Ends (attempt body) r (Gives read r) :=
  Ends.at (retreat_ends tries)

theorem opened_ends {body : Action (Option α)} {more : Text → Option (α × Text)}
    (enough : r.remaining.length < rounds)
    (inside : ∀ rest after, Parser.symbol (ascii "(") r.remaining = some rest → r.Reaches rest after →
      Ends body after (Tries (more rest) r)) :
    Ends (opened rounds body) r (Gives ((Parser.symbol (ascii "(") r.remaining).bind more) r) := by
  refine Ends.at ((symbol_ends enough _).finding ?_ ?_)
  · intro rest after read reaches
    rw [read, Option.bind_some]
    exact retreat_ends (inside rest after read reaches)
  · intro missing
    rw [missing]
    exact ends_pure ⟨rfl, rfl⟩

section Steps

variable {next : α → OptionT Action β} {more : α × Text → Option (β × Text)}

theorem step {act : OptionT Action α} {first : Option (α × Text)} (here : start.Reaches s r)
    (gives : Ends act.run r (Gives first r))
    (onward : ∀ value rest after, first = some (value, rest) → start.Reaches rest after →
      Ends (next value).run after (Tries (more (value, rest)) start)) :
    Ends (act >>= next).run r (Tries (first.bind more) start) := by
  rw [OptionT.run_bind]
  refine gives.giving ?_ ?_
  · intro value rest after read reaches
    rw [read]
    exact onward value rest after read (here.trans reaches)
  · intro failed
    rw [failed]
    exact ends_pure ⟨rfl, here.remaining ▸ here⟩

theorem step_required {act : Action Bool} {next : Unit → OptionT Action β} {left : Option Text}
    {more : Text → Option (β × Text)} (here : start.Reaches s r) (finds : Ends act r (Finds left r))
    (onward : ∀ rest after, left = some rest → start.Reaches rest after →
      Ends (next ()).run after (Tries (more rest) start)) :
    Ends (required act >>= next).run r (Tries (left.bind more) start) := by
  have gives : Ends (required act).run r (Gives (left.map fun rest => ((), rest)) r) := by
    refine finds.finding ?_ ?_
    · intro rest after read reaches
      rw [read]
      exact ends_pure ⟨rfl, reaches⟩
    · intro missing
      rw [missing]
      exact ends_pure ⟨rfl, rfl⟩
  have same : left.bind more = (left.map fun rest => ((), rest)).bind fun pair => more pair.2 := by
    rw [Option.bind_map]
    rfl
  rw [same]
  refine step here gives ?_
  intro _ rest after read reaches
  obtain ⟨_, found, whole⟩ := Option.map_eq_some_iff.mp read
  cases whole
  exact onward rest after found reaches

theorem step_always {act : Action α} {value : α} {rest : Text} {read : Option (β × Text)} (here : start.Reaches s r)
    (reads : Ends act r fun result after => result = value ∧ r.Reaches rest after)
    (onward : ∀ after, start.Reaches rest after → Ends (next value).run after (Tries read start)) :
    Ends (always act >>= next).run r (Tries read start) := by
  have passes : Ends (always act).run r fun result after => result = some value ∧ r.Reaches rest after := by
    rw [always, OptionT.run_lift]
    refine Ends.bind reads ?_
    rintro _ after ⟨rfl, reaches⟩
    exact ends_pure ⟨rfl, reaches⟩
  rw [OptionT.run_bind]
  refine Ends.bind passes ?_
  rintro _ after ⟨rfl, reaches⟩
  exact onward after (here.trans reaches)

theorem step_symbol {next : Unit → OptionT Action β} {more : Text → Option (β × Text)} {w : Text}
    (here : start.Reaches s r) (enough : start.remaining.length < rounds)
    (onward : ∀ rest after, Parser.symbol w s = some rest → start.Reaches rest after →
      Ends (next ()).run after (Tries (more rest) start)) :
    Ends (required (symbol rounds w) >>= next).run r (Tries ((Parser.symbol w s).bind more) start) := by
  have finds := symbol_ends (here.within enough) w
  rw [here.remaining] at finds
  exact step_required here finds onward

theorem step_name {next : Name → OptionT Action β} {more : Name × Text → Option (β × Text)}
    (here : start.Reaches s r) (enough : start.remaining.length < rounds)
    (onward : ∀ found rest after, Parser.name s = some (found, rest) → start.Reaches rest after →
      Ends (next found).run after (Tries (more (found, rest)) start)) :
    Ends (needed (name rounds) >>= next).run r (Tries ((Parser.name s).bind more) start) := by
  have gives := name_ends (here.within enough)
  rw [here.remaining] at gives
  exact step here gives onward

theorem step_space {next : Unit → OptionT Action β} {read : Option (β × Text)} (here : start.Reaches s r)
    (enough : start.remaining.length < rounds)
    (onward : ∀ after, start.Reaches (Parser.blanks s) after → Ends (next ()).run after (Tries read start)) :
    Ends (always (space rounds) >>= next).run r (Tries read start) := by
  have passes := space_ends (here.within enough)
  rw [here.remaining] at passes
  exact step_always here (passes.mono fun _ _ reaches => ⟨rfl, reaches⟩) onward

theorem step_erasure {next : Bool → OptionT Action β} {read : Option (β × Text)} (here : start.Reaches s r)
    (enough : start.remaining.length < rounds)
    (onward : ∀ after, start.Reaches (Parser.erasure s).2 after →
      Ends (next (Parser.erasure s).1).run after (Tries read start)) :
    Ends (always (erasure rounds) >>= next).run r (Tries read start) := by
  have passes := erasure_ends (here.within enough)
  rw [here.remaining] at passes
  exact step_always here passes onward

end Steps

theorem selfName_ends (enough : r.remaining.length < rounds) :
    Ends (selfName rounds) r fun self after =>
      self = ((Parser.name r.remaining).getD ([], r.remaining)).1 ∧
        r.Reaches ((Parser.name r.remaining).getD ([], r.remaining)).2 after := by
  refine (name_ends enough).giving ?_ ?_
  · intro self rest after read reaches
    rw [read]
    exact ends_pure ⟨rfl, reaches⟩
  · intro missing
    rw [missing]
    exact ends_pure ⟨rfl, Reaches.refl r⟩

/-- On texts of fewer than `bound` bytes, and from whatever names and place, the action gives what the parser reads. -/
def Mirrors (bound : Nat) (act : Action (Option Term)) (p : Scope → Parser Term) : Prop :=
  ∀ r : Reader, r.remaining.length < bound → Ends act r (Gives (p r.names r.remaining) r)

def pushed (r : Reader) (name : Name) : Reader := { r with names := name :: r.names }

theorem Reaches.push (here : start.Reaches s r) (name : Name) : (start.pushed name).Reaches s (r.pushed name) :=
  ⟨congrArg (name :: ·) here.names, here.text, here.remaining, here.shorter, here.position⟩

theorem under_ends {act : Action (Option α)} {read : Option (α × Text)} {name : Name}
    (inside : Ends act (r.pushed name) (Gives read (r.pushed name))) : Ends (under name act) r (Gives read r) := by
  have pops {after : Reader} {rest : Text} (reaches : (r.pushed name).Reaches rest after) :
      Ends pop after fun _ last => r.Reaches rest last := by
    refine ⟨(), { after with names := r.names }, ?_, rfl, reaches.text, reaches.remaining, reaches.shorter,
      reaches.position⟩
    show pop after = _
    rw [pop, reaches.names]
    rfl
  have pushes : Ends (push name) r fun _ after => after = r.pushed name := ⟨(), r.pushed name, rfl, rfl⟩
  refine Ends.bind pushes ?_
  rintro _ _ rfl
  refine inside.giving ?_ ?_
  · intro value rest after read reaches
    rw [read]
    exact Ends.bind (pops reaches) (fun _ _ reaches => ends_pure ⟨rfl, reaches⟩)
  · intro failed
    rw [failed]
    refine Ends.bind (pops (Reaches.refl _)) ?_
    intro _ last reaches
    exact ends_pure ⟨rfl, reaches.unique (Reaches.refl r)⟩

namespace Mirrors

variable {bound : Nat} {nested : Action (Option Term)} {p : Scope → Parser Term}

theorem here (mirrors : Mirrors bound nested p) (here : start.Reaches s r) (short : s.length < bound) :
    Ends nested r (Gives (p start.names s) r) := by
  have gives := mirrors r (by rwa [here.remaining])
  rwa [here.remaining, here.names] at gives

theorem functionType (mirrors : Mirrors bound nested p) (shortens : Parser.Shortens bound p)
    (within : r.remaining.length ≤ bound) (enough : r.remaining.length < rounds) :
    Ends (functionType rounds nested) r (Gives (Parser.functionType p r.names r.remaining) r) := by
  simp only [Parser.functionType, Option.bind_eq_bind, Option.pure_def]
  apply attempt_ends
  refine step_always (Reaches.refl r) (selfName_ends enough) ?_
  intro r0 here
  have l0 := here.shorter
  refine step_symbol here enough ?_
  intro s1 r1 opened here
  have l1 : s1.length + 1 ≤ _ := Parser.length_symbol opened
  refine step_name here enough ?_
  intro param s2 r2 named here
  have l2 := (Parser.name_eq_some_iff.mp named).length_lt
  refine step_space here enough ?_
  intro r3 here
  have l3 := Parser.length_blanks_le s2
  refine step_symbol here enough ?_
  intro s4 r4 colon here
  have l4 : s4.length + 1 ≤ (Parser.blanks s2).length := Parser.length_symbol colon
  refine step here (under_ends (mirrors.here (here.push _) (by omega))) ?_
  intro domain s5 r5 domainRead here
  have l5 := shortens domainRead (by omega)
  refine step_erasure here enough ?_
  intro r6 here
  have l6 := Parser.length_erasure_le s5
  refine step_symbol here enough ?_
  intro s7 r7 closed here
  have l7 : s7.length + 1 ≤ (Parser.erasure s5).2.length := Parser.length_symbol closed
  refine step_symbol here enough ?_
  intro s8 r8 arrow here
  have l8 := Parser.length_symbol arrow
  refine step here (under_ends (under_ends (mirrors.here ((here.push _).push _) (by omega)))) ?_
  intro codomain s9 r9 _ here
  exact ends_pure ⟨rfl, here⟩

theorem function (mirrors : Mirrors bound nested p) (within : r.remaining.length ≤ bound)
    (enough : r.remaining.length < rounds) :
    Ends (function rounds nested) r (Gives (Parser.function p r.names r.remaining) r) := by
  simp only [Parser.function, Option.bind_eq_bind, Option.pure_def]
  apply attempt_ends
  refine step_symbol (Reaches.refl r) enough ?_
  intro s1 r1 opened here
  have l1 : s1.length + 1 ≤ _ := Parser.length_symbol opened
  refine step_name here enough ?_
  intro param s2 r2 named here
  have l2 := (Parser.name_eq_some_iff.mp named).length_lt
  refine step_erasure here enough ?_
  intro r3 here
  have l3 := Parser.length_erasure_le s2
  refine step_symbol here enough ?_
  intro s4 r4 closed here
  have l4 : s4.length + 1 ≤ (Parser.erasure s2).2.length := Parser.length_symbol closed
  refine step_symbol here enough ?_
  intro s5 r5 maps here
  have l5 := Parser.length_symbol maps
  refine step here (under_ends (mirrors.here (here.push _) (by omega))) ?_
  intro body s6 r6 _ here
  exact ends_pure ⟨rfl, here⟩

theorem group (mirrors : Mirrors bound nested p) (within : r.remaining.length ≤ bound)
    (enough : r.remaining.length < rounds) :
    Ends (group rounds nested) r (Gives (Parser.group p r.names r.remaining) r) := by
  simp only [Parser.group, Option.bind_eq_bind, Option.pure_def]
  apply opened_ends enough
  intro s1 r1 opened here
  have l1 : s1.length + 1 ≤ _ := Parser.length_symbol opened
  refine (mirrors.here here (by omega)).giving ?_ ?_
  · intro t s2 r2 read reaches
    have here := here.trans reaches
    refine Ends.bind (space_ends (here.within enough)) ?_
    intro _ r3 reaches
    rw [here.remaining] at reaches
    have here := here.trans reaches
    have finds := word_ends r3 (ascii ")")
    rw [here.remaining] at finds
    rw [read, Option.bind_some]
    refine finds.finding ?_ ?_
    · intro rest r4 closed reaches
      rw [closed]
      exact ends_pure ⟨rfl, here.trans reaches⟩
    · intro unclosed
      rw [unclosed]
      exact ends_pure ⟨rfl, here.remaining ▸ here⟩
  · intro failed
    -- blanks are passed even after a failure, and are given back with the parenthesis
    refine Ends.bind (space_ends (here.within enough)) ?_
    intro _ r3 reaches
    have there := here.trans reaches
    rw [failed]
    exact ends_pure ⟨rfl, there.remaining ▸ there⟩

theorem argument (mirrors : Mirrors bound nested p) (within : r.remaining.length ≤ bound)
    (enough : r.remaining.length < rounds) :
    Ends (argument rounds nested) r (Gives (Parser.argument p r.names r.remaining) r) := by
  simp only [Parser.argument, Option.bind_eq_bind, Option.pure_def]
  apply opened_ends enough
  intro s1 r1 opened here
  have l1 : s1.length + 1 ≤ _ := Parser.length_symbol opened
  refine step here (mirrors.here here (by omega)) ?_
  intro arg s2 r2 _ here
  refine step_erasure here enough ?_
  intro r3 here
  refine step_required here (here.remaining ▸ word_ends r3 _) ?_
  intro rest r4 closed here
  exact ends_pure ⟨rfl, here⟩

theorem annotated (mirrors : Mirrors bound nested p) (within : r.remaining.length ≤ bound)
    (enough : r.remaining.length < rounds) (t : Term) :
    Ends (annotated rounds nested t) r (Gives (Parser.annotated p r.names t r.remaining) r) := by
  simp only [Parser.annotated, Option.bind_eq_bind, Option.pure_def]
  apply attempt_ends
  refine step_space (Reaches.refl r) enough ?_
  intro r1 here
  have l1 := here.shorter
  refine step_symbol here enough ?_
  intro s2 r2 sign here
  have l2 : s2.length + 2 ≤ _ := Parser.length_symbol sign
  refine step here (mirrors.here here (by omega)) ?_
  intro type s3 r3 _ here
  exact ends_pure ⟨rfl, here⟩

end Mirrors

theorem keyword_ends (r : Reader) : Ends keyword r (Gives (Parser.keyword r.remaining) r) := by
  simp only [Parser.keyword, Option.bind_eq_bind]
  refine Ends.at ((word_ends r _).finding ?_ ?_)
  · intro rest after read reaches
    rw [read, Option.bind_some, ← reaches.remaining]
    refine Ends.peeking ?_
    by_cases more : after.remaining.head?.any isNameByte = true
    · rw [if_pos more, if_pos more]
      exact reaches.give_up ⟨rfl, rfl⟩
    · rw [if_neg more, if_neg more]
      exact ends_pure ⟨rfl, reaches.remaining ▸ reaches⟩
  · intro missing
    rw [missing]
    exact ends_pure ⟨rfl, rfl⟩

theorem named_ends (enough : r.remaining.length < rounds) :
    Ends (named rounds) r (Gives (Parser.named r.names r.remaining) r) := by
  simp only [Parser.named, Option.bind_eq_bind, Option.pure_def]
  refine (name_ends enough).giving ?_ ?_
  · intro found rest after read reaches
    refine ⟨_, after, rfl, ?_⟩
    rw [read, reaches.names]
    exact ⟨rfl, reaches⟩
  · intro missing
    rw [missing]
    exact ends_pure ⟨rfl, rfl⟩

theorem orElse_ends {first second : Action (Option α)} {x y : Option (α × Text)} (firstEnds : Ends first r (Gives x r))
    (secondEnds : Ends second r (Gives y r)) : Ends (orElse first second) r (Gives (x <|> y) r) := by
  refine firstEnds.giving ?_ ?_
  · intro value rest after read reaches
    rw [read]
    exact ends_pure ⟨rfl, reaches⟩
  · intro failed
    rw [failed]
    exact secondEnds

end Reader

namespace Parser

def application (nested : Scope → Parser Term) (scope : Scope) (fn : Term) : Parser Term := fun s =>
  (argument nested scope s).map fun _ => arguments nested scope s.length fn s

theorem arguments_of_argument {nested : Scope → Parser Term} {scope : Scope} {s mid : Text} {erased : Bool} {arg : Term}
    (found : argument nested scope s = some ((erased, arg), mid)) (count : Nat) (fn : Term) :
    arguments nested scope (count + 1) fn s = arguments nested scope count (.app erased fn arg) mid := by
  rw [arguments, found]

end Parser

namespace Reader

namespace Mirrors

variable {bound : Nat} {nested : Action (Option Term)} {p : Scope → Parser Term} {r : Reader} {rounds : Nat}

theorem head (mirrors : Mirrors bound nested p) (shortens : Parser.Shortens bound p)
    (within : r.remaining.length ≤ bound) (enough : r.remaining.length < rounds) :
    Ends (head rounds nested) r (Gives (Parser.head p r.names r.remaining) r) :=
  orElse_ends (mirrors.functionType shortens within enough) <| orElse_ends (mirrors.function within enough) <|
    orElse_ends (keyword_ends r) <| orElse_ends (named_ends enough) (mirrors.group within enough)

/-- The loop gives the last application; only if there is no argument at all it gives what it was given. -/
theorem arguments_loop (mirrors : Mirrors bound nested p) (shortens : Parser.Shortens bound p)
    (within : r.remaining.length ≤ bound) (enough : r.remaining.length < rounds) (count : Nat)
    (all : r.remaining.length ≤ count) (fn : Term) (sofar : Option Term) :
    Ends (arguments nested rounds fn sofar) r fun result after =>
      result = (if (Parser.argument p r.names r.remaining).isSome then
        some (Parser.arguments p r.names count fn r.remaining).1 else sofar) ∧
        r.Reaches (Parser.arguments p r.names count fn r.remaining).2 after := by
  induction rounds generalizing r count fn sofar with
  | zero => cases enough
  | succ rounds ih =>
    rw [arguments]
    refine (mirrors.argument within enough).giving ?_ ?_
    · rintro ⟨erased, arg⟩ rest after read reaches
      have shorter := Parser.length_argument shortens read within
      rw [← reaches.remaining] at shorter
      cases count with
      | zero => omega
      | succ count =>
        refine (ih (by omega) (by omega) count (by omega) (.app erased fn arg) (some (.app erased fn arg))).mono ?_
        rintro _ last ⟨rfl, onward⟩
        rw [reaches.names, reaches.remaining] at onward
        rw [reaches.names, reaches.remaining, Parser.arguments_of_argument read, read]
        refine ⟨?_, reaches.trans onward⟩
        -- without a further argument the last application is this one
        cases further : Parser.argument p r.names rest with
        | none =>
          rw [Parser.arguments_of_argument_eq_none further]
          rfl
        | some pair => rfl
    · intro missing
      rw [Parser.arguments_of_argument_eq_none missing, missing]
      exact ends_pure ⟨rfl, Reaches.refl r⟩

theorem arguments (mirrors : Mirrors bound nested p) (shortens : Parser.Shortens bound p)
    (within : r.remaining.length ≤ bound) (enough : r.remaining.length < rounds) (fn : Term) :
    Ends (arguments nested rounds fn none) r (Gives (Parser.application p r.names fn r.remaining) r) := by
  refine (mirrors.arguments_loop shortens within enough _ (Nat.le_refl _) fn none).mono ?_
  rintro _ after ⟨rfl, reaches⟩
  rw [Parser.application]
  cases read : Parser.argument p r.names r.remaining with
  | none =>
    rw [Parser.arguments_of_argument_eq_none read] at reaches
    exact ⟨rfl, reaches.unique (Reaches.refl r)⟩
  | some pair => exact ⟨rfl, reaches⟩

theorem arguments_getD (mirrors : Mirrors bound nested p) (shortens : Parser.Shortens bound p)
    (within : r.remaining.length ≤ bound) (enough : r.remaining.length < rounds) (fn : Term) :
    Ends (Reader.arguments nested rounds fn none) r fun result after =>
      result.getD fn = (Parser.arguments p r.names r.remaining.length fn r.remaining).1 ∧
        r.Reaches (Parser.arguments p r.names r.remaining.length fn r.remaining).2 after := by
  refine (mirrors.arguments_loop shortens within enough _ (Nat.le_refl _) fn none).mono ?_
  rintro _ after ⟨rfl, reaches⟩
  refine ⟨?_, reaches⟩
  cases read : Parser.argument p r.names r.remaining with
  | none =>
    rw [Parser.arguments_of_argument_eq_none read]
    rfl
  | some pair => rfl

theorem level (mirrors : Mirrors bound nested p) (shortens : Parser.Shortens bound p)
    (within : r.remaining.length ≤ bound) (enough : r.remaining.length < rounds) :
    Ends (level rounds nested) r (Gives (Parser.level p r.names r.remaining) r) := by
  simp only [Parser.level, Option.bind_eq_bind, Option.pure_def]
  refine (mirrors.head shortens within enough).giving ?_ ?_
  · intro t mid r1 read here
    have midLe : r1.remaining.length ≤ bound := Nat.le_trans (here.remaining ▸ here.shorter) within
    have applies := mirrors.arguments_getD shortens midLe (here.within enough) t
    rw [here.names, here.remaining] at applies
    rw [read, Option.bind_some]
    cases applied : Parser.arguments p r.names mid.length t mid with
    | mk fn rest =>
    rw [applied] at applies
    refine Ends.bind applies ?_
    rintro result r2 ⟨rfl, reaches⟩
    have here := here.trans reaches
    have restLe : r2.remaining.length ≤ bound := Nat.le_trans (here.remaining ▸ here.shorter) within
    have suffix := mirrors.annotated restLe (here.within enough) (result.getD t)
    rw [here.names, here.remaining] at suffix
    refine suffix.giving ?_ ?_
    · intro annotation last r3 sign reaches
      rw [sign]
      exact ends_pure ⟨rfl, here.trans reaches⟩
    · intro noSign
      rw [noSign]
      exact ends_pure ⟨rfl, here⟩
  · intro failed
    rw [failed]
    exact ends_pure ⟨rfl, rfl⟩

end Mirrors

theorem term_mirrors {bound rounds depth : Nat} (enough : bound ≤ rounds) (deep : bound ≤ depth) :
    Mirrors bound (term rounds) (Parser.termWithin depth) := by
  -- on the bytes left: an attempt that fails gives its bytes back, but each asks for a term only after its first byte
  induction bound generalizing rounds depth with
  | zero =>
    intro r short
    cases short
  | succ bound ih =>
    cases rounds with
    | zero => cases enough
    | succ rounds =>
      cases depth with
      | zero => cases deep
      | succ depth =>
        have enough := Nat.le_of_succ_le_succ enough
        have deep := Nat.le_of_succ_le_succ deep
        have shortens := ((Parser.readsTerms bound).sound depth deep).shortens
        intro r short
        exact (ih enough deep).level shortens (Nat.le_of_lt_succ short) (by omega)

theorem mirrors_term (rounds : Nat) : Mirrors rounds (term rounds) Parser.term :=
  fun r short => term_mirrors short (Nat.le_refl _) r (Nat.lt_succ_self _)

theorem definition_ends (enough : r.remaining.length < rounds) (fresh : r.names = []) :
    Ends (definition rounds (term rounds)) r (Gives (Parser.definition r.remaining) r) := by
  have mirrors := mirrors_term rounds
  simp only [Parser.definition, Option.bind_eq_bind, Option.pure_def, ← fresh]
  apply attempt_ends
  refine step_name (Reaches.refl r) enough ?_
  intro found s1 r1 _ here
  refine step_space here enough ?_
  intro r2 here
  refine step_symbol here enough ?_
  intro s3 r3 _ here
  refine step here (mirrors.here here (Nat.lt_of_le_of_lt here.shorter enough)) ?_
  intro type s4 r4 _ here
  refine step_space here enough ?_
  intro r5 here
  refine step here (mirrors.here here (Nat.lt_of_le_of_lt here.shorter enough)) ?_
  intro body s6 r6 _ here
  exact ends_pure ⟨rfl, here⟩

end Reader

end SelfLambda
