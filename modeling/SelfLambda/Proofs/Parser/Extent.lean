import SelfLambda.Proofs.Parser.Inverse

/-! How far the parser reads. Names decide what a term means but not where it ends, and once there is a round for every
byte more rounds change nothing: two readings of one text, in whatever scopes, fail together or leave the same text. -/

namespace SelfLambda.Parser

open Text

def SameExtent {α β : Type} (x : Option (α × Text)) (y : Option (β × Text)) : Prop := x.map Prod.snd = y.map Prod.snd

namespace SameExtent

variable {α β γ δ : Type} {x : Option (α × Text)} {y : Option (β × Text)}

theorem cases (same : SameExtent x y) : (x = none ∧ y = none) ∨ ∃ a b rest, x = some (a, rest) ∧ y = some (b, rest) := by
  unfold SameExtent at same
  match x, y with
  | none, none => exact .inl ⟨rfl, rfl⟩
  | none, some _ => cases same
  | some _, none => cases same
  | some (a, rest), some (b, rest') =>
    cases same
    exact .inr ⟨a, b, rest, rfl, rfl⟩

theorem eq_none (same : SameExtent x y) (failed : x = none) : y = none := by
  rcases same.cases with ⟨-, failed'⟩ | ⟨a, b, rest, found, -⟩
  · exact failed'
  · rw [failed] at found
    cases found

theorem bind {next : α × Text → Option (γ × Text)} {next' : β × Text → Option (δ × Text)} (first : SameExtent x y)
    (second : ∀ a b rest, x = some (a, rest) → SameExtent (next (a, rest)) (next' (b, rest))) :
    SameExtent (x.bind next) (y.bind next') := by
  rcases first.cases with ⟨rfl, rfl⟩ | ⟨a, b, rest, rfl, rfl⟩
  · rfl
  · exact second a b rest rfl

theorem after {ε : Type} {step : Option ε} {next : ε → Option (γ × Text)} {next' : ε → Option (δ × Text)}
    (rest : ∀ e, step = some e → SameExtent (next e) (next' e)) : SameExtent (step.bind next) (step.bind next') := by
  cases step with
  | none => rfl
  | some e => exact rest e rfl

theorem orElse {x' : Option (α × Text)} {y' : Option (β × Text)} (first : SameExtent x y) (second : SameExtent x' y') :
    SameExtent (x <|> x') (y <|> y') := by
  rcases first.cases with ⟨rfl, rfl⟩ | ⟨a, b, rest, rfl, rfl⟩
  · exact second
  · rfl

end SameExtent

def Alike (bound : Nat) (nested nested' : Scope → Parser Term) : Prop :=
  ∀ (scope scope' : Scope) (s : Text), s.length < bound → SameExtent (nested scope s) (nested' scope' s)

def Shortens (bound : Nat) (nested : Scope → Parser Term) : Prop :=
  ∀ ⦃scope : Scope⦄ ⦃s rest : Text⦄ ⦃t : Term⦄, nested scope s = some (t, rest) → s.length < bound →
    rest.length < s.length

namespace Alike

variable {bound : Nat} {nested nested' : Scope → Parser Term} {scope scope' : Scope} {s : Text}

theorem functionType (alike : Alike bound nested nested') (shortens : Shortens bound nested) (within : s.length ≤ bound) :
    SameExtent (functionType nested scope s) (functionType nested' scope' s) := by
  have startLe : ((Parser.name s).getD ([], s)).2.length ≤ s.length := by
    cases named : Parser.name s with
    | none => exact Nat.le_refl _
    | some pair => exact Nat.le_of_lt (name_eq_some_iff.mp named).length_lt
  simp only [Parser.functionType, Option.bind_eq_bind, Option.pure_def]
  apply SameExtent.after
  intro s1 opened
  apply SameExtent.after
  rintro ⟨param, s2⟩ named
  apply SameExtent.after
  intro s3 colon
  have l1 : s1.length + 1 ≤ _ := length_symbol opened
  have l2 := (name_eq_some_iff.mp named).length_lt
  have l3 : s3.length + 1 ≤ (blanks s2).length := length_symbol colon
  have l4 := length_blanks_le s2
  apply SameExtent.bind (alike _ _ s3 (by omega))
  intro domain domain' s4 domainRead
  have l5 := shortens domainRead (by omega)
  apply SameExtent.after
  intro s5 closed
  apply SameExtent.after
  intro s6 arrow
  have l6 : s5.length + 1 ≤ (erasure s4).2.length := length_symbol closed
  have l7 := length_erasure_le s4
  have l8 := length_symbol arrow
  apply SameExtent.bind (alike _ _ s6 (by omega))
  intro codomain codomain' s7 _
  rfl

theorem function (alike : Alike bound nested nested') (within : s.length ≤ bound) :
    SameExtent (function nested scope s) (function nested' scope' s) := by
  simp only [Parser.function, Option.bind_eq_bind, Option.pure_def]
  apply SameExtent.after
  intro s1 opened
  apply SameExtent.after
  rintro ⟨param, s2⟩ named
  apply SameExtent.after
  intro s3 closed
  apply SameExtent.after
  intro s4 maps
  have l1 := length_symbol opened
  have l2 := (name_eq_some_iff.mp named).length_lt
  have l3 : s3.length + 1 ≤ (erasure s2).2.length := length_symbol closed
  have l4 := length_erasure_le s2
  have l5 := length_symbol maps
  apply SameExtent.bind (alike _ _ s4 (by omega))
  intro body body' s5 _
  rfl

theorem group (alike : Alike bound nested nested') (within : s.length ≤ bound) :
    SameExtent (group nested scope s) (group nested' scope' s) := by
  simp only [Parser.group, Option.bind_eq_bind, Option.pure_def]
  apply SameExtent.after
  intro s1 opened
  have l1 : s1.length + 1 ≤ s.length := length_symbol opened
  apply SameExtent.bind (alike _ _ s1 (by omega))
  intro t t' s2 _
  exact SameExtent.after (fun _ _ => rfl)

theorem argument (alike : Alike bound nested nested') (within : s.length ≤ bound) :
    SameExtent (argument nested scope s) (argument nested' scope' s) := by
  simp only [Parser.argument, Option.bind_eq_bind, Option.pure_def]
  apply SameExtent.after
  intro s1 opened
  have l1 : s1.length + 1 ≤ s.length := length_symbol opened
  apply SameExtent.bind (alike _ _ s1 (by omega))
  intro arg arg' s2 _
  exact SameExtent.after (fun _ _ => rfl)

theorem annotated (alike : Alike bound nested nested') (within : s.length ≤ bound) (t t' : Term) :
    SameExtent (annotated nested scope t s) (annotated nested' scope' t' s) := by
  simp only [Parser.annotated, Option.bind_eq_bind, Option.pure_def]
  apply SameExtent.after
  intro s1 sign
  have l1 : s1.length + 2 ≤ (blanks s).length := length_symbol sign
  have l2 := length_blanks_le s
  apply SameExtent.bind (alike _ _ s1 (by omega))
  intro type type' s2 _
  rfl

theorem head (alike : Alike bound nested nested') (shortens : Shortens bound nested) (within : s.length ≤ bound) :
    SameExtent (head nested scope s) (head nested' scope' s) := by
  apply (alike.functionType shortens within).orElse
  apply (alike.function within).orElse
  apply SameExtent.orElse rfl
  refine SameExtent.orElse ?_ (alike.group within)
  exact SameExtent.after (fun _ _ => rfl)

end Alike

theorem length_argument {nested : Scope → Parser Term} {bound : Nat} (shortens : Shortens bound nested) {scope : Scope}
    {s rest : Text} {result : Bool × Term} (found : argument nested scope s = some (result, rest))
    (within : s.length ≤ bound) : rest.length < s.length := by
  simp only [argument, Option.bind_eq_bind, Option.bind_eq_some_iff, Option.pure_def, Prod.exists] at found
  obtain ⟨s1, opened, arg, s2, argRead, s3, closed, whole⟩ := found
  cases whole
  have l1 : s1.length + 1 ≤ s.length := length_symbol opened
  have l2 := shortens argRead (by omega)
  have l3 := length_erasure_le s2
  have l4 := length_word closed
  omega

theorem Alike.arguments {bound : Nat} {nested nested' : Scope → Parser Term} (alike : Alike bound nested nested')
    (shortens : Shortens bound nested) (scope scope' : Scope) (count : Nat) {s : Text} (within : s.length ≤ bound)
    (fn fn' : Term) : (arguments nested scope count fn s).2 = (arguments nested' scope' count fn' s).2 := by
  induction count generalizing s fn fn' with
  | zero => rfl
  | succ count ih =>
    have next : SameExtent (Parser.argument nested scope s) (Parser.argument nested' scope' s) := alike.argument within
    rcases next.cases with ⟨missing, missing'⟩ | ⟨arg, arg', rest, found, found'⟩
    · rw [Parser.arguments, missing, Parser.arguments, missing']
    · have shorter := length_argument shortens found within
      rw [Parser.arguments, found, Parser.arguments, found']
      exact ih (by omega) _ _

theorem length_arguments_le {bound : Nat} {nested : Scope → Parser Term} (shortens : Shortens bound nested)
    (scope : Scope) (count : Nat) {s : Text} (within : s.length ≤ bound) (fn : Term) :
    (arguments nested scope count fn s).2.length ≤ s.length := by
  induction count generalizing s fn with
  | zero => exact Nat.le_refl _
  | succ count ih =>
    rw [arguments]
    split
    next found =>
      have shorter := length_argument shortens found within
      exact Nat.le_trans (ih (by omega) _) (Nat.le_of_lt shorter)
    next => exact Nat.le_refl _

theorem Alike.level {bound : Nat} {nested nested' : Scope → Parser Term} (alike : Alike bound nested nested')
    (shortens : Shortens bound nested) (headShortens : Shortens (bound + 1) (Parser.head nested)) :
    Alike (bound + 1) (level nested) (level nested') := by
  intro scope scope' s within
  have within := Nat.le_of_lt_succ within
  simp only [Parser.level, Option.bind_eq_bind, Option.pure_def]
  apply SameExtent.bind (alike.head shortens within)
  intro first first' mid headRead
  have midLt := headShortens headRead (Nat.lt_succ_of_le within)
  have midLe : mid.length ≤ bound := by omega
  have same := alike.arguments shortens scope scope' mid.length midLe first first'
  have shorter := length_arguments_le shortens scope mid.length midLe first
  cases applied : Parser.arguments nested scope mid.length first mid with
  | mk fn rest =>
  cases applied' : Parser.arguments nested' scope' mid.length first' mid with
  | mk fn' rest' =>
  rw [applied, applied'] at same
  rw [applied] at shorter
  obtain rfl : rest = rest' := same
  have restLe : rest.length ≤ bound := Nat.le_trans shorter midLe
  have suffix : SameExtent (Parser.annotated nested scope fn rest) (Parser.annotated nested' scope' fn' rest) :=
    alike.annotated restLe fn fn'
  rcases suffix.cases with ⟨missing, missing'⟩ | ⟨t, t', last, found, found'⟩
  · simp [SameExtent, missing, missing']
  · simp [SameExtent, found, found']

/-- Arguments are taken as long as there are any: no more than one a byte can follow. -/
theorem argument_arguments_eq_none {bound : Nat} {nested : Scope → Parser Term} (shortens : Shortens bound nested)
    (scope : Scope) (count : Nat) {s : Text} (within : s.length ≤ bound) (enough : s.length ≤ count) (fn : Term) :
    argument nested scope (arguments nested scope count fn s).2 = none := by
  induction count generalizing s fn with
  | zero =>
    obtain rfl : s = [] := List.eq_nil_of_length_eq_zero (Nat.le_zero.mp enough)
    rfl
  | succ count ih =>
    rw [arguments]
    split
    next found =>
      have shorter := length_argument shortens found within
      exact ih (by omega) (by omega) _
    next missing => exact missing

/-- Where a term ends that `reader` has read, `nested` finds neither an argument nor an annotation, in any scope. -/
def Exhausts (bound : Nat) (reader nested : Scope → Parser Term) : Prop :=
  ∀ ⦃scope : Scope⦄ ⦃s rest : Text⦄ ⦃t : Term⦄, reader scope s = some (t, rest) → s.length < bound →
    ∀ scope', argument nested scope' rest = none ∧ ∀ u, annotated nested scope' u rest = none

theorem Exhausts.level {bound : Nat} {nested nested' : Scope → Parser Term} (alike : Alike bound nested nested')
    (shortens : Shortens bound nested) (headShortens : Shortens (bound + 1) (Parser.head nested))
    (exhausts : Exhausts bound nested nested') : Exhausts (bound + 1) (level nested) nested' := by
  intro scope s rest t found within scope'
  simp only [Parser.level, Option.bind_eq_bind, Option.bind_eq_some_iff, Option.pure_def, Prod.exists,
    Option.some.injEq] at found
  obtain ⟨first, mid, headRead, found⟩ := found
  have midLt := headShortens headRead within
  have midLe : mid.length ≤ bound := by omega
  have shorter := length_arguments_le shortens scope mid.length midLe first
  have noMore := argument_arguments_eq_none shortens scope mid.length midLe (Nat.le_refl _) first
  cases applied : arguments nested scope mid.length first mid with
  | mk fn r =>
  rw [applied] at found shorter noMore
  have within' : r.length ≤ bound := Nat.le_trans shorter midLe
  cases suffix : annotated nested scope fn r with
  | none =>
    simp only [suffix, Option.getD_none, Prod.mk.injEq] at found
    obtain ⟨rfl, rfl⟩ := found
    exact ⟨(alike.argument within').eq_none noMore, fun u => (alike.annotated within' fn u).eq_none suffix⟩
  | some pair =>
    rw [suffix] at found
    cases found
    simp only [annotated, Option.bind_eq_bind, Option.bind_eq_some_iff, Option.pure_def, Prod.exists] at suffix
    obtain ⟨s1, sign, type, s2, typeRead, whole⟩ := suffix
    cases whole
    have l1 : s1.length + 2 ≤ (blanks r).length := length_symbol sign
    have l2 := length_blanks_le r
    exact exhausts typeRead (by omega) scope'

end SelfLambda.Parser
