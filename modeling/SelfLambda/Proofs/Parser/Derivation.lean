import SelfLambda.Parser.Source
import SelfLambda.Proofs.Parser.Lexemes

/-! The grammar of terms as derivations, free of any order among its alternatives, and the proof that the parser finds
every one of them. What the parser tries too early fails for want of one byte: a colon where a function type would need
it, or an arrow where a function would. -/

namespace SelfLambda.Parser

open Text

/-- A term, or the part of one before its annotation: a head and the arguments that it is applied to. -/
inductive Phrase where
  | term
  | spine

/-- The text starts with a phrase whose tree is the term, and goes on as the second text. -/
inductive Derives : Phrase → Scope → Term → Text → Text → Prop where
  | all {scope : Scope} {self param : Name} {erased : Bool} {domain codomain : Term}
    {s s1 s2 s3 s4 s5 s6 s7 s8 rest : Text} (selfName : self = [] ∨ self.Valid) (opened : Symbol (ascii "(") s s1)
    (named : Named param s1 s2) (blank : Blank s2 s3) (colon : Symbol (ascii ":") s3 s4)
    (domainAt : Derives .term (self :: scope) domain s4 s5) (mark : Mark erased s5 s6)
    (closed : Symbol (ascii ")") s6 s7) (arrow : Symbol (ascii "->") s7 s8)
    (codomainAt : Derives .term (param :: self :: scope) codomain s8 rest) :
    Derives .term scope (.all erased self param domain codomain) (self ++ s) rest
  | lam {scope : Scope} {param : Name} {erased : Bool} {body : Term} {s s1 s2 s3 s4 s5 rest : Text}
    (opened : Symbol (ascii "(") s s1) (named : Named param s1 s2) (mark : Mark erased s2 s3)
    (closed : Symbol (ascii ")") s3 s4) (maps : Symbol (ascii "=>") s4 s5)
    (bodyAt : Derives .term (param :: scope) body s5 rest) : Derives .term scope (.lam erased param body) s rest
  | plain {scope : Scope} {t : Term} {s rest : Text} (spine : Derives .spine scope t s rest) :
    Derives .term scope t s rest
  | ann {scope : Scope} {type t : Term} {s s1 s2 s3 rest : Text} (termAt : Derives .spine scope t s s1)
    (blank : Blank s1 s2) (sign : Symbol (ascii "::") s2 s3) (typeAt : Derives .term scope type s3 rest) :
    Derives .term scope (.ann false type t) s rest
  | typ {scope : Scope} {rest : Text} (ended : rest.head?.any isNameByte = false) :
    Derives .spine scope .typ (ascii "Type" ++ rest) rest
  | name {scope : Scope} {n : Name} {s rest : Text} (named : Named n s rest) (other : n ≠ ascii "Type") :
    Derives .spine scope (scope.resolve n) s rest
  | group {scope : Scope} {t : Term} {s s1 s2 rest : Text} (opened : Symbol (ascii "(") s s1)
    (termAt : Derives .term scope t s1 s2) (blank : Blank s2 (ascii ")" ++ rest)) : Derives .spine scope t s rest
  | app {scope : Scope} {erased : Bool} {fn arg : Term} {s s1 s2 s3 rest : Text}
    (fnAt : Derives .spine scope fn s s1) (opened : Symbol (ascii "(") s1 s2)
    (argAt : Derives .term scope arg s2 s3) (mark : Mark erased s3 (ascii ")" ++ rest)) :
    Derives .spine scope (.app erased fn arg) s rest

theorem Symbol.head {byte : UInt8} {w s rest : Text} (symbol : Symbol (byte :: w) s rest) :
    ∃ tail, s = byte :: tail := by
  obtain ⟨after, rfl, -⟩ := symbol
  exact ⟨w ++ after, rfl⟩

theorem Symbol.solid {byte : UInt8} {w s rest : Text} (symbol : Symbol (byte :: w) s rest)
    (notSpace : isSpace byte = false) (notSlash : byte ≠ 47) : Solid s := by
  obtain ⟨tail, rfl⟩ := symbol.head
  exact solid_cons notSpace notSlash tail

theorem Derives.head {phrase : Phrase} {scope : Scope} {t : Term} {s rest : Text}
    (derives : Derives phrase scope t s rest) :
    ∃ byte tail, s = byte :: tail ∧ (isNameByte byte = true ∨ byte = 40) := by
  induction derives with
  | @all scope self _ _ _ _ s _ _ _ _ _ _ _ _ _ selfName opened =>
    obtain ⟨tail, rfl⟩ := opened.head
    cases self with
    | nil => exact ⟨40, tail, rfl, Or.inr rfl⟩
    | cons byte self =>
      rcases selfName with absurd | ⟨-, bytes⟩
      · cases absurd
      · exact ⟨byte, self ++ 40 :: tail, rfl, Or.inl (bytes byte List.mem_cons_self)⟩
  | lam opened =>
    obtain ⟨tail, rfl⟩ := opened.head
    exact ⟨40, tail, rfl, Or.inr rfl⟩
  | plain _ ih => exact ih
  | ann _ _ _ _ ih => exact ih
  | @typ _ rest => exact ⟨84, _, rfl, Or.inl rfl⟩
  | name named =>
    obtain ⟨byte, tail, whole, inName⟩ := named.head
    exact ⟨byte, tail, whole, Or.inl inName⟩
  | group opened =>
    obtain ⟨tail, rfl⟩ := opened.head
    exact ⟨40, tail, rfl, Or.inr rfl⟩
  | app _ _ _ _ ih => exact ih

theorem Derives.solid {phrase : Phrase} {scope : Scope} {t : Term} {s rest : Text}
    (derives : Derives phrase scope t s rest) : Solid s := by
  obtain ⟨byte, tail, rfl, inName | rfl⟩ := derives.head
  · exact solid_of_isNameByte inName tail
  · exact solid_cons (by decide) (by decide) tail

theorem Comment.length_lt {s after : Text} (comment : Comment s after) : after.length < s.length :=
  length_comment? comment.read

theorem Blank.length_le {s rest : Text} (blank : Blank s rest) : rest.length ≤ s.length := by
  induction blank with
  | none s => exact Nat.le_refl _
  | space _ _ ih => exact Nat.le_succ_of_le ih
  | comment comment _ ih => exact Nat.le_trans ih (Nat.le_of_lt comment.length_lt)

theorem Symbol.length_le {w s rest : Text} (symbol : Symbol w s rest) : rest.length + w.length ≤ s.length := by
  obtain ⟨after, rfl, blank⟩ := symbol
  have shorter := blank.length_le
  rw [List.length_append]
  omega

theorem Named.length_lt {n : Name} {s rest : Text} (named : Named n s rest) : rest.length < s.length := by
  obtain ⟨⟨filled, -⟩, rfl, -⟩ := named
  have positive := List.length_pos_iff.mpr filled
  rw [List.length_append]
  omega

theorem Mark.length_le {erased : Bool} {s rest : Text} (mark : Mark erased s rest) : rest.length ≤ s.length := by
  cases erased with
  | false => exact Blank.length_le mark
  | true =>
    obtain ⟨after, before, behind⟩ := mark
    have first := before.length_le
    have second := behind.length_le
    rw [List.length_append] at first
    omega

theorem Derives.length_lt {phrase : Phrase} {scope : Scope} {t : Term} {s rest : Text}
    (derives : Derives phrase scope t s rest) : rest.length < s.length := by
  induction derives with
  | all _ opened named blank colon _ mark closed arrow _ domainLt codomainLt =>
    have := opened.length_le
    have := named.length_lt
    have := blank.length_le
    have := colon.length_le
    have := mark.length_le
    have := closed.length_le
    have := arrow.length_le
    rw [List.length_append]
    omega
  | lam opened named mark closed maps _ bodyLt =>
    have := opened.length_le
    have := named.length_lt
    have := mark.length_le
    have := closed.length_le
    have := maps.length_le
    omega
  | plain _ ih => exact ih
  | ann _ blank sign _ termLt typeLt =>
    have := blank.length_le
    have := sign.length_le
    omega
  | @typ _ rest =>
    have four : (ascii "Type" ++ rest).length = rest.length + 4 := by simp [ascii]
    omega
  | name named => exact named.length_lt
  | group opened _ blank termLt =>
    have := opened.length_le
    have := blank.length_le
    rw [List.length_append] at this
    omega
  | app _ opened _ mark fnLt argLt =>
    have := opened.length_le
    have := mark.length_le
    rw [List.length_append] at this
    omega

end SelfLambda.Parser
