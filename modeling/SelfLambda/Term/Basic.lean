import SelfLambda.Digest

/-! Terms of the calculus. Bound variables are indices counted from the nearest binder, held in 64-bit words whose
arithmetic wraps. A dependent function type binds its self name over the domain, and both the self name and the
parameter over the codomain, where the parameter is index 0 and the self name index 1. Binder names are carried for
printing only: they take no part in `alphaEq` and `digest`. -/

namespace SelfLambda

inductive Term where
  | var (index : UInt64)
  | ref (name : Name)
  | typ
  | all (erased : Bool) (self param : Name) (domain codomain : Term)
  | lam (erased : Bool) (param : Name) (body : Term)
  | app (erased : Bool) (fn arg : Term)
  | ann (checked : Bool) (type term : Term)
  deriving DecidableEq, Repr, Inhabited

namespace Term

/-- Number of nodes, without a bound; `wordSize` is the same count in a word. -/
def size : Term → Nat
  | var _ => 1
  | ref _ => 1
  | typ => 1
  | all _ _ _ domain codomain => 1 + domain.size + codomain.size
  | lam _ _ body => 1 + body.size
  | app _ fn arg => 1 + fn.size + arg.size
  | ann _ type term => 1 + type.size + term.size

def wordSize : Term → UInt64
  | var _ => 1
  | ref _ => 1
  | typ => 1
  | all _ _ _ domain codomain => 1 + domain.wordSize + codomain.wordSize
  | lam _ _ body => 1 + body.wordSize
  | app _ fn arg => 1 + fn.wordSize + arg.wordSize
  | ann _ type term => 1 + type.wordSize + term.wordSize

/-- Equality up to binder names; the erasure and annotation flags count. -/
def alphaEq : Term → Term → Bool
  | var i, var j => i == j
  | ref a, ref b => a == b
  | typ, typ => true
  | all e _ _ domain codomain, all e' _ _ domain' codomain' =>
    e == e' && domain.alphaEq domain' && codomain.alphaEq codomain'
  | lam e _ body, lam e' _ body' => e == e' && body.alphaEq body'
  | app e fn arg, app e' fn' arg' => e == e' && fn.alphaEq fn' && arg.alphaEq arg'
  | ann c type term, ann c' type' term' => c == c' && type.alphaEq type' && term.alphaEq term'
  | _, _ => false

def digest (ofName : Name → UInt64) : Term → UInt64
  | var index => mix 0 index
  | ref name => mix 1 (ofName name)
  | typ => 2
  | all erased _ _ domain codomain =>
    mix (mix (mix 3 erased.toUInt64) (domain.digest ofName)) (codomain.digest ofName)
  | lam erased _ body => mix (mix 4 erased.toUInt64) (body.digest ofName)
  | app erased fn arg => mix (mix (mix 5 erased.toUInt64) (fn.digest ofName)) (arg.digest ofName)
  | ann checked type term => mix (mix (mix 6 checked.toUInt64) (type.digest ofName)) (term.digest ofName)

def refs : Term → List Name
  | var _ => []
  | ref name => [name]
  | typ => []
  | all _ _ _ domain codomain => domain.refs ++ codomain.refs
  | lam _ _ body => body.refs
  | app _ fn arg => fn.refs ++ arg.refs
  | ann _ type term => type.refs ++ term.refs

theorem size_pos (t : Term) : 0 < t.size := by
  cases t <;> simp only [size] <;> omega

theorem wordSize_eq (t : Term) : t.wordSize = UInt64.ofNat t.size := by
  induction t with
  | var _ => rfl
  | ref _ => rfl
  | typ => rfl
  | all _ _ _ _ _ domain codomain => simp only [wordSize, size, domain, codomain, UInt64.ofNat_add, UInt64.ofNat_one]
  | lam _ _ _ body => simp only [wordSize, size, body, UInt64.ofNat_add, UInt64.ofNat_one]
  | app _ _ _ fn arg => simp only [wordSize, size, fn, arg, UInt64.ofNat_add, UInt64.ofNat_one]
  | ann _ _ _ type term => simp only [wordSize, size, type, term, UInt64.ofNat_add, UInt64.ofNat_one]

/-- No term that a machine can hold has as many nodes as there are words, so the word tells their number. -/
theorem toNat_wordSize {t : Term} (small : t.size < UInt64.size) : t.wordSize.toNat = t.size := by
  rw [wordSize_eq, UInt64.toNat_ofNat_of_lt' small]

end Term

end SelfLambda
