import SelfLambda.Proofs.Reduction.Confluence

/-! The order in which the reducers go, as a relation over numbers: a term is brought to weak-head form, call by name,
and the parts of that form are treated alike. Nothing counts fuel here and no sum can wrap, so a derivation is what all
runs that end have in common. -/

namespace SelfLambda

namespace Unbounded

def IsFunction : Unbounded → Prop
  | lam .. => True
  | _ => False

def Leaf : Unbounded → Prop
  | var _ | ref _ | typ => True
  | _ => False

/-- The second term is the weak-head form of the first. -/
inductive WeakHead (stored : Name → Option Unbounded) : Unbounded → Unbounded → Prop
  | var (index : Nat) : WeakHead stored (.var index) (.var index)
  | typ : WeakHead stored .typ .typ
  | all (erased : Bool) (self param : Name) (domain codomain : Unbounded) :
      WeakHead stored (.all erased self param domain codomain) (.all erased self param domain codomain)
  | lam (param : Name) (body : Unbounded) : WeakHead stored (.lam false param body) (.lam false param body)
  | ref {name : Name} (kept : stored name = none) : WeakHead stored (.ref name) (.ref name)
  | unfold {name : Name} {t w : Unbounded} (found : stored name = some t) (rest : WeakHead stored t w) :
      WeakHead stored (.ref name) w
  | instantiate (param : Name) {body w : Unbounded} (rest : WeakHead stored (body.subst (cons placeholder .var)) w) :
      WeakHead stored (.lam true param body) w
  | drop {fn w : Unbounded} (arg : Unbounded) (rest : WeakHead stored fn w) : WeakHead stored (.app true fn arg) w
  | strip (checked : Bool) (type : Unbounded) {term w : Unbounded} (rest : WeakHead stored term w) :
      WeakHead stored (.ann checked type term) w
  | beta {fn arg body w : Unbounded} {param : Name} (ofFn : WeakHead stored fn (.lam false param body))
      (rest : WeakHead stored (body.subst (cons arg .var)) w) : WeakHead stored (.app false fn arg) w
  | stuck {fn head arg arg' : Unbounded} (ofFn : WeakHead stored fn head) (noFunction : ¬ head.IsFunction)
      (ofArg : WeakHead stored arg arg') : WeakHead stored (.app false fn arg) (.app false head arg')

inductive Normalizes (stored : Name → Option Unbounded) : Unbounded → Unbounded → Prop
  | all {t domain domain' codomain codomain' : Unbounded} {erased : Bool} {self param : Name}
      (head : WeakHead stored t (.all erased self param domain codomain)) (ofDomain : Normalizes stored domain domain')
      (ofCodomain : Normalizes stored codomain codomain') :
      Normalizes stored t (.all erased self param domain' codomain')
  | lam {t body body' : Unbounded} {erased : Bool} {param : Name} (head : WeakHead stored t (.lam erased param body))
      (ofBody : Normalizes stored body body') : Normalizes stored t (.lam erased param body')
  | app {t fn fn' arg arg' : Unbounded} {erased : Bool} (head : WeakHead stored t (.app erased fn arg))
      (ofFn : Normalizes stored fn fn') (ofArg : Normalizes stored arg arg') :
      Normalizes stored t (.app erased fn' arg')
  | leaf {t w : Unbounded} (head : WeakHead stored t w) (leaf : w.Leaf) : Normalizes stored t w

variable {stored : Name → Option Unbounded} {t w : Unbounded}

theorem WeakHead.reduces (head : WeakHead stored t w) : Reduces stored t w := by
  induction head with
  | var index => exact .refl
  | typ => exact .refl
  | all erased self param domain codomain => exact .refl
  | lam param body => exact .refl
  | ref kept => exact .refl
  | unfold found _ rest => exact rest.head (.unfold found)
  | instantiate param _ rest => exact rest.head (.instantiate _ _)
  | drop arg _ rest => exact rest.head (.drop _ _)
  | strip checked type _ rest => exact rest.head (.strip _ _ _)
  | beta _ _ ofFn rest => exact (Reduces.app ofFn .refl).trans (rest.head (.beta _ _ _))
  | stuck _ _ _ ofFn ofArg => exact .app ofFn ofArg

theorem Normalizes.reduces (normalizes : Normalizes stored t w) : Reduces stored t w := by
  induction normalizes with
  | all head _ _ ofDomain ofCodomain => exact head.reduces.trans (Reduces.all ofDomain ofCodomain)
  | lam head _ ofBody => exact head.reduces.trans (Reduces.lam ofBody)
  | app head _ _ ofFn ofArg => exact head.reduces.trans (Reduces.app ofFn ofArg)
  | leaf head _ => exact head.reduces

end Unbounded

end SelfLambda
