import SelfLambda.Proofs.Index.Words

/-! Traversals of the variables of a term, and substitution for several variables at once. Two traversals one after the
other are a single one, whatever sums wrap, so shifts and substitutions are compared variable by variable. Putting two
values in at once is putting in the nearer one, moved past the other, and then the other, as long as no index that is moved
reaches the end of a word. -/

namespace SelfLambda

namespace Term

theorem eachVar_of_forall {P : Nat → UInt64 → Prop} (holds : ∀ depth index, P depth index) (t : Term) (depth : Nat) :
    t.EachVar P depth := by
  induction t generalizing depth with
  | var index => exact holds depth index
  | ref name => trivial
  | typ => trivial
  | all erased self param domain codomain domainLaw codomainLaw =>
    exact ⟨domainLaw (depth + 1), codomainLaw (depth + 2)⟩
  | lam erased param body bodyLaw => exact bodyLaw (depth + 1)
  | app erased fn arg fnLaw argLaw => exact ⟨fnLaw depth, argLaw depth⟩
  | ann checked type term typeLaw termLaw => exact ⟨typeLaw depth, termLaw depth⟩

theorem mapVars_congr {f g : UInt64 → UInt64 → Term} {t : Term} {depth : Nat}
    (same : t.EachVar (fun depth index => f (UInt64.ofNat depth) index = g (UInt64.ofNat depth) index) depth) :
    t.mapVars f (UInt64.ofNat depth) = t.mapVars g (UInt64.ofNat depth) := by
  induction t generalizing depth with
  | var index => exact same
  | ref name => rfl
  | typ => rfl
  | all erased self param domain codomain domainLaw codomainLaw =>
    rw [mapVars, mapVars, ofNat_add_one, ofNat_add_two, domainLaw same.1, codomainLaw same.2]
  | lam erased param body bodyLaw => rw [mapVars, mapVars, ofNat_add_one, bodyLaw same]
  | app erased fn arg fnLaw argLaw => rw [mapVars, mapVars, fnLaw same.1, argLaw same.2]
  | ann checked type term typeLaw termLaw => rw [mapVars, mapVars, typeLaw same.1, termLaw same.2]

theorem mapVars_mapVars (f g : UInt64 → UInt64 → Term) (t : Term) (depth : UInt64) :
    (t.mapVars f depth).mapVars g depth = t.mapVars (fun depth index => (f depth index).mapVars g depth) depth := by
  induction t generalizing depth with
  | var index => rfl
  | ref name => rfl
  | typ => rfl
  | all erased self param domain codomain domainLaw codomainLaw => simp only [mapVars, domainLaw, codomainLaw]
  | lam erased param body bodyLaw => simp only [mapVars, bodyLaw]
  | app erased fn arg fnLaw argLaw => simp only [mapVars, fnLaw, argLaw]
  | ann checked type term typeLaw termLaw => simp only [mapVars, typeLaw, termLaw]

theorem mapVars_add (f : UInt64 → UInt64 → Term) (t : Term) (depth outer : UInt64) :
    t.mapVars f (depth + outer) = t.mapVars (fun depth index => f (depth + outer) index) depth := by
  have deeper (depth more : UInt64) : depth + outer + more = depth + more + outer := by
    rw [UInt64.add_assoc, UInt64.add_comm outer, ← UInt64.add_assoc]
  induction t generalizing depth with
  | var index => rfl
  | ref name => rfl
  | typ => rfl
  | all erased self param domain codomain domainLaw codomainLaw =>
    simp only [mapVars, deeper, domainLaw, codomainLaw]
  | lam erased param body bodyLaw => simp only [mapVars, deeper, bodyLaw]
  | app erased fn arg fnLaw argLaw => simp only [mapVars, fnLaw, argLaw]
  | ann checked type term typeLaw termLaw => simp only [mapVars, typeLaw, termLaw]

theorem mapVars_var (t : Term) (depth : UInt64) : t.mapVars (fun _ index => var index) depth = t := by
  induction t generalizing depth with
  | var index => rfl
  | ref name => rfl
  | typ => rfl
  | all erased self param domain codomain domainLaw codomainLaw => rw [mapVars, domainLaw, codomainLaw]
  | lam erased param body bodyLaw => rw [mapVars, bodyLaw]
  | app erased fn arg fnLaw argLaw => rw [mapVars, fnLaw, argLaw]
  | ann checked type term typeLaw termLaw => rw [mapVars, typeLaw, termLaw]

def shiftVar (inc cutoff depth index : UInt64) : Term :=
  if cutoff + depth ≤ index then var (index + inc) else var index

theorem shift_eq_mapVars (t : Term) (inc cutoff : UInt64) : t.shift inc cutoff = t.mapVars (shiftVar inc cutoff) 0 := by
  rw [shift]
  split
  next none =>
    have still : shiftVar inc cutoff = fun _ index => var index := by
      funext depth index
      rw [shiftVar, none, UInt64.add_zero, ite_self]
    rw [still, mapVars_var]
  next => rfl

theorem shiftVar_of_lt {inc depth index : UInt64} (below : index < depth) : shiftVar inc 0 depth index = var index := by
  rw [shiftVar, UInt64.zero_add, if_neg (UInt64.not_le.mpr below)]

theorem shiftVar_of_le {inc depth index : UInt64} (beyond : depth ≤ index) :
    shiftVar inc 0 depth index = var (index + inc) := by
  rw [shiftVar, UInt64.zero_add, if_pos beyond]

def substVar (value : Term) (cutoff depth index : UInt64) : Term :=
  if index = cutoff + depth then value.shift depth 0
  else if cutoff + depth < index then var (index - 1) else var index

theorem subst_eq_mapVars (t value : Term) (cutoff : UInt64) :
    t.subst value cutoff = t.mapVars (substVar value cutoff) 0 := rfl

theorem substVar_of_lt {value : Term} {depth index : UInt64} (below : index < depth) :
    substVar value 0 depth index = var index := by
  rw [substVar, UInt64.zero_add, if_neg (UInt64.ne_of_lt below), if_neg (UInt64.lt_asymm below)]

theorem substVar_self (value : Term) (depth : UInt64) : substVar value 0 depth depth = value.shift depth 0 := by
  rw [substVar, UInt64.zero_add, if_pos rfl]

theorem substVar_of_gt {value : Term} {depth index : UInt64} (beyond : depth < index) :
    substVar value 0 depth index = var (index - 1) := by
  rw [substVar, UInt64.zero_add, if_neg (UInt64.ne_of_lt beyond).symm, if_pos beyond]

/-- What putting in several values does at a variable: the nearest variables get the values, in order, and all beyond
them move down. -/
def placeVar (values : List Term) (depth index : UInt64) : Term :=
  if index < depth then var index
  else match values[(index - depth).toNat]? with
    | some value => value.shift depth 0
    | none => var (index - UInt64.ofNat values.length)

def instantiate (t : Term) (values : List Term) : Term := t.mapVars (placeVar values) 0

/-- Under `outer` more binders neither their number nor a free index that is moved up by one reaches `2 ^ 64`. -/
def FitsUnder (outer : Nat) (t : Term) : Prop :=
  t.EachVar (fun depth index => outer + depth < UInt64.size ∧
    (depth ≤ index.toNat → outer + index.toNat < UInt64.size - 1)) 0

/-- The binders of a term, with those that the values are put for, are fewer than `2 ^ 64`, and each value fits wherever
it goes. -/
def InstantiateFits (t : Term) (values : List Term) : Prop :=
  t.EachVar (fun depth index => depth + values.length < UInt64.size ∧
    ∀ value, depth ≤ index.toNat → values[index.toNat - depth]? = some value → value.FitsUnder depth) 0

theorem placeVar_of_lt {values : List Term} {depth index : UInt64} (below : index < depth) :
    placeVar values depth index = var index := if_pos below

theorem placeVar_of_le {values : List Term} {depth index : UInt64} (beyond : depth ≤ index) :
    placeVar values depth index = match values[index.toNat - depth.toNat]? with
      | some value => value.shift depth 0
      | none => var (index - UInt64.ofNat values.length) := by
  rw [placeVar, if_neg (UInt64.not_lt.mpr beyond), UInt64.toNat_sub_of_le _ _ beyond]

theorem instantiate_one (t value : Term) : t.instantiate [value] = t.subst value 0 := by
  have leaf : placeVar [value] = substVar value 0 := by
    funext depth index
    rcases Nat.lt_trichotomy index.toNat depth.toNat with below | here | beyond
    · have below : index < depth := UInt64.lt_iff_toNat_lt.mpr below
      rw [placeVar_of_lt below, substVar_of_lt below]
    · obtain rfl := UInt64.toNat_inj.mp here
      rw [substVar_self, placeVar_of_le (UInt64.le_refl _), Nat.sub_self]
      rfl
    · have order : depth < index := UInt64.lt_iff_toNat_lt.mpr beyond
      have absent : [value].length ≤ index.toNat - depth.toNat := Nat.sub_pos_of_lt beyond
      rw [substVar_of_gt order, placeVar_of_le (UInt64.le_of_lt order), List.getElem?_eq_none absent]
      rfl
  rw [instantiate, leaf, subst_eq_mapVars]

theorem subst_shifted {value : Term} {outer : Nat} (fits : value.FitsUnder outer) (other : Term) :
    ((value.shift 1 0).shift (UInt64.ofNat outer) 0).mapVars (substVar other 0) (UInt64.ofNat outer) =
      value.shift (UInt64.ofNat outer) 0 := by
  have deeper := mapVars_add (substVar other 0) ((value.shift 1 0).shift (UInt64.ofNat outer) 0) 0 (UInt64.ofNat outer)
  rw [UInt64.zero_add] at deeper
  rw [deeper, shift_eq_mapVars _ 1, shift_eq_mapVars, shift_eq_mapVars, mapVars_mapVars, mapVars_mapVars]
  refine @mapVars_congr _ _ value 0 (fits.imp ?_)
  rintro depth index ⟨depthFits, indexFits⟩
  have depthValue : (UInt64.ofNat depth).toNat = depth := toNat_ofNat_of_fits (by omega)
  have outerValue : (UInt64.ofNat outer).toNat = outer := toNat_ofNat_of_fits (by omega)
  have sumValue : (UInt64.ofNat depth + UInt64.ofNat outer).toNat = depth + outer := by
    rw [toNat_add_of_fits (by omega), depthValue, outerValue]
  -- a free variable of the value went up by one, so it lies just past the binder that is replaced, never on it
  by_cases moved : UInt64.ofNat depth ≤ index
  · have beyond : depth ≤ index.toNat := by rwa [UInt64.le_iff_toNat_le, depthValue] at moved
    have room := indexFits beyond
    have nextValue : (index + 1).toNat = index.toNat + 1 := by
      rw [toNat_add_of_fits (show index.toNat + 1 < UInt64.size by omega)]
      rfl
    have farValue : (index + 1 + UInt64.ofNat outer).toNat = index.toNat + 1 + outer := by
      rw [toNat_add_of_fits (by omega), nextValue, outerValue]
    have stillMoved : UInt64.ofNat depth ≤ index + 1 := by
      rw [UInt64.le_iff_toNat_le, depthValue, nextValue]
      omega
    have above : UInt64.ofNat depth + UInt64.ofNat outer < index + 1 + UInt64.ofNat outer := by
      rw [UInt64.lt_iff_toNat_lt, sumValue, farValue]
      omega
    have back : index + 1 + UInt64.ofNat outer - 1 = index + UInt64.ofNat outer := by
      rw [UInt64.add_assoc, UInt64.add_comm 1, ← UInt64.add_assoc, UInt64.add_sub_cancel]
    rw [shiftVar_of_le moved, mapVars, shiftVar_of_le stillMoved, mapVars, substVar_of_gt above, back,
      shiftVar_of_le moved]
  · have below : index < UInt64.ofNat depth := UInt64.not_le.mp moved
    have under : index < UInt64.ofNat depth + UInt64.ofNat outer := by
      rw [UInt64.lt_iff_toNat_lt, depthValue] at below
      rw [UInt64.lt_iff_toNat_lt, sumValue]
      omega
    rw [shiftVar_of_lt below, mapVars, shiftVar_of_lt below, mapVars, substVar_of_lt under]

/-- Putting in two values at once is putting in the nearer, moved past the binder of the other, and then the other. -/
theorem instantiate_two {t near far : Term} (fits : t.InstantiateFits [near, far]) :
    t.instantiate [near, far] = (t.subst (near.shift 1 0) 0).subst far 0 := by
  rw [instantiate, subst_eq_mapVars, subst_eq_mapVars, mapVars_mapVars]
  refine @mapVars_congr _ _ t 0 (fits.imp ?_)
  rintro depth index ⟨depthFits, valueFits⟩
  have depthSmall : depth < UInt64.size := Nat.lt_of_le_of_lt (Nat.le_add_right _ _) depthFits
  have depthValue := toNat_ofNat_of_fits depthSmall
  rcases Nat.lt_trichotomy index.toNat depth with below | here | beyond
  · have order : index < UInt64.ofNat depth := (UInt64.lt_ofNat_iff depthSmall).mpr below
    rw [placeVar_of_lt order, substVar_of_lt order, mapVars, substVar_of_lt order]
  · have first : [near, far][index.toNat - depth]? = some near := by rw [here, Nat.sub_self]; rfl
    have nearFits := valueFits near (Nat.le_of_eq here.symm) first
    obtain rfl : index = UInt64.ofNat depth := UInt64.toNat_inj.mp (here.trans depthValue.symm)
    rw [substVar_self, subst_shifted nearFits, placeVar_of_le (UInt64.le_refl _), Nat.sub_self]
    rfl
  · have order : UInt64.ofNat depth < index := (UInt64.ofNat_lt_iff depthSmall).mpr beyond
    have one : (1 : UInt64) ≤ index := by
      rw [UInt64.le_iff_toNat_le]
      exact Nat.lt_of_le_of_lt (Nat.zero_le _) beyond
    have lower : (index - 1).toNat = index.toNat - 1 := UInt64.toNat_sub_of_le _ _ one
    -- the first substitution brings the index down by one, which is where the second one looks for its own
    rw [substVar_of_gt order, mapVars, placeVar_of_le (UInt64.le_of_lt order), depthValue]
    by_cases next : index.toNat = depth + 1
    · have here : index - 1 = UInt64.ofNat depth := by
        rw [← UInt64.toNat_inj, lower, depthValue, next]
        rfl
      rw [here, substVar_self, next, Nat.add_sub_cancel_left]
      rfl
    · have above : UInt64.ofNat depth < index - 1 := by
        rw [UInt64.ofNat_lt_iff depthSmall, lower]
        omega
      have absent : [near, far].length ≤ index.toNat - depth := by
        show 2 ≤ index.toNat - depth
        omega
      have twice : index - 1 - 1 = index - 2 := by
        simp only [UInt64.sub_eq_add_neg, UInt64.add_assoc]
        rfl
      rw [substVar_of_gt above, List.getElem?_eq_none absent, twice]
      rfl

end Term

end SelfLambda
