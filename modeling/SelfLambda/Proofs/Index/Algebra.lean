import SelfLambda.Proofs.Index.Words

/-! Laws between shifts and substitutions at two cutoffs. Over numbers they are compared variable by variable, with five
places where a variable can stand: before the nearer cutoff, on it, between the two, on the farther one, and beyond both.
Over words they hold wherever no sum that one of the sides forms wraps. -/

namespace SelfLambda

namespace Unbounded

theorem subst_point_shiftIndex (t value : Unbounded) (cutoff : Nat) :
    (t.rename (shiftIndex 1 cutoff)).subst (point value cutoff) = t := by
  have same : point value cutoff ∘ shiftIndex 1 cutoff = var := by
    funext index
    show point value cutoff (shiftIndex 1 cutoff index) = var index
    by_cases moved : cutoff ≤ index
    · rw [shiftIndex, if_pos moved, point, if_neg (by omega), if_pos (by omega), Nat.add_sub_cancel]
    · rw [shiftIndex, if_neg moved, point, if_neg (by omega), if_neg (by omega)]
  rw [subst_rename, same, subst_var]

theorem point_of_lt {value : Unbounded} {cutoff index : Nat} (below : index < cutoff) :
    point value cutoff index = var index := by
  rw [point, if_neg (by omega), if_neg (by omega)]

theorem point_self (value : Unbounded) (cutoff : Nat) : point value cutoff cutoff = value := if_pos rfl

theorem point_of_gt {value : Unbounded} {cutoff index : Nat} (beyond : cutoff < index) :
    point value cutoff index = var (index - 1) := by
  rw [point, if_neg (by omega), if_pos beyond]

theorem point_point (v w : Unbounded) {near far : Nat} (order : near ≤ far) (index : Nat) :
    (point v near index).subst (point w far) =
      (point (w.rename (shiftIndex 1 near)) (far + 1) index).subst (point (v.subst (point w far)) near) := by
  rcases Nat.lt_trichotomy index near with below | rfl | beyond
  · rw [point_of_lt below, point_of_lt (show index < far + 1 by omega), subst, subst, point_of_lt below,
      point_of_lt (show index < far by omega)]
  · rw [point_self, point_of_lt (show index < far + 1 by omega), subst, point_self]
  · rw [point_of_gt beyond, subst]
    rcases Nat.lt_trichotomy index (far + 1) with between | rfl | last
    · rw [point_of_lt between, subst, point_of_gt beyond, point_of_lt (show index - 1 < far by omega)]
    · rw [point_self, Nat.add_sub_cancel, point_self, subst_point_shiftIndex]
    · rw [point_of_gt last, subst, point_of_gt (show far < index - 1 by omega),
        point_of_gt (show near < index - 1 by omega)]

theorem subst_point_subst_point (t v w : Unbounded) {near far : Nat} (order : near ≤ far) :
    (t.subst (point v near)).subst (point w far) =
      (t.subst (point (w.rename (shiftIndex 1 near)) (far + 1))).subst (point (v.subst (point w far)) near) := by
  rw [subst_subst, subst_subst]
  congr 1
  funext index
  exact point_point v w order index

theorem shiftIndex_of_lt {inc cutoff index : Nat} (below : index < cutoff) : shiftIndex inc cutoff index = index :=
  if_neg (Nat.not_le.mpr below)

theorem shiftIndex_of_le {inc cutoff index : Nat} (beyond : cutoff ≤ index) :
    shiftIndex inc cutoff index = index + inc := if_pos beyond

theorem shiftIndex_merge {near far : Nat} (first second : Nat) (order : near ≤ far) (within : far ≤ near + first) :
    shiftIndex second far ∘ shiftIndex first near = shiftIndex (second + first) near := by
  funext index
  show shiftIndex second far (shiftIndex first near index) = shiftIndex (second + first) near index
  by_cases moved : near ≤ index
  · rw [shiftIndex_of_le moved, shiftIndex_of_le moved, shiftIndex_of_le (by omega), Nat.add_assoc, Nat.add_comm first]
  · have below : index < near := Nat.not_le.mp moved
    rw [shiftIndex_of_lt below, shiftIndex_of_lt below, shiftIndex_of_lt (by omega)]

theorem shiftIndex_comm {near far : Nat} (first second : Nat) (order : near ≤ far) :
    shiftIndex second (far + first) ∘ shiftIndex first near = shiftIndex first near ∘ shiftIndex second far := by
  funext index
  show shiftIndex second (far + first) (shiftIndex first near index) = shiftIndex first near (shiftIndex second far index)
  rcases Nat.lt_or_ge index near with below | moved
  · rw [shiftIndex_of_lt below, shiftIndex_of_lt (show index < far by omega), shiftIndex_of_lt below,
      shiftIndex_of_lt (by omega)]
  · rw [shiftIndex_of_le moved]
    rcases Nat.lt_or_ge index far with between | beyond
    · rw [shiftIndex_of_lt between, shiftIndex_of_le moved, shiftIndex_of_lt (by omega)]
    · rw [shiftIndex_of_le beyond, shiftIndex_of_le (by omega), shiftIndex_of_le (by omega)]
      omega

theorem rename_point_of_le (v : Unbounded) (inc : Nat) {place cutoff : Nat} (order : place ≤ cutoff) (index : Nat) :
    (point v place index).rename (shiftIndex inc cutoff) =
      point (v.rename (shiftIndex inc cutoff)) place (shiftIndex inc (cutoff + 1) index) := by
  rcases Nat.lt_trichotomy index place with below | rfl | beyond
  · rw [shiftIndex_of_lt (show index < cutoff + 1 by omega), point_of_lt below, point_of_lt below, rename,
      shiftIndex_of_lt (by omega)]
  · rw [shiftIndex_of_lt (show index < cutoff + 1 by omega), point_self, point_self]
  · rw [point_of_gt beyond, rename]
    rcases Nat.lt_or_ge index (cutoff + 1) with between | last
    · rw [shiftIndex_of_lt between, point_of_gt beyond, shiftIndex_of_lt (by omega)]
    · rw [shiftIndex_of_le last, point_of_gt (by omega), shiftIndex_of_le (by omega)]
      congr 1
      omega

theorem rename_point_of_ge (v : Unbounded) (inc : Nat) {place cutoff : Nat} (order : cutoff ≤ place) (index : Nat) :
    (point v place index).rename (shiftIndex inc cutoff) =
      point (v.rename (shiftIndex inc cutoff)) (place + inc) (shiftIndex inc cutoff index) := by
  rcases Nat.lt_or_ge index cutoff with before | moved
  · rw [shiftIndex_of_lt before, point_of_lt (by omega), point_of_lt (by omega), rename, shiftIndex_of_lt before]
  · rw [shiftIndex_of_le moved]
    rcases Nat.lt_trichotomy index place with between | rfl | beyond
    · rw [point_of_lt between, point_of_lt (by omega), rename, shiftIndex_of_le moved]
    · rw [point_self, point_self]
    · rw [point_of_gt beyond, point_of_gt (by omega), rename, shiftIndex_of_le (by omega)]
      congr 1
      omega

theorem rename_subst_point_of_le (t v : Unbounded) (inc : Nat) {place cutoff : Nat} (order : place ≤ cutoff) :
    (t.subst (point v place)).rename (shiftIndex inc cutoff) =
      (t.rename (shiftIndex inc (cutoff + 1))).subst (point (v.rename (shiftIndex inc cutoff)) place) := by
  rw [rename_subst, subst_rename]
  congr 1
  funext index
  exact rename_point_of_le v inc order index

theorem rename_subst_point_of_ge (t v : Unbounded) (inc : Nat) {place cutoff : Nat} (order : cutoff ≤ place) :
    (t.subst (point v place)).rename (shiftIndex inc cutoff) =
      (t.rename (shiftIndex inc cutoff)).subst (point (v.rename (shiftIndex inc cutoff)) (place + inc)) := by
  rw [rename_subst, subst_rename]
  congr 1
  funext index
  exact rename_point_of_ge v inc order index

end Unbounded

namespace Term

/-- No sum wraps when `v` goes in at `near` and then `w` at `far`, nor when `w` goes in first, moved past `near` and one
place farther, and then `v` with `w` in it. -/
structure ExchangeFits (t v w : Term) (near far : UInt64) : Prop where
  inner : t.SubstFits v near
  outer : (t.subst v near).SubstFits w far
  farther : far.toNat + 1 < UInt64.size
  moved : w.ShiftFits 1 near
  first : t.SubstFits (w.shift 1 near) (far + 1)
  value : v.SubstFits w far
  second : (t.subst (w.shift 1 near) (far + 1)).SubstFits (v.subst w far) near

/-- Substitutions at two variables can be exchanged: the one at the farther variable goes first if it goes into the value
of the other as well. -/
theorem subst_exchange (t v w : Term) (near far : UInt64) (order : near ≤ far) (fits : t.ExchangeFits v w near far) :
    (t.subst v near).subst w far = (t.subst (w.shift 1 near) (far + 1)).subst (v.subst w far) near := by
  have next : (far + 1).toNat = far.toNat + 1 := toNat_add_of_fits fits.farther
  apply unbounded_injective
  calc
    ((t.subst v near).subst w far).unbounded
      = (t.unbounded.subst (.point v.unbounded near.toNat)).subst (.point w.unbounded far.toNat) := by
        rw [unbounded_subst fits.outer, unbounded_subst fits.inner]
    _ = (t.unbounded.subst (.point (w.unbounded.rename (Unbounded.shiftIndex 1 near.toNat)) (far.toNat + 1))).subst
          (.point (v.unbounded.subst (.point w.unbounded far.toNat)) near.toNat) :=
        Unbounded.subst_point_subst_point _ _ _ (UInt64.le_iff_toNat_le.mp order)
    _ = ((t.subst (w.shift 1 near) (far + 1)).subst (v.subst w far) near).unbounded := by
        rw [unbounded_subst fits.second, unbounded_subst fits.first, unbounded_subst fits.value, unbounded_shift fits.moved,
          next]
        rfl

/-- Variables on, between and beyond the two cutoffs under a function type with its self name, and values that have free
variables of their own. -/
theorem subst_exchange_under_binders :
    let t : Term := .all false [115] [120] (.app false (.var 1) (.var 3)) (.app true (.var 4) (.app false (.var 3) (.var 5)))
    let v : Term := .lam false [121] (.app false (.var 2) (.var 3))
    let w : Term := .app false (.var 0) (.var 6)
    t.ExchangeFits v w 0 1 ∧
      (t.subst v 0).subst w 1 = (t.subst (w.shift 1 0) 2).subst (v.subst w 1) 0 ∧
      (t.subst v 0).subst w 1 = .all false [115] [120]
        (.app false (.lam false [121] (.app false (.app false (.var 2) (.var 8)) (.var 3))) (.app false (.var 1) (.var 7)))
        (.app true (.app false (.var 2) (.var 8)) (.app false (.var 2) (.var 3))) := by
  intro t v w
  have fits : t.ExchangeFits v w 0 1 := by
    constructor <;> simp [t, v, w, SubstFits, ShiftFits, EachVar, subst, shift, mapVars, UInt64.size]
  exact ⟨fits, subst_exchange t v w 0 1 (by decide) fits, by decide⟩

structure MergeFits (t : Term) (first second near far : UInt64) : Prop where
  inner : t.ShiftFits first near
  outer : (t.shift first near).ShiftFits second far
  both : second.toNat + first.toNat < UInt64.size
  once : t.ShiftFits (second + first) near

structure ShiftExchangeFits (t : Term) (first second near far : UInt64) : Prop where
  inner : t.ShiftFits first near
  farther : far.toNat + first.toNat < UInt64.size
  outer : (t.shift first near).ShiftFits second (far + first)
  before : t.ShiftFits second far
  after : (t.shift second far).ShiftFits first near

structure CancelFits (t v : Term) (place : UInt64) : Prop where
  shift : t.ShiftFits 1 place
  subst : (t.shift 1 place).SubstFits v place

structure ShiftBeyondFits (t v : Term) (inc place cutoff : UInt64) : Prop where
  inner : t.SubstFits v place
  outer : (t.subst v place).ShiftFits inc cutoff
  farther : cutoff.toNat + 1 < UInt64.size
  before : t.ShiftFits inc (cutoff + 1)
  value : v.ShiftFits inc cutoff
  after : (t.shift inc (cutoff + 1)).SubstFits (v.shift inc cutoff) place

structure ShiftBeforeFits (t v : Term) (inc place cutoff : UInt64) : Prop where
  inner : t.SubstFits v place
  outer : (t.subst v place).ShiftFits inc cutoff
  farther : place.toNat + inc.toNat < UInt64.size
  before : t.ShiftFits inc cutoff
  value : v.ShiftFits inc cutoff
  after : (t.shift inc cutoff).SubstFits (v.shift inc cutoff) (place + inc)

section

variable {t v : Term} {first second near far inc place cutoff : UInt64}

theorem shift_shift_merge (order : near ≤ far) (within : far.toNat ≤ near.toNat + first.toNat)
    (fits : t.MergeFits first second near far) :
    (t.shift first near).shift second far = t.shift (second + first) near := by
  have merged := Unbounded.shiftIndex_merge first.toNat second.toNat (UInt64.le_iff_toNat_le.mp order) within
  apply unbounded_injective
  rw [unbounded_shift fits.outer, unbounded_shift fits.inner, unbounded_shift fits.once, toNat_add_of_fits fits.both,
    Unbounded.rename_rename, merged]

theorem shift_shift_exchange (order : near ≤ far) (fits : t.ShiftExchangeFits first second near far) :
    (t.shift first near).shift second (far + first) = (t.shift second far).shift first near := by
  have exchanged := Unbounded.shiftIndex_comm first.toNat second.toNat (UInt64.le_iff_toNat_le.mp order)
  apply unbounded_injective
  rw [unbounded_shift fits.outer, unbounded_shift fits.inner, unbounded_shift fits.after, unbounded_shift fits.before,
    toNat_add_of_fits fits.farther, Unbounded.rename_rename, Unbounded.rename_rename, exchanged]

theorem subst_shift_cancel (fits : t.CancelFits v place) : (t.shift 1 place).subst v place = t := by
  apply unbounded_injective
  rw [unbounded_subst fits.subst, unbounded_shift fits.shift]
  exact Unbounded.subst_point_shiftIndex t.unbounded v.unbounded place.toNat

theorem shift_subst_beyond (order : place ≤ cutoff) (fits : t.ShiftBeyondFits v inc place cutoff) :
    (t.subst v place).shift inc cutoff = (t.shift inc (cutoff + 1)).subst (v.shift inc cutoff) place := by
  have next : (cutoff + 1).toNat = cutoff.toNat + 1 := toNat_add_of_fits fits.farther
  apply unbounded_injective
  rw [unbounded_shift fits.outer, unbounded_subst fits.inner, unbounded_subst fits.after, unbounded_shift fits.before,
    unbounded_shift fits.value, next]
  exact Unbounded.rename_subst_point_of_le _ _ _ (UInt64.le_iff_toNat_le.mp order)

theorem shift_subst_before (order : cutoff ≤ place) (fits : t.ShiftBeforeFits v inc place cutoff) :
    (t.subst v place).shift inc cutoff = (t.shift inc cutoff).subst (v.shift inc cutoff) (place + inc) := by
  apply unbounded_injective
  rw [unbounded_shift fits.outer, unbounded_subst fits.inner, unbounded_subst fits.after, unbounded_shift fits.before,
    unbounded_shift fits.value, toNat_add_of_fits fits.farther]
  exact Unbounded.rename_subst_point_of_ge _ _ _ (UInt64.le_iff_toNat_le.mp order)

end

/-- The laws of shifting and substitution at two cutoffs: shifts merge and exchange, a substitution takes back a shift by
one, and a shift goes past a substitution on either side of it. -/
theorem shift_subst_algebra (t v : Term) (i j c d : UInt64) :
    (d ≤ c → c.toNat ≤ d.toNat + j.toNat → t.MergeFits j i d c → (t.shift j d).shift i c = t.shift (i + j) d) ∧
      (d ≤ c → t.ShiftExchangeFits i j d c → (t.shift i d).shift j (c + i) = (t.shift j c).shift i d) ∧
      (t.CancelFits v d → (t.shift 1 d).subst v d = t) ∧
      (d ≤ c → t.ShiftBeyondFits v i d c → (t.subst v d).shift i c = (t.shift i (c + 1)).subst (v.shift i c) d) ∧
      (c ≤ d → t.ShiftBeforeFits v i d c → (t.subst v d).shift i c = (t.shift i c).subst (v.shift i c) (d + i)) :=
  ⟨shift_shift_merge, shift_shift_exchange, subst_shift_cancel, shift_subst_beyond, shift_subst_before⟩

/-- Variables on both sides of each cutoff and on them, under a function type with its self name; each side of each law
comes to the term that stands there. -/
theorem shift_subst_algebra_under_binders :
    let form (a b c d e : Term) : Term := .all false [115] [120] (.app false (.var 0) (.app false a b))
      (.lam true [121] (.app true (.app false (.var 3) c) (.app false d e)))
    let function (i j : UInt64) : Term := .lam false [122] (.app false (.var i) (.var j))
    let t := form (.var 2) (.var 3) (.var 4) (.var 5) (.var 6)
    let v := function 1 3
    (t.MergeFits 3 2 1 2 ∧ (t.shift 3 1).shift 2 2 = t.shift 5 1 ∧
        t.shift 5 1 = form (.var 7) (.var 8) (.var 9) (.var 10) (.var 11)) ∧
      (t.ShiftExchangeFits 2 3 1 2 ∧ (t.shift 2 1).shift 3 4 = (t.shift 3 2).shift 2 1 ∧
        (t.shift 3 2).shift 2 1 = form (.var 4) (.var 8) (.var 6) (.var 10) (.var 11)) ∧
      (t.CancelFits v 1 ∧ (t.shift 1 1).subst v 1 = t ∧ t.shift 1 1 = form (.var 3) (.var 4) (.var 5) (.var 6) (.var 7)) ∧
      (t.ShiftBeyondFits v 2 1 2 ∧ (t.subst v 1).shift 2 2 = (t.shift 2 3).subst (v.shift 2 2) 1 ∧
        (t.shift 2 3).subst (v.shift 2 2) 1 = form (function 2 6) (.var 2) (function 4 8) (.var 4) (.var 7)) ∧
      t.ShiftBeforeFits v 2 2 1 ∧ (t.subst v 2).shift 2 1 = (t.shift 2 1).subst (v.shift 2 1) 4 ∧
        (t.shift 2 1).subst (v.shift 2 1) 4 = form (.var 4) (function 2 6) (.var 6) (function 4 8) (.var 7) := by
  intro form function t v
  have merge : t.MergeFits 3 2 1 2 := by
    constructor <;> simp [t, form, ShiftFits, EachVar, shift, mapVars, UInt64.size]
  have exchange : t.ShiftExchangeFits 2 3 1 2 := by
    constructor <;> simp [t, form, ShiftFits, EachVar, shift, mapVars, UInt64.size]
  have cancel : t.CancelFits v 1 := by
    constructor <;> simp [t, v, form, function, SubstFits, ShiftFits, EachVar, shift, mapVars, UInt64.size]
  have beyond : t.ShiftBeyondFits v 2 1 2 := by
    constructor <;> simp [t, v, form, function, SubstFits, ShiftFits, EachVar, subst, shift, mapVars, UInt64.size]
  have before : t.ShiftBeforeFits v 2 2 1 := by
    constructor <;> simp [t, v, form, function, SubstFits, ShiftFits, EachVar, subst, shift, mapVars, UInt64.size]
  obtain ⟨merged, exchanged, cancelled, past, -⟩ := shift_subst_algebra t v 2 3 2 1
  obtain ⟨-, -, -, -, earlier⟩ := shift_subst_algebra t v 2 3 1 2
  exact ⟨⟨merge, merged (by decide) (by decide) merge, by decide⟩, ⟨exchange, exchanged (by decide) exchange, by decide⟩,
    ⟨cancel, cancelled cancel, by decide⟩, ⟨beyond, past (by decide) beyond, by decide⟩,
    before, earlier (by decide) before, by decide⟩

end Term

end SelfLambda
