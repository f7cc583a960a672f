import Mathlib.Algebra.Order.Field.Rat
import Mathlib.Order.WithBotTop
import Mathlib.Tactic.FieldSimp
import RegisterMachine.Operator
import RegisterMachine.Proofs.Doubles

/-! Comparison of integers and doubles is that of the numbers they stand for: no integer is rounded for it. -/
namespace RegisterMachine
namespace Binary64

theorem one_posInt : (0 : ℤ) < one := Int.natCast_pos.2 one_pos

theorem ceil_spec {x : Binary64} (hx : x.isFinite) :
    x.ceil.isFinite ∧ x.ceil.signedUnits = -(-x.signedUnits / one) * one := by
  have hneg : x.neg.isFinite := by rw [isFinite_neg, hx]
  obtain ⟨hfinite, hunits⟩ := floor_spec hneg
  rw [ceil, isFinite_neg, signedUnits_neg, hunits, signedUnits_neg, Int.neg_mul]
  exact ⟨hfinite, rfl⟩

theorem add_of_isFinite {x y : Binary64} (hx : x.isFinite) (hy : y.isFinite) :
    add x y = ofSum x y (x.signedUnits + y.signedUnits) := by
  obtain ⟨hnx, hix⟩ := isFinite_iff_not.1 hx
  obtain ⟨hny, hiy⟩ := isFinite_iff_not.1 hy
  simp [add, hnx, hix, hny, hiy]

theorem sub_of_isFinite {x y : Binary64} (hx : x.isFinite) (hy : y.isFinite) :
    sub x y = ofSum x y.neg (x.signedUnits - y.signedUnits) := by
  have hneg : y.neg.isFinite := by rw [isFinite_neg, hy]
  rw [sub, isNaN_of_isFinite hx, isNaN_of_isFinite hy, add_of_isFinite hx hneg, signedUnits_neg]
  rfl

theorem ofSum_eq_zero_iff (x y : Binary64) (sum : ℤ) : (ofSum x y sum).eq zero ↔ sum = 0 := by
  rw [ofSum]
  split
  next h =>
    refine iff_of_true ?_ h
    cases x.isNegative <;> cases y.isNegative <;> decide
  next h =>
    refine iff_of_false (fun hzero => ?_) h
    simp only [eq, Bool.and_eq_true, beq_iff_eq] at hzero
    have hm := (rank_eq_zero_iff _).1 (hzero.2.trans (by decide))
    rw [magnitude_nearest] at hm
    exact (nearestMagnitude_pos (Int.natAbs_pos.2 h)).ne' hm

theorem fract_eq_zero_iff {x : Binary64} (hx : x.isFinite) :
    x.fract.eq zero ↔ (one : ℤ) ∣ x.signedUnits := by
  rw [fract, whole]
  split
  · obtain ⟨hc, hs⟩ := ceil_spec hx
    rw [sub_of_isFinite hx hc, ofSum_eq_zero_iff, hs, sub_eq_zero]
    refine ⟨fun h => Dvd.intro_left _ h.symm, fun h => ?_⟩
    rw [Int.neg_mul, Int.ediv_mul_cancel (Int.dvd_neg.2 h), Int.neg_neg]
  · obtain ⟨hf, hs⟩ := floor_spec hx
    rw [sub_of_isFinite hx hf, ofSum_eq_zero_iff, hs, sub_eq_zero]
    exact ⟨fun h => Dvd.intro_left _ h.symm, fun h => (Int.ediv_mul_cancel h).symm⟩

theorem units_bound : bound.units = 2 ^ 63 * one := by
  have hm : bound.magnitude = (11 + (52 + 1022) + 1) * 2 ^ 52 + 0 := by decide
  rw [units_eq, hm, one_eq]
  generalize 52 + 1022 = p
  rw [unitsAt_succ (by decide), Nat.pow_add, ← Nat.mul_assoc]
  congr 1

theorem signedUnits_bound : bound.signedUnits = 2 ^ 63 * one := by
  rw [signedUnits, if_neg (by decide), units_bound]
  push_cast
  rfl

theorem bound_le_iff {x : Binary64} : bound.le x ↔ x.isNaN = false ∧ 2 ^ 63 * (one : ℤ) ≤ x.signedUnits := by
  rw [le_iff, signedUnits_bound]
  exact and_iff_right (by decide)

theorem lt_bound_iff {x : Binary64} : x.lt bound ↔ x.isNaN = false ∧ x.signedUnits < 2 ^ 63 * (one : ℤ) := by
  rw [lt_iff, signedUnits_bound]
  exact and_congr_right fun _ => and_iff_right (by decide)

theorem neg_bound_le_iff {x : Binary64} :
    bound.neg.le x ↔ x.isNaN = false ∧ -(2 ^ 63 * (one : ℤ)) ≤ x.signedUnits := by
  rw [le_iff, signedUnits_neg, signedUnits_bound]
  exact and_iff_right (by decide)

theorem le_neg_bound_iff {x : Binary64} :
    x.le bound.neg ↔ x.isNaN = false ∧ x.signedUnits ≤ -(2 ^ 63 * (one : ℤ)) := by
  rw [le_iff, signedUnits_neg, signedUnits_bound]
  exact and_congr_right fun _ => and_iff_right (by decide)

theorem lt_neg_bound_iff {x : Binary64} :
    x.lt bound.neg ↔ x.isNaN = false ∧ x.signedUnits < -(2 ^ 63 * (one : ℤ)) := by
  rw [lt_iff, signedUnits_neg, signedUnits_bound]
  exact and_congr_right fun _ => and_iff_right (by decide)

theorem isFinite_of_bounds {x : Binary64} (hnan : x.isNaN = false) (hlow : -(2 ^ 63 * (one : ℤ)) ≤ x.signedUnits)
    (hhigh : x.signedUnits < 2 ^ 63 * (one : ℤ)) : x.isFinite := by
  have hl := neg_bound_le_iff.2 ⟨hnan, hlow⟩
  have hh := lt_bound_iff.2 ⟨hnan, hhigh⟩
  simp only [le, lt, Bool.and_eq_true, decide_eq_true_eq] at hl hh
  have hrank : bound.rank = 1086 * 2 ^ 52 := by decide
  have hrank' : bound.neg.rank = -(1086 * 2 ^ 52) := by decide
  have h := hrank' ▸ hl.2
  have h' := hrank ▸ hh.2
  rw [rank] at h h'
  rw [isFinite, decide_eq_true_eq]
  show x.magnitude < 2047 * 2 ^ 52
  cases hneg : x.isNegative <;> simp only [hneg, Bool.false_eq_true, if_true, if_false] at h h' <;> omega

theorem trunc_mul_one {x : Binary64} (h : (one : ℤ) ∣ x.signedUnits) : x.trunc * one = x.signedUnits := by
  have hdvd : one ∣ x.units := by
    rw [← natAbs_signedUnits]
    exact Int.natCast_dvd.1 h
  have hdiv : ((x.units / one : ℕ) : ℤ) * one = x.units := by exact_mod_cast Nat.div_mul_cancel hdvd
  rw [trunc, signedUnits]
  split
  · rw [Int.neg_mul, hdiv]
  · exact hdiv

theorem toInt_truncInt64 {x : Binary64} (hlow : -2 ^ 63 ≤ x.trunc) (hhigh : x.trunc < 2 ^ 63) :
    x.truncInt64.toInt = x.trunc := by
  have hmin : Int64.minValue.toInt = -2 ^ 63 := by decide
  have hmax : Int64.maxValue.toInt = 2 ^ 63 - 1 := by decide
  rw [truncInt64, hmin, hmax, max_eq_right (by omega), min_eq_right (by omega)]
  exact Int64.toInt_ofInt_of_le hlow hhigh

theorem toInt64?_eq_some_iff {x : Binary64} {i : Int64} :
    x.toInt64? = some i ↔ x.isFinite ∧ x.signedUnits = i.toInt * one := by
  rw [toInt64?]
  split
  next h =>
    rw [Bool.and_eq_true, Bool.and_eq_true] at h
    obtain ⟨⟨hfract, hlow⟩, hhigh⟩ := h
    obtain ⟨hnan, hl⟩ := neg_bound_le_iff.1 hlow
    have hh := (lt_bound_iff.1 hhigh).2
    have hx := isFinite_of_bounds hnan hl hh
    have htrunc := trunc_mul_one ((fract_eq_zero_iff hx).1 hfract)
    rw [← htrunc] at hl hh ⊢
    rw [← Int.neg_mul] at hl
    have hi := toInt_truncInt64 (le_of_mul_le_mul_right hl one_posInt) (lt_of_mul_lt_mul_right hh one_posInt.le)
    rw [Option.some_inj, ← Int64.toInt_inj, hi, mul_left_inj' one_posInt.ne']
    exact (and_iff_right hx).symm
  next h =>
    refine iff_of_false nofun fun ⟨hx, hs⟩ => h ?_
    have hnan := isNaN_of_isFinite hx
    rw [Bool.and_eq_true, Bool.and_eq_true, fract_eq_zero_iff hx, neg_bound_le_iff, lt_bound_iff, hs, ← Int.neg_mul]
    exact ⟨⟨Dvd.intro_left _ rfl, hnan, mul_le_mul_of_nonneg_right i.le_toInt one_posInt.le⟩, hnan,
      mul_lt_mul_of_pos_right i.toInt_lt one_posInt⟩

theorem exists_toInt64 {x : Binary64} {n : ℤ} (hx : x.isFinite) (hs : x.signedUnits = n * one)
    (hlow : -2 ^ 63 ≤ n) (hhigh : n < 2 ^ 63) : ∃ i : Int64, x.toInt64? = some i ∧ i.toInt = n := by
  have hi : (Int64.ofInt n).toInt = n := Int64.toInt_ofInt_of_le hlow hhigh
  exact ⟨.ofInt n, toInt64?_eq_some_iff.2 ⟨hx, by rw [hi, hs]⟩, hi⟩

theorem neg_ediv_lt_bound {x : Binary64} (h : x.signedUnits < 2 ^ 63 * one) : -(-x.signedUnits / one) < 2 ^ 63 := by
  by_cases hdvd : one ∣ x.units
  · have hs : (one : ℤ) ∣ -x.signedUnits := by
      rw [Int.dvd_neg, ← Int.dvd_natAbs, natAbs_signedUnits]
      exact Int.natCast_dvd_natCast.2 hdvd
    refine lt_of_mul_lt_mul_right ?_ one_posInt.le
    rw [Int.neg_mul, Int.ediv_mul_cancel hs, Int.neg_neg]
    exact h
  · have hlt : (x.units : ℤ) < 2 ^ 52 * one := by exact_mod_cast units_lt_of_not_dvd hdvd
    have hs : -(2 ^ 52 * one : ℤ) ≤ -x.signedUnits := by
      rw [← natAbs_signedUnits] at hlt
      omega
    have hq : -2 ^ 52 ≤ -x.signedUnits / one := Int.le_ediv_of_mul_le one_posInt (by rw [Int.neg_mul]; exact hs)
    omega

theorem int_mul_one_lt (i : Int64) : i.toInt * one < 2 ^ 63 * (one : ℤ) :=
  mul_lt_mul_of_pos_right i.toInt_lt one_posInt

theorem le_int_mul_one (i : Int64) : -(2 ^ 63 * (one : ℤ)) ≤ i.toInt * one := by
  rw [← Int.neg_mul]
  exact mul_le_mul_of_nonneg_right i.le_toInt one_posInt.le

theorem intLt_iff (i : Int64) (x : Binary64) :
    x.intLt i ↔ x.isNaN = false ∧ i.toInt * one < x.signedUnits := by
  cases hnan : x.isNaN with
  | true => simp [intLt, hnan]
  | false =>
    have hi := int_mul_one_lt i
    have hi' := le_int_mul_one i
    rw [intLt, hnan, if_neg Bool.false_ne_true]
    simp only [bound_le_iff, le_neg_bound_iff, hnan, true_and]
    split
    next h => exact iff_of_true rfl (by omega)
    next hhigh =>
    split
    next h => exact iff_of_false Bool.false_ne_true (by omega)
    next hlow =>
    have hx : x.isFinite := isFinite_of_bounds hnan (by omega) (by omega)
    obtain ⟨hc, hs⟩ := ceil_spec hx
    have hle : -x.signedUnits / one < 2 ^ 63 := (Int.ediv_lt_iff_lt_mul one_posInt).2 (by omega)
    obtain ⟨n, hn, hint⟩ := exists_toInt64 hc hs (by omega) (neg_ediv_lt_bound (by omega))
    have hquot := Int.ediv_lt_iff_lt_mul one_posInt (a := -x.signedUnits) (b := -i.toInt)
    rw [hn, decide_eq_true_eq, Int64.lt_iff_toInt_lt, hint]
    rw [Int.neg_mul] at hquot
    omega

theorem ltInt_iff (x : Binary64) (i : Int64) :
    x.ltInt i ↔ x.isNaN = false ∧ x.signedUnits < i.toInt * one := by
  cases hnan : x.isNaN with
  | true => simp [ltInt, hnan]
  | false =>
    have hi := int_mul_one_lt i
    have hi' := le_int_mul_one i
    rw [ltInt, hnan, if_neg Bool.false_ne_true]
    simp only [bound_le_iff, lt_neg_bound_iff, hnan, true_and]
    split
    next h => exact iff_of_false Bool.false_ne_true (by omega)
    next hhigh =>
    split
    next h => exact iff_of_true rfl (by omega)
    next hlow =>
    have hx : x.isFinite := isFinite_of_bounds hnan (by omega) (by omega)
    obtain ⟨hf, hs⟩ := floor_spec hx
    have hge : -2 ^ 63 ≤ x.signedUnits / one := Int.le_ediv_of_mul_le one_posInt (by rw [Int.neg_mul]; omega)
    have hlt : x.signedUnits / one < 2 ^ 63 := (Int.ediv_lt_iff_lt_mul one_posInt).2 (by omega)
    obtain ⟨n, hn, hint⟩ := exists_toInt64 hf hs hge hlt
    rw [hn, decide_eq_true_eq, Int64.lt_iff_toInt_lt, hint]
    exact Int.ediv_lt_iff_lt_mul one_posInt

def rationalAt (exponent fraction : ℕ) : ℚ :=
  if exponent = 0 then fraction / 2 ^ 52 * 2 ^ (-1022 : ℤ)
  else (1 + fraction / 2 ^ 52) * 2 ^ ((exponent : ℤ) - 1023)

/-- The number that a finite double denotes. -/
def rational (x : Binary64) : ℚ :=
  let absolute := rationalAt (x.magnitude / 2 ^ 52) (x.magnitude % 2 ^ 52)
  if x.isNegative then -absolute else absolute

theorem cast_one_eq : (one : ℚ) = 2 ^ 52 * 2 ^ (1022 : ℤ) := by
  obtain ⟨p, hp⟩ : ∃ p : ℕ, p = 1022 := ⟨_, rfl⟩
  have hone : one = 2 ^ (52 + p) := hp ▸ one_eq
  have hz : (1022 : ℤ) = p := by rw [hp]; rfl
  rw [hz, hone, Nat.cast_pow, pow_add, zpow_natCast]
  rfl

theorem rationalAt_mul_one (m : ℕ) : rationalAt (m / 2 ^ 52) (m % 2 ^ 52) * one = unitsAt m := by
  rw [unitsAt, rationalAt, cast_one_eq]
  generalize m % 2 ^ 52 = r
  generalize m / 2 ^ 52 = e
  have hpos : (2 : ℚ) ^ (1022 : ℤ) ≠ 0 := zpow_ne_zero _ two_ne_zero
  cases e with
  | zero =>
    rw [if_pos rfl, if_pos rfl, zpow_neg]
    generalize (2 : ℚ) ^ (1022 : ℤ) = p at hpos ⊢
    field_simp
  | succ f =>
    have hexp : ((f + 1 : ℕ) : ℤ) - 1023 = f - 1022 := by push_cast; ring
    rw [if_neg (Nat.succ_ne_zero f), if_neg (Nat.succ_ne_zero f), hexp, zpow_sub₀ two_ne_zero, zpow_natCast]
    generalize (2 : ℚ) ^ (1022 : ℤ) = p at hpos ⊢
    push_cast [Nat.add_sub_cancel]
    field_simp
    norm_num

theorem rational_mul_one (x : Binary64) : x.rational * one = x.signedUnits := by
  have h := rationalAt_mul_one x.magnitude
  rw [signedUnits, units_eq, rational]
  cases x.isNegative
  · rw [if_neg Bool.false_ne_true, if_neg Bool.false_ne_true, h, Int.cast_natCast]
  · rw [if_pos rfl, if_pos rfl, neg_mul, h, Int.cast_neg, Int.cast_natCast]

theorem bound_lt_infinite : 2 ^ 63 * one < unitsAt infinite := by
  have hm : bound.magnitude < infinite := by decide
  rw [← units_bound, units_eq]
  exact strictMono_unitsAt hm

end Binary64

namespace Number

/-- The number in units of 2^-1074, with the infinities beyond the rest. -/
def scaled : Number → ℤ
  | .int i => i.toInt * Binary64.one
  | .float x => x.signedUnits

def isNaN : Number → Bool
  | .int _ => false
  | .float x => x.isNaN

/-- What a number denotes: a rational, or one of the two extremes; a NaN denotes nothing. -/
def reading? : Number → Option (WithBotTop ℚ)
  | .int i => some (i.toInt : ℚ)
  | .float x =>
    if x.isNaN then none
    else if x.isInfinite then some (if x.isNegative then ⊥ else ⊤)
    else some x.rational

theorem scaled_lt_iff (i j : Int64) : (int i).scaled < (int j).scaled ↔ i < j := by
  rw [Int64.lt_iff_toInt_lt]
  exact mul_lt_mul_iff_left₀ Binary64.one_posInt

theorem lt_iff (a b : Number) : a.lt b ↔ a.isNaN = false ∧ b.isNaN = false ∧ a.scaled < b.scaled := by
  cases a with
  | int i =>
    cases b with
    | int j => simp [lt, isNaN, scaled_lt_iff]
    | float y => exact (Binary64.intLt_iff i y).trans (and_iff_right rfl).symm
  | float x =>
    cases b with
    | int j => exact (Binary64.ltInt_iff x j).trans (and_congr_right fun _ => (and_iff_right rfl).symm)
    | float y => exact Binary64.lt_iff

theorem le_iff (a b : Number) : a.le b ↔ a.isNaN = false ∧ b.isNaN = false ∧ a.scaled ≤ b.scaled := by
  cases a with
  | int i =>
    cases b with
    | int j =>
      rw [← not_lt, scaled_lt_iff]
      simp [le, isNaN]
    | float y =>
      have hle : (int i).le (float y) ↔ y.isNaN = false ∧ ¬(float y).lt (int i) := by simp [le, lt]
      rw [hle, lt_iff, ← not_lt]
      simp +contextual [isNaN]
  | float x =>
    cases b with
    | int j =>
      have hle : (float x).le (int j) ↔ x.isNaN = false ∧ ¬(int j).lt (float x) := by simp [le, lt]
      rw [hle, lt_iff, ← not_lt]
      simp +contextual [isNaN]
    | float y => exact Binary64.le_iff

theorem isFinite_of_scaled_eq {x : Binary64} {i : Int64} (hnan : x.isNaN = false)
    (h : (float x).scaled = (int i).scaled) : x.isFinite := by
  have hlow := Binary64.le_int_mul_one i
  have hhigh := Binary64.int_mul_one_lt i
  exact Binary64.isFinite_of_bounds hnan (hlow.trans_eq h.symm) (h.trans_lt hhigh)

theorem toInt64?_beq_iff (x : Binary64) (i : Int64) :
    (x.toInt64? == some i) ↔ x.isNaN = false ∧ (float x).scaled = (int i).scaled := by
  rw [beq_iff_eq, Binary64.toInt64?_eq_some_iff]
  exact ⟨fun ⟨hx, h⟩ => ⟨Binary64.isNaN_of_isFinite hx, h⟩,
    fun ⟨hnan, h⟩ => ⟨isFinite_of_scaled_eq hnan h, h⟩⟩

theorem rawEqual_iff (a b : Number) :
    (Value.ofNumber a).rawEqual (.ofNumber b) ↔ a.isNaN = false ∧ b.isNaN = false ∧ a.scaled = b.scaled := by
  cases a with
  | int i =>
    cases b with
    | int j =>
      have h : (int i).scaled = (int j).scaled ↔ i = j := by
        rw [← Int64.toInt_inj]
        exact mul_left_inj' Binary64.one_posInt.ne'
      rw [h]
      simp [Value.rawEqual, Value.ofNumber, isNaN]
    | float y =>
      rw [eq_comm (b := (float y).scaled)]
      exact (toInt64?_beq_iff y i).trans (and_iff_right rfl).symm
  | float x =>
    cases b with
    | int j => exact (toInt64?_beq_iff x j).trans (and_congr_right fun _ => (and_iff_right rfl).symm)
    | float y => exact Binary64.eq_iff

theorem reading?_eq_none_iff (a : Number) : a.reading? = none ↔ a.isNaN := by
  cases a with
  | int i => simp [reading?, isNaN]
  | float x =>
    rw [reading?, isNaN]
    split
    next h => simp [h]
    next h => split <;> simp [h]

/-- A reading is an extreme, or the number of units divided by how many make one. -/
theorem reading?_cases {a : Number} {u : WithBotTop ℚ} (h : a.reading? = some u) :
    (u = ⊥ ∧ a.scaled = -Binary64.unitsAt Binary64.infinite) ∨
    (u = ⊤ ∧ a.scaled = Binary64.unitsAt Binary64.infinite) ∨
    ∃ q : ℚ, u = q ∧ q * Binary64.one = a.scaled ∧ |a.scaled| < Binary64.unitsAt Binary64.infinite := by
  cases a with
  | int i =>
    have hbound : 2 ^ 63 * (Binary64.one : ℤ) < Binary64.unitsAt Binary64.infinite := by
      exact_mod_cast Binary64.bound_lt_infinite
    have hlow := Binary64.le_int_mul_one i
    have hhigh := Binary64.int_mul_one_lt i
    refine .inr (.inr ⟨i.toInt, (Option.some.inj h).symm, by simp [scaled], abs_lt.2 ⟨?_, ?_⟩⟩)
    · exact lt_of_lt_of_le (neg_lt_neg hbound) hlow
    · exact hhigh.trans hbound
  | float x =>
    rw [reading?] at h
    split at h
    · cases h
    next hnan =>
    split at h
    next hinf =>
      have hs := Binary64.signedUnits_of_isInfinite hinf
      cases hneg : x.isNegative <;> simp only [hneg, Bool.false_eq_true, if_true, if_false] at h hs
      · exact .inr (.inl ⟨(Option.some.inj h).symm, hs⟩)
      · exact .inl ⟨(Option.some.inj h).symm, hs⟩
    next hinf =>
      have hx : x.isFinite :=
        Binary64.isFinite_iff_not.2 ⟨Bool.eq_false_of_not_eq_true hnan, Bool.eq_false_of_not_eq_true hinf⟩
      exact .inr (.inr ⟨x.rational, (Option.some.inj h).symm, x.rational_mul_one, Binary64.abs_signedUnits_lt hx⟩)

section

variable {a b : Number} {u v : WithBotTop ℚ}

theorem reading_lt_iff (ha : a.reading? = some u) (hb : b.reading? = some v) :
    u < v ↔ a.scaled < b.scaled := by
  have hone : (0 : ℚ) < Binary64.one := Nat.cast_pos.2 Binary64.one_pos
  have hm : (0 : ℤ) < Binary64.unitsAt Binary64.infinite := Int.natCast_pos.2 Binary64.unitsAt_infinite_pos
  have hbot : ∀ q : ℚ, (⊥ : WithBotTop ℚ) < q := fun _ => WithBot.bot_lt_coe _
  have htop : ∀ q : ℚ, (q : WithBotTop ℚ) < ⊤ := fun q => WithBot.coe_lt_coe.2 (WithTop.coe_lt_top q)
  have hu := reading?_cases ha
  have hv := reading?_cases hb
  generalize (Binary64.unitsAt Binary64.infinite : ℤ) = m at hm hu hv
  simp only [abs_lt] at hu hv
  obtain ⟨rfl, hu⟩ | ⟨rfl, hu⟩ | ⟨q, rfl, hu, hum⟩ := hu <;>
    obtain ⟨rfl, hv⟩ | ⟨rfl, hv⟩ | ⟨r, rfl, hv, hvm⟩ := hv
  -- two rationals
  case inr.inr.inr.inr =>
    rw [WithBotTop.coe_lt_coe, ← mul_lt_mul_iff_left₀ hone, hu, hv, Int.cast_lt]
  -- an extreme above the other number, or at it
  case inl.inr.inl => exact iff_of_true bot_lt_top (by omega)
  case inl.inr.inr => exact iff_of_true (hbot r) (by omega)
  case inr.inr.inr.inl => exact iff_of_true (htop q) (by omega)
  case inl.inl => exact iff_of_false (lt_irrefl _) (by omega)
  case inr.inl.inl => exact iff_of_false not_lt_bot (by omega)
  case inr.inl.inr.inl => exact iff_of_false (lt_irrefl _) (by omega)
  case inr.inl.inr.inr => exact iff_of_false not_top_lt (by omega)
  case inr.inr.inl => exact iff_of_false not_lt_bot (by omega)

theorem reading_le_iff (ha : a.reading? = some u) (hb : b.reading? = some v) :
    u ≤ v ↔ a.scaled ≤ b.scaled := by
  rw [← not_lt, reading_lt_iff hb ha, not_lt]

theorem reading_inj (ha : a.reading? = some u) (hb : b.reading? = some v) :
    u = v ↔ a.scaled = b.scaled := by
  rw [le_antisymm_iff, reading_le_iff ha hb, reading_le_iff hb ha, ← le_antisymm_iff]

end

theorem exists_reading {a : Number} (h : a.isNaN = false) : ∃ u, a.reading? = some u := by
  rw [← Option.ne_none_iff_exists', Ne, reading?_eq_none_iff, h]
  exact Bool.false_ne_true

end Number

namespace Value

theorem less?_ofNumber (a b : Number) : less? (.ofNumber a) (.ofNumber b) = some (a.lt b) := by
  cases a <;> cases b <;> rfl

theorem lessEqual?_ofNumber (a b : Number) : lessEqual? (.ofNumber a) (.ofNumber b) = some (a.le b) := by
  cases a <;> cases b <;> rfl

/-- Two numbers compare as what they denote does. So one is less, or they are equal, or the other is less, and the
order is transitive through numbers of both kinds. A NaN compares with nothing. -/
theorem comparisons_exact (a b c : Number) :
    (a.isNaN = false → b.isNaN = false →
      (∃ u v, a.reading? = some u ∧ b.reading? = some v ∧
        less? (.ofNumber a) (.ofNumber b) = some (decide (u < v)) ∧
        lessEqual? (.ofNumber a) (.ofNumber b) = some (decide (u ≤ v)) ∧
        rawEqual (.ofNumber a) (.ofNumber b) = decide (u = v)) ∧
      ((less? (.ofNumber a) (.ofNumber b) = some true ∧ rawEqual (.ofNumber a) (.ofNumber b) = false ∧
          less? (.ofNumber b) (.ofNumber a) = some false) ∨
        (less? (.ofNumber a) (.ofNumber b) = some false ∧ rawEqual (.ofNumber a) (.ofNumber b) = true ∧
          less? (.ofNumber b) (.ofNumber a) = some false) ∨
        (less? (.ofNumber a) (.ofNumber b) = some false ∧ rawEqual (.ofNumber a) (.ofNumber b) = false ∧
          less? (.ofNumber b) (.ofNumber a) = some true))) ∧
    (less? (.ofNumber a) (.ofNumber b) = some true → less? (.ofNumber b) (.ofNumber c) = some true →
      less? (.ofNumber a) (.ofNumber c) = some true) ∧
    (lessEqual? (.ofNumber a) (.ofNumber b) = some true → lessEqual? (.ofNumber b) (.ofNumber c) = some true →
      lessEqual? (.ofNumber a) (.ofNumber c) = some true) ∧
    (rawEqual (.ofNumber a) (.ofNumber b) = true → rawEqual (.ofNumber b) (.ofNumber c) = true →
      rawEqual (.ofNumber a) (.ofNumber c) = true) ∧
    (a.isNaN ∨ b.isNaN →
      less? (.ofNumber a) (.ofNumber b) = some false ∧ lessEqual? (.ofNumber a) (.ofNumber b) = some false ∧
      rawEqual (.ofNumber a) (.ofNumber b) = false) := by
  simp only [less?_ofNumber, lessEqual?_ofNumber, Option.some_inj]
  refine ⟨fun ha hb => ⟨?_, ?_⟩, fun hab hbc => ?_, fun hab hbc => ?_, fun hab hbc => ?_, fun hnan => ?_⟩
  · obtain ⟨u, hu⟩ := Number.exists_reading ha
    obtain ⟨v, hv⟩ := Number.exists_reading hb
    refine ⟨u, v, hu, hv, ?_, ?_, ?_⟩ <;> rw [Bool.eq_iff_iff, decide_eq_true_eq]
    · rw [Number.lt_iff, Number.reading_lt_iff hu hv, and_iff_right ha, and_iff_right hb]
    · rw [Number.le_iff, Number.reading_le_iff hu hv, and_iff_right ha, and_iff_right hb]
    · rw [Number.rawEqual_iff, Number.reading_inj hu hv, and_iff_right ha, and_iff_right hb]
  · simp only [← Bool.not_eq_true, Number.lt_iff, Number.rawEqual_iff, ha, hb, true_and]
    omega
  · rw [Number.lt_iff] at hab hbc ⊢
    exact ⟨hab.1, hbc.2.1, hab.2.2.trans hbc.2.2⟩
  · rw [Number.le_iff] at hab hbc ⊢
    exact ⟨hab.1, hbc.2.1, hab.2.2.trans hbc.2.2⟩
  · rw [Number.rawEqual_iff] at hab hbc ⊢
    exact ⟨hab.1, hbc.2.1, hab.2.2.trans hbc.2.2⟩
  · simp only [← Bool.not_eq_true, Number.lt_iff, Number.le_iff, Number.rawEqual_iff]
    obtain h | h := hnan <;> simp [h]

/-- 2^53, the integer after it, which no double is, and infinity. -/
theorem comparisons_exact_past_doubles :
    (∃ u v, (Number.float ⟨0x4340000000000000⟩).reading? = some u ∧
      (Number.int 9007199254740993).reading? = some v ∧ u < v) ∧
    rawEqual (.float ⟨0x4340000000000000⟩) (.int 9007199254740993) = false ∧
    less? (.float ⟨0x4340000000000000⟩) (.float ⟨0x7ff0000000000000⟩) = some true ∧
    lessEqual? (.float ⟨0x4340000000000000⟩) (.float ⟨0x7ff0000000000000⟩) = some true ∧
    rawEqual (.int 9007199254740992) (.int 9007199254740992) = true ∧
    less? (.float .nan) (.int 0) = some false := by
  obtain ⟨hexact, hless, hle, -, -⟩ :=
    comparisons_exact (.float ⟨0x4340000000000000⟩) (.int 9007199254740993) (.float ⟨0x7ff0000000000000⟩)
  obtain ⟨⟨u, v, hu, hv, hlt, -, -⟩, -⟩ := hexact (by decide) rfl
  have hlt' : less? (.float ⟨0x4340000000000000⟩) (.int 9007199254740993) = some true := by decide +kernel
  have hne : rawEqual (.float ⟨0x4340000000000000⟩) (.int 9007199254740993) = false := by decide +kernel
  obtain ⟨-, -, -, hequal, -⟩ :=
    comparisons_exact (.int 9007199254740992) (.float ⟨0x4340000000000000⟩) (.int 9007199254740992)
  obtain ⟨-, -, -, -, hnan⟩ := comparisons_exact (.float .nan) (.int 0) (.int 0)
  refine ⟨⟨u, v, hu, hv, of_decide_eq_true (Option.some.inj (hlt.symm.trans hlt'))⟩, hne, ?_, ?_, ?_, ?_⟩
  · exact hless hlt' (by decide +kernel)
  · exact hle (by decide +kernel) (by decide +kernel)
  · exact hequal (by decide +kernel) (by decide +kernel)
  · exact (hnan (.inl (by decide))).1

end Value
end RegisterMachine
