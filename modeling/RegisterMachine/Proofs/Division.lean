import Mathlib.Data.Rat.Floor
import Mathlib.Tactic.Linarith
import RegisterMachine.Operator
import RegisterMachine.Proofs.Doubles

/-! Division of integers rounds down, and shifts multiply and divide by powers of two, whatever the operands
are: no operation on the way traps. What a double leaves that is divided by an infinity is decided by the signs. -/
namespace RegisterMachine
namespace Division

theorem fdiv_eq_floor (a b : ℤ) : a.fdiv b = ⌊(a : ℚ) / b⌋ := by
  obtain ⟨n, rfl | rfl⟩ := b.eq_nat_or_neg
  · rw [Int.fdiv_eq_ediv_of_nonneg a (Int.natCast_nonneg n), Int.cast_natCast,
      Rat.floor_intCast_div_natCast]
  · -- both signs change at once
    have hneg : (a : ℚ) / ((-(n : ℤ) : ℤ) : ℚ) = ((-a : ℤ) : ℚ) / n := by
      rw [Int.cast_neg, Int.cast_neg, Int.cast_natCast, div_neg, neg_div]
    rw [hneg, Rat.floor_intCast_div_natCast, ← Int.fdiv_eq_ediv_of_nonneg _ (Int.natCast_nonneg n),
      ← Int.neg_fdiv_neg, neg_neg]

theorem fmod_range (a : ℤ) {b : ℤ} (h : b ≠ 0) :
    0 < b ∧ 0 ≤ a.fmod b ∧ a.fmod b < b ∨ b < 0 ∧ b < a.fmod b ∧ a.fmod b ≤ 0 := by
  obtain hb | hb := lt_or_gt_of_ne h
  · have hneg : 0 < -b := neg_pos.2 hb
    have hlow := Int.fmod_nonneg_of_pos (-a) hneg
    have hhigh := Int.fmod_lt_of_pos (-a) hneg
    rw [Int.neg_fmod_neg] at hlow hhigh
    exact .inr ⟨hb, by omega, by omega⟩
  · exact .inl ⟨hb, Int.fmod_nonneg_of_pos a hb, Int.fmod_lt_of_pos a hb⟩

theorem sign_fmod (a : ℤ) {b : ℤ} (h : b ≠ 0) : a.fmod b = 0 ∨ (a.fmod b).sign = b.sign := by
  obtain ⟨hb, hlow, -⟩ | ⟨hb, -, hhigh⟩ := fmod_range a h
  · refine (eq_or_lt_of_le hlow).imp Eq.symm fun hlt => ?_
    rw [Int.sign_eq_one_of_pos hlt, Int.sign_eq_one_of_pos hb]
  · refine (eq_or_lt_of_le hhigh).imp_right fun hlt => ?_
    rw [Int.sign_eq_neg_one_of_neg hlt, Int.sign_eq_neg_one_of_neg hb]

theorem abs_fmod_lt (a : ℤ) {b : ℤ} (h : b ≠ 0) : |a.fmod b| < |b| := by
  obtain ⟨hb, hlow, hhigh⟩ | ⟨hb, hlow, hhigh⟩ := fmod_range a h
  · rwa [abs_of_nonneg hlow, abs_of_pos hb]
  · rw [abs_of_nonpos hhigh, abs_of_neg hb]
    omega

variable {x y : Int64}

theorem toInt_fmod (h : y ≠ 0) :
    (Int64.ofInt (x.toInt.fmod y.toInt)).toInt = x.toInt.fmod y.toInt := by
  have hlow := Int64.le_toInt y
  have hhigh := Int64.toInt_lt y
  have hrange := fmod_range x.toInt (toInt_ne_zero h)
  exact Int64.toInt_ofInt_of_le (by omega) (by omega)

theorem fdiv_mul_add_fmod (x y : Int64) :
    Int64.ofInt (x.toInt.fdiv y.toInt) * y + Int64.ofInt (x.toInt.fmod y.toInt) = x := by
  calc Int64.ofInt (x.toInt.fdiv y.toInt) * y + Int64.ofInt (x.toInt.fmod y.toInt)
      = Int64.ofInt (x.toInt.fdiv y.toInt * y.toInt + x.toInt.fmod y.toInt) := by
        rw [Int64.ofInt_add, Int64.ofInt_mul, Int64.ofInt_toInt]
    _ = x := by rw [Int.fdiv_mul_add_fmod, Int64.ofInt_toInt]

/-- The bits of an integer moved up by a number of places, or down by a negative one: a multiple by a power of
two, modulo 2^64, or the whole part of what the unsigned number gives when it is divided by one. -/
def moved (x : Int64) (n : ℤ) : Int64 :=
  if 0 ≤ n then Int64.ofInt (x.toInt * 2 ^ n.toNat)
  else (UInt64.ofNat (x.toUInt64.toNat / 2 ^ (-n).toNat)).toInt64

theorem moved_of_le {n : ℤ} (h : 64 ≤ n) : moved x n = 0 := by
  obtain ⟨k, hk⟩ : ∃ k, n.toNat = 64 + k := ⟨n.toNat - 64, by omega⟩
  have hpow : Int64.ofInt (2 ^ 64) = 0 := rfl
  rw [moved, if_pos (by omega), hk, pow_add, Int64.ofInt_mul, Int64.ofInt_mul, hpow, Int64.zero_mul,
    Int64.mul_zero]

theorem moved_of_ge {n : ℤ} (h : n ≤ -64) : moved x n = 0 := by
  have hlt : x.toUInt64.toNat < 2 ^ (-n).toNat :=
    lt_of_lt_of_le x.toUInt64.toNat_lt (Nat.pow_le_pow_right two_pos (by omega))
  rw [moved, if_neg (by omega), Nat.div_eq_of_lt hlt]
  rfl

theorem toNat_count {n : Int64} (h : 0 ≤ n.toInt) (h' : n.toInt < 64) :
    n.toUInt64.toNat % 64 = n.toInt.toNat := by
  have hn : n.toUInt64.toNat = n.toInt.toNat := Int64.toNat_toUInt64_of_le (Int64.le_iff_toInt_le.2 h)
  rw [hn, Nat.mod_eq_of_lt (by omega)]

theorem shiftLeft_eq_moved {n : Int64} (h : 0 ≤ n.toInt) (h' : n.toInt < 64) :
    (x.toUInt64 <<< n.toUInt64).toInt64 = moved x n.toInt := by
  have hshift : x.toUInt64 <<< n.toUInt64 = x.toUInt64 * UInt64.ofNat (2 ^ n.toInt.toNat) := by
    rw [← UInt64.toNat_inj, UInt64.toNat_shiftLeft, UInt64.toNat_mul, toNat_count h h', Nat.shiftLeft_eq,
      UInt64.toNat_ofNat', Nat.mul_mod_mod]
  have hpow : Int64.ofNat (2 ^ n.toInt.toNat) = Int64.ofInt (2 ^ n.toInt.toNat) := by
    rw [← Int64.ofInt_eq_ofNat, Nat.cast_pow, Nat.cast_ofNat]
  rw [hshift, UInt64.toInt64_mul, Int64.toInt64_toUInt64, UInt64.toInt64_ofNat', hpow, moved, if_pos h,
    Int64.ofInt_mul, Int64.ofInt_toInt]

theorem shiftRight_eq_moved {n : Int64} (h : 0 < n.toInt) (h' : n.toInt < 64) :
    (x.toUInt64 >>> n.toUInt64).toInt64 = moved x (-n.toInt) := by
  have hshift : x.toUInt64 >>> n.toUInt64 = UInt64.ofNat (x.toUInt64.toNat / 2 ^ n.toInt.toNat) := by
    have hlt : x.toUInt64.toNat / 2 ^ n.toInt.toNat < 2 ^ 64 :=
      lt_of_le_of_lt (Nat.div_le_self _ _) x.toUInt64.toNat_lt
    rw [← UInt64.toNat_inj, UInt64.toNat_shiftRight, toNat_count h.le h', Nat.shiftRight_eq_div_pow,
      UInt64.toNat_ofNat', Nat.mod_eq_of_lt hlt]
  rw [hshift, moved, if_neg (by omega), neg_neg]

theorem shift?_eq (x n : Int64) : shift? x n = some (moved x n.toInt) := by
  unfold shift?
  simp only [Bool.or_eq_true, decide_eq_true_eq, Int64.le_iff_toInt_le]
  change (if n.toInt ≤ -64 ∨ 64 ≤ n.toInt then _ else if 0 ≤ n.toInt then _ else _) = _
  split
  · rename_i hfar
    obtain hfar | hfar := hfar
    · rw [moved_of_ge hfar]
    · rw [moved_of_le hfar]
  · rename_i hnear
    have hcount {k : Int64} (h : 0 ≤ k.toInt) (h' : k.toInt < 64) : Checked.isCount k = true := by
      simp only [Checked.isCount, Bool.and_eq_true, decide_eq_true_eq, Int64.le_iff_toInt_le,
        Int64.lt_iff_toInt_lt]
      exact ⟨h, h'⟩
    split
    · rename_i hpos
      rw [Checked.shiftLeft?, if_pos (hcount hpos (by omega)), shiftLeft_eq_moved hpos (by omega)]
    · rename_i hneg
      have hmin := Int64.toInt_minValue
      have hmax := Int64.toInt_maxValue
      have hn : (Int64.ofInt (-n.toInt)).toInt = -n.toInt := Int64.toInt_ofInt_of_le (by omega) (by omega)
      rw [Checked.neg?, Checked.fit?_eq_some (by omega) (by omega)]
      change Checked.shiftRight? x _ = _
      rw [Checked.shiftRight?, if_pos (hcount (by omega) (by omega)),
        shiftRight_eq_moved (by omega) (by omega), hn, neg_neg]

theorem moved_neg (x n : Int64) : moved x (-n).toInt = moved x (-n.toInt) := by
  by_cases hn : n = Int64.minValue
  · subst hn
    rw [moved_of_ge (n := (-Int64.minValue).toInt) (by decide),
      moved_of_le (n := -Int64.minValue.toInt) (by decide)]
  · have hlow := Int64.le_toInt n
    have hhigh := Int64.toInt_lt n
    have hne : n.toInt ≠ -2 ^ 63 := fun h => hn (Int64.toInt_inj.1 h)
    rw [Int64.toInt_neg, Int.bmod_eq_of_le (by omega) (by omega)]

end Division

namespace Operator

open Division

variable {x y : Int64}

theorem eval?_idiv (h : y ≠ 0) :
    Operator.idiv.eval? (.int x) (.int y) = .ok (some (.int (Int64.ofInt (x.toInt.fdiv y.toInt)))) := by
  show (some ∘ Value.ofNumber) <$> Number.int <$> intDiv x y = _
  simp only [intDiv, h, dif_neg, not_false_eq_true, quotient?_eq h, Option.get_some]
  rfl

theorem eval?_mod (h : y ≠ 0) :
    Operator.mod.eval? (.int x) (.int y) = .ok (some (.int (Int64.ofInt (x.toInt.fmod y.toInt)))) := by
  show (some ∘ Value.ofNumber) <$> Number.int <$> intMod x y = _
  simp only [intMod, h, dif_neg, not_false_eq_true, modulus?_eq h, Option.get_some]
  rfl

theorem eval?_shl (x n : Int64) :
    Operator.shl.eval? (.int x) (.int n) = .ok (some (.int (moved x n.toInt))) := by
  show Except.ok (some (Value.int (shiftLeft x n))) = _
  simp only [shiftLeft, shift?_eq, Option.get_some]

theorem eval?_shr (x n : Int64) :
    Operator.shr.eval? (.int x) (.int n) = .ok (some (.int (moved x (-n.toInt)))) := by
  show Except.ok (some (Value.int (shiftLeft x (-n)))) = _
  simp only [shiftLeft, shift?_eq, Option.get_some, moved_neg]

/-- The quotient of two integers is rounded down, and the remainder is the exact difference to it; shifts multiply and
divide by powers of two. All of it is modulo 2^64, and nothing traps. -/
theorem integers_floor_and_shift (x y : Int64) :
    (y ≠ 0 → ∃ q r : Int64,
      quotient? x y = some q ∧ Operator.idiv.eval? (.int x) (.int y) = .ok (some (.int q)) ∧
      modulus? x y = some r ∧ Operator.mod.eval? (.int x) (.int y) = .ok (some (.int r)) ∧
      q = Int64.ofInt ⌊(x.toInt : ℚ) / y.toInt⌋ ∧
      r.toInt = x.toInt - y.toInt * ⌊(x.toInt : ℚ) / y.toInt⌋ ∧
      (r.toInt = 0 ∨ r.toInt.sign = y.toInt.sign) ∧ |r.toInt| < |y.toInt| ∧ q * y + r = x) ∧
    Operator.idiv.eval? (.int x) (.int 0) = .error .divisionByZero ∧
    Operator.mod.eval? (.int x) (.int 0) = .error .moduloByZero ∧
    shift? x y = some (moved x y.toInt) ∧
    Operator.shl.eval? (.int x) (.int y) = .ok (some (.int (moved x y.toInt))) ∧
    shift? x (-y) = some (moved x (-y.toInt)) ∧
    Operator.shr.eval? (.int x) (.int y) = .ok (some (.int (moved x (-y.toInt)))) := by
  refine ⟨fun h => ?_, rfl, rfl, shift?_eq x y, eval?_shl x y, ?_, eval?_shr x y⟩
  · refine ⟨_, _, quotient?_eq h, eval?_idiv h, modulus?_eq h, eval?_mod h, ?_, ?_, ?_, ?_,
      fdiv_mul_add_fmod x y⟩
    · rw [fdiv_eq_floor]
    · rw [toInt_fmod h, Int.fmod_def, fdiv_eq_floor]
    · rw [toInt_fmod h]
      exact sign_fmod _ (toInt_ne_zero h)
    · rw [toInt_fmod h]
      exact abs_fmod_lt _ (toInt_ne_zero h)
  · rw [shift?_eq, moved_neg]

/-- The least integer by minus one: the quotient, 2^63, comes back as its negative, and nothing is left. -/
theorem integers_floor_and_shift_least :
    (-1 : Int64) ≠ 0 ∧
    Operator.idiv.eval? (.int Int64.minValue) (.int (-1)) = .ok (some (.int Int64.minValue)) ∧
    Operator.mod.eval? (.int Int64.minValue) (.int (-1)) = .ok (some (.int 0)) := by
  obtain ⟨hdiv, -⟩ := integers_floor_and_shift Int64.minValue (-1)
  obtain ⟨q, r, hq, hidiv, hr, hmod, -⟩ := hdiv (by decide)
  have hq' : quotient? Int64.minValue (-1) = some Int64.minValue := by decide +kernel
  have hr' : modulus? Int64.minValue (-1) = some 0 := by decide +kernel
  obtain rfl := Option.some.inj (hq.symm.trans hq')
  obtain rfl := Option.some.inj (hr.symm.trans hr')
  exact ⟨by decide, hidiv, hmod⟩

end Operator

namespace Binary64

section

variable {x y : Binary64}

theorem isNaN_of_isInfinite (hy : y.isInfinite) : y.isNaN = false := by
  simp only [isInfinite, isNaN, beq_iff_eq, decide_eq_false_iff_not] at hy ⊢
  omega

theorem isZero_of_isInfinite (hy : y.isInfinite) : y.isZero = false := by
  have hm : y.magnitude = infinite := beq_iff_eq.1 hy
  rw [isZero, hm]
  rfl

variable (hx : x.isFinite) (hy : y.isInfinite)

include hx hy

theorem rem_infinite : rem x y = x := by
  obtain ⟨hxn, hxi⟩ := isFinite_iff_not.1 hx
  simp [rem, hxn, hxi, hy, isNaN_of_isInfinite hy, isZero_of_isInfinite hy]

theorem add_infinite : add x y = y := by
  obtain ⟨hxn, hxi⟩ := isFinite_iff_not.1 hx
  simp [add, hxn, hxi, hy, isNaN_of_isInfinite hy]

theorem modulus_infinite :
    modulus x y = if x.isZero || x.isNegative == y.isNegative then x else y := by
  have hxn := isNaN_of_isFinite hx
  have hyn := isNaN_of_isInfinite hy
  have hyz := isZero_of_isInfinite hy
  simp only [modulus, rem_infinite hx hy, add_infinite hx hy, eq_zero, lt_zero, hxn, hyn, hyz]
  cases x.isZero <;> cases x.isNegative <;> cases y.isNegative <;> rfl

theorem mod_infinite :
    mod x y = if (!x.isNegative || x.isZero) == !y.isNegative then x else y := by
  have hxn := isNaN_of_isFinite hx
  have hyn := isNaN_of_isInfinite hy
  have hyz := isZero_of_isInfinite hy
  simp only [mod, hx, hy, zero_le, zero_lt, hxn, hyn, hyz]
  cases x.isZero <;> cases x.isNegative <;> cases y.isNegative <;> rfl

end

end Binary64

namespace Operator

open Binary64

/-- The remainder by an infinity is that of the general rule, but for one case: zeros by the negative infinity give that
infinity, and not themselves. -/
theorem remainder_by_infinity (a : Number) {y : Binary64} (hx : a.toBinary64.isFinite) (hy : y.isInfinite) :
    Operator.mod.eval? (.ofNumber a) (.float y) = .ok (some (.float (Binary64.mod a.toBinary64 y))) ∧
    Binary64.mod a.toBinary64 y =
      (if a.toBinary64.isZero && y.isNegative then y else modulus a.toBinary64 y) ∧
    rem a.toBinary64 y = a.toBinary64 ∧
    Binary64.add a.toBinary64 y = y ∧
    modulus a.toBinary64 y =
      if a.toBinary64.isZero || a.toBinary64.isNegative == y.isNegative then a.toBinary64 else y := by
  refine ⟨by cases a <;> rfl, ?_, rem_infinite hx hy, add_infinite hx hy, modulus_infinite hx hy⟩
  rw [mod_infinite hx hy, modulus_infinite hx hy]
  cases a.toBinary64.isZero <;> cases a.toBinary64.isNegative <;> cases y.isNegative <;> rfl

/-- The integer five by the negative infinity. -/
theorem remainder_by_infinity_opposite :
    Operator.mod.eval? (.int 5) (.float ⟨0xfff0000000000000⟩) = .ok (some (.float ⟨0xfff0000000000000⟩)) := by
  obtain ⟨heval, hmod, -, -, hrule⟩ :=
    remainder_by_infinity (.int 5) (y := ⟨0xfff0000000000000⟩) (by decide +kernel) (by decide)
  rw [if_neg (by decide +kernel)] at hmod hrule
  exact heval.trans (by rw [hmod, hrule])

/-- Zero by the negative infinity is not zero, as it is by the general rule. -/
theorem zero_by_negative_infinity :
    Operator.mod.eval? (.float zero) (.float ⟨0xfff0000000000000⟩) =
      .ok (some (.float ⟨0xfff0000000000000⟩)) ∧
    modulus zero ⟨0xfff0000000000000⟩ = zero := by
  decide +kernel

end Operator
end RegisterMachine
