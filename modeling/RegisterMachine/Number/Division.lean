import RegisterMachine.Number.Checked

/-! Division of 64-bit integers that rounds down, and shifts by any count, out of operations that may trap.
None of them does here. -/
namespace RegisterMachine
namespace Division

open Checked

/-- The quotient rounded down, modulo 2^64: the truncated one, less one when that was rounded up. -/
def quotient? (x y : Int64) : Option Int64 :=
  if y = -1 then some (-x)
  else do
    let q ← div? x y
    let r ← rem? x y
    if r ≠ 0 && x ^^^ y < 0 then sub? q 1 else some q

/-- The remainder of the division that rounds down: that of the one that truncates, brought to the sign of the
divisor. -/
def modulus? (x y : Int64) : Option Int64 :=
  if y = -1 then some 0
  else do
    let r ← rem? x y
    if r ≠ 0 && r ^^^ y < 0 then add? r y else some r

/-- Shifts the bits to the left, filling with zeros; a negative count shifts to the right. -/
def shift? (x n : Int64) : Option Int64 :=
  if n ≤ -64 || 64 ≤ n then some 0
  else if 0 ≤ n then shiftLeft? x n
  else do shiftRight? x (← neg? n)

theorem fdiv_eq_ite {a b : Int} (h : b ≠ 0) :
    a.fdiv b = if a.tmod b ≠ 0 ∧ ¬(a < 0 ↔ b < 0) then a.tdiv b - 1 else a.tdiv b := by
  have hdvd : a.tmod b = 0 ↔ b ∣ a := ⟨Int.dvd_of_tmod_eq_zero, Int.tmod_eq_zero_of_dvd⟩
  simp only [Int.fdiv_eq_tdiv, ne_eq, hdvd]
  by_cases hd : b ∣ a
  · simp only [hd, if_true, not_true_eq_false, false_and, if_false, Int.sub_zero]
  · simp only [hd, if_false, not_false_eq_true, true_and]
    obtain hb | hb : b < 0 ∨ 0 < b := by omega
    · have := Int.sign_eq_neg_one_of_neg hb
      split <;> split <;> omega
    · have := Int.sign_eq_one_of_pos hb
      split <;> split <;> omega

theorem tmod_lt_zero_iff {a b : Int} (h : a.tmod b ≠ 0) : a.tmod b < 0 ↔ a < 0 := by
  have hsign := Int.sign_tmod a b
  rw [if_neg fun hd => h (Int.tmod_eq_zero_of_dvd hd)] at hsign
  rw [← Int.sign_eq_neg_one_iff_neg, hsign, Int.sign_eq_neg_one_iff_neg]

theorem fmod_eq_ite {a b : Int} (h : b ≠ 0) :
    a.fmod b = if a.tmod b ≠ 0 ∧ ¬(a.tmod b < 0 ↔ b < 0) then a.tmod b + b else a.tmod b := by
  have hfloor := Int.fmod_def a b
  have htrunc := Int.tmod_def a b
  rw [fdiv_eq_ite h] at hfloor
  by_cases hz : a.tmod b = 0
  · simp only [hz, ne_eq, not_true_eq_false, false_and, if_false] at hfloor ⊢
    omega
  · simp only [tmod_lt_zero_iff hz]
    split at hfloor <;> rename_i hround
    · rw [if_pos hround]
      rw [Int.mul_sub, Int.mul_one] at hfloor
      omega
    · rw [if_neg hround]
      omega

theorem xor_lt_zero_iff {x y : Int64} : x ^^^ y < 0 ↔ ¬(x.toInt < 0 ↔ y.toInt < 0) := by
  have sign (z : Int64) : z.toBitVec.msb = decide (z.toInt < 0) := BitVec.msb_eq_toInt
  have hxor := sign (x ^^^ y)
  rw [Int64.toBitVec_xor, BitVec.msb_xor, sign, sign] at hxor
  rw [Int64.lt_iff_toInt_lt, Int64.toInt_zero, ← decide_eq_true_iff (p := (x ^^^ y).toInt < 0), ← hxor]
  by_cases hx : x.toInt < 0 <;> by_cases hy : y.toInt < 0 <;> simp [hx, hy]

variable {x y : Int64}

theorem toInt_ne_zero (h : y ≠ 0) : y.toInt ≠ 0 := fun h' => h (Int64.toInt_inj.1 h')

theorem minValue_lt_tdiv (x : Int64) {b : Int} (hb : b ≠ 0) (h : x.toInt.tmod b ≠ 0) :
    Int64.minValue.toInt < x.toInt.tdiv b := by
  have hmin := Int64.toInt_minValue
  have hx := Int64.le_toInt x
  have hx' := Int64.toInt_lt x
  have hb : 2 ≤ b.natAbs := by
    refine Nat.lt_of_not_le fun hle => h ?_
    obtain rfl | rfl : b = 1 ∨ b = -1 := by omega
    · exact Int.tmod_one _
    · rw [Int.tmod_neg, Int.tmod_one]
  have hle : x.toInt.natAbs / b.natAbs ≤ x.toInt.natAbs / 2 := Nat.div_le_div_left hb (by decide)
  have habs : (x.toInt.tdiv b).natAbs = x.toInt.natAbs / b.natAbs := Int.natAbs_tdiv _ _
  omega

theorem quotient?_eq (h : y ≠ 0) : quotient? x y = some (Int64.ofInt (x.toInt.fdiv y.toInt)) := by
  unfold quotient?
  split
  · rename_i hy
    have hneg : x.toInt.fdiv (-1) = -x.toInt := by simp [Int.fdiv_neg]
    rw [hy, show (-1 : Int64).toInt = -1 from rfl, hneg, Int64.ofInt_neg, Int64.ofInt_toInt]
  · rename_i hy
    have hq : (x / y).toInt = x.toInt.tdiv y.toInt := Int64.toInt_div_of_ne_right x y hy
    have hr : x % y = 0 ↔ x.toInt.tmod y.toInt = 0 := by
      rw [← Int64.toInt_mod, ← Int64.toInt_inj, Int64.toInt_zero]
    simp only [div?, rem?, divisionTraps_eq_false x h hy, Bool.false_eq_true, if_false, bind, Option.bind,
      Bool.and_eq_true, decide_eq_true_eq, fdiv_eq_ite (toInt_ne_zero h), xor_lt_zero_iff, ne_eq, hr]
    split
    · rename_i hround
      have hlow := minValue_lt_tdiv x (toInt_ne_zero h) hround.1
      have hhigh := Int64.toInt_le (x / y)
      rw [hq] at hhigh
      rw [sub?, hq, Int64.toInt_one, fit?_eq_some] <;> omega
    · rw [← hq, Int64.ofInt_toInt]

theorem modulus?_eq (h : y ≠ 0) : modulus? x y = some (Int64.ofInt (x.toInt.fmod y.toInt)) := by
  unfold modulus?
  split
  · rename_i hy
    have hzero : x.toInt.fmod (-1) = 0 := by simp [Int.fmod_eq_zero_of_dvd]
    rw [hy, show (-1 : Int64).toInt = -1 from rfl, hzero]
    rfl
  · rename_i hy
    have hr : (x % y).toInt = x.toInt.tmod y.toInt := Int64.toInt_mod x y
    have hzero : x % y = 0 ↔ x.toInt.tmod y.toInt = 0 := by rw [← hr, ← Int64.toInt_inj, Int64.toInt_zero]
    simp only [rem?, divisionTraps_eq_false x h hy, Bool.false_eq_true, if_false, bind, Option.bind,
      Bool.and_eq_true, decide_eq_true_eq, fmod_eq_ite (toInt_ne_zero h), xor_lt_zero_iff, ne_eq, hzero, hr]
    split
    · -- the remainder and the divisor have different signs, so that their sum is between them
      have hr₁ := Int64.minValue_le_toInt (x % y)
      have hr₂ := Int64.toInt_le (x % y)
      have hy₁ := Int64.minValue_le_toInt y
      have hy₂ := Int64.toInt_le y
      rw [add?, hr, fit?_eq_some] <;> omega
    · rw [← hr, Int64.ofInt_toInt]

theorem isSome_quotient? (h : y ≠ 0) : (quotient? x y).isSome := by
  rw [quotient?_eq h]
  rfl

theorem isSome_modulus? (h : y ≠ 0) : (modulus? x y).isSome := by
  rw [modulus?_eq h]
  rfl

theorem isSome_shift? (x n : Int64) : (shift? x n).isSome := by
  unfold shift?
  split
  · rfl
  · rename_i hn
    simp only [Bool.or_eq_true, decide_eq_true_eq, Int64.le_iff_toInt_le] at hn
    change ¬(n.toInt ≤ -64 ∨ 64 ≤ n.toInt) at hn
    split
    · rename_i hpos
      have hlt : n < 64 := Int64.lt_iff_toInt_lt.2 (show n.toInt < 64 by omega)
      simp only [shiftLeft?, isCount, hpos, hlt, decide_true, Bool.and_self, if_true, Option.isSome_some]
    · rename_i hneg
      rw [Int64.le_iff_toInt_le] at hneg
      change ¬0 ≤ n.toInt at hneg
      have hmin := Int64.toInt_minValue
      have hmax := Int64.toInt_maxValue
      have hfit : neg? n = some (Int64.ofInt (-n.toInt)) := fit?_eq_some (by omega) (by omega)
      have hcount : isCount (Int64.ofInt (-n.toInt)) = true := by
        have hn' : (Int64.ofInt (-n.toInt)).toInt = -n.toInt := Int64.toInt_ofInt_of_le (by omega) (by omega)
        simp only [isCount, Bool.and_eq_true, decide_eq_true_eq, Int64.le_iff_toInt_le, Int64.lt_iff_toInt_lt, hn']
        change 0 ≤ -n.toInt ∧ -n.toInt < 64
        omega
      simp only [hfit, bind, Option.bind, shiftRight?, hcount, if_true, Option.isSome_some]

end Division
end RegisterMachine
