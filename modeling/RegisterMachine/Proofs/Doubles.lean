import Mathlib.Data.Int.Basic
import Mathlib.Tactic.Linarith
import Mathlib.Tactic.Ring
import RegisterMachine.Number.Whole

/-! What doubles stand for, in units of 2^-1074. Infinities count as if the exponents went on: so the order of
all doubles but NaNs is that of integers. Rounding to a whole number is exact. -/
namespace RegisterMachine
namespace Binary64

theorem isNegative_eq_msb (x : Binary64) : x.isNegative = x.bits.toBitVec.msb := by
  rw [BitVec.msb_eq_decide]
  rfl

theorem magnitude_eq (x : Binary64) : x.magnitude = x.bits.toNat % 2 ^ 63 := by
  rw [magnitude, UInt64.toNat_and]
  exact Nat.and_two_pow_sub_one_eq_mod _ 63

@[simp] theorem isNegative_neg (x : Binary64) : x.neg.isNegative = !x.isNegative := by
  rw [isNegative_eq_msb, isNegative_eq_msb]
  show (x.bits.toBitVec ^^^ 0x8000000000000000#64).msb = _
  rw [BitVec.msb_xor]
  exact Bool.xor_true _

@[simp] theorem magnitude_neg (x : Binary64) : x.neg.magnitude = x.magnitude := by
  rw [magnitude_eq, magnitude_eq, neg, UInt64.toNat_xor, Nat.xor_mod_two_pow]
  exact Nat.xor_zero _

theorem isNegative_ofMagnitude (negative : Bool) {m : ℕ} (h : m < 2 ^ 63) :
    (ofMagnitude negative m).isNegative = negative := by
  have hm : (UInt64.ofNat m).toBitVec.msb = false := by
    rw [BitVec.msb_eq_decide, decide_eq_false_iff_not, Nat.not_le]
    show m % 2 ^ 64 < 2 ^ 63
    omega
  rw [isNegative_eq_msb, ofMagnitude]
  cases negative with
  | false => exact hm
  | true =>
    show (0x8000000000000000#64 ||| (UInt64.ofNat m).toBitVec).msb = true
    rw [BitVec.msb_or, hm]
    rfl

theorem magnitude_ofMagnitude (negative : Bool) {m : ℕ} (h : m < 2 ^ 63) :
    (ofMagnitude negative m).magnitude = m := by
  have hm : (UInt64.ofNat m).toNat % 2 ^ 63 = m := by
    rw [UInt64.toNat_ofNat']
    omega
  rw [magnitude_eq, ofMagnitude]
  cases negative with
  | false => exact hm
  | true =>
    show (0x8000000000000000 ||| UInt64.ofNat m).toNat % 2 ^ 63 = m
    rw [UInt64.toNat_or, Nat.or_mod_two_pow, hm]
    exact Nat.zero_or m

def unitsAt (m : ℕ) : ℕ :=
  if m / 2 ^ 52 = 0 then m % 2 ^ 52 else (2 ^ 52 + m % 2 ^ 52) * 2 ^ (m / 2 ^ 52 - 1)

theorem units_eq (x : Binary64) : x.units = unitsAt x.magnitude := by
  rw [units, unitsAt, Nat.shiftRight_eq_div_pow, Nat.shiftLeft_eq]
  rfl

theorem unitsAt_low {r : ℕ} (h : r < 2 ^ 52) : unitsAt r = r := by
  rw [unitsAt, if_pos (Nat.div_eq_of_lt h), Nat.mod_eq_of_lt h]

theorem unitsAt_succ {f r : ℕ} (h : r < 2 ^ 52) :
    unitsAt ((f + 1) * 2 ^ 52 + r) = (2 ^ 52 + r) * 2 ^ f := by
  have hdiv : ((f + 1) * 2 ^ 52 + r) / 2 ^ 52 = f + 1 := by omega
  have hmod : ((f + 1) * 2 ^ 52 + r) % 2 ^ 52 = r := by omega
  rw [unitsAt, hdiv, hmod, if_neg (Nat.succ_ne_zero f), Nat.add_sub_cancel]

theorem magnitude_cases (m : ℕ) :
    m < 2 ^ 52 ∨ ∃ f r, r < 2 ^ 52 ∧ m = (f + 1) * 2 ^ 52 + r := by
  by_cases hm : m < 2 ^ 52
  · exact .inl hm
  · exact .inr ⟨m / 2 ^ 52 - 1, m % 2 ^ 52, Nat.mod_lt m (Nat.two_pow_pos 52), by omega⟩

theorem strictMono_unitsAt : StrictMono unitsAt := by
  refine strictMono_nat_of_lt_succ fun m => ?_
  obtain hm | ⟨f, r, hr, rfl⟩ := magnitude_cases m
  · rw [unitsAt_low hm]
    obtain hm' | hm' : m + 1 < 2 ^ 52 ∨ m + 1 = (0 + 1) * 2 ^ 52 + 0 := by omega
    · rw [unitsAt_low hm']
      exact Nat.lt_succ_self m
    · rw [hm', unitsAt_succ (by decide)]
      omega
  · have hpos := Nat.two_pow_pos f
    rw [unitsAt_succ hr]
    obtain hr' | hr' : r + 1 < 2 ^ 52 ∨ r + 1 = 2 ^ 52 := by omega
    · rw [Nat.add_assoc, unitsAt_succ hr']
      exact Nat.mul_lt_mul_of_pos_right (by omega) hpos
    · -- the next magnitude has the next exponent
      have hnext : (f + 1) * 2 ^ 52 + r + 1 = (f + 1 + 1) * 2 ^ 52 + 0 := by omega
      calc (2 ^ 52 + r) * 2 ^ f < (2 ^ 52 * 2) * 2 ^ f := Nat.mul_lt_mul_of_pos_right (by omega) hpos
        _ = (2 ^ 52 + 0) * 2 ^ (f + 1) := by rw [Nat.pow_succ' (n := f), Nat.mul_assoc, Nat.add_zero]
        _ = unitsAt ((f + 1) * 2 ^ 52 + r + 1) := by rw [hnext, unitsAt_succ (by decide)]

@[simp] theorem unitsAt_zero : unitsAt 0 = 0 := unitsAt_low (by decide)

theorem unitsAt_eq_zero_iff (m : ℕ) : unitsAt m = 0 ↔ m = 0 :=
  ⟨fun h => strictMono_unitsAt.injective (h.trans unitsAt_zero.symm), fun h => h ▸ unitsAt_zero⟩

@[simp] theorem units_neg (x : Binary64) : x.neg.units = x.units := by
  rw [units_eq, units_eq, magnitude_neg]

@[simp] theorem signedUnits_neg (x : Binary64) : x.neg.signedUnits = -x.signedUnits := by
  rw [signedUnits, signedUnits, isNegative_neg, units_neg]
  cases x.isNegative <;> simp

theorem natAbs_signedUnits (x : Binary64) : x.signedUnits.natAbs = x.units := by
  rw [signedUnits]
  cases x.isNegative <;> simp

@[simp] theorem isFinite_neg (x : Binary64) : x.neg.isFinite = x.isFinite := by
  rw [isFinite, isFinite, magnitude_neg]

theorem isNaN_of_isFinite {x : Binary64} (h : x.isFinite) : x.isNaN = false := by
  simp only [isFinite, isNaN, decide_eq_true_eq, decide_eq_false_iff_not] at h ⊢
  omega

theorem rank_lt_iff (x y : Binary64) : x.rank < y.rank ↔ x.signedUnits < y.signedUnits := by
  have hlt := strictMono_unitsAt.lt_iff_lt (a := x.magnitude) (b := y.magnitude)
  have hgt := strictMono_unitsAt.lt_iff_lt (a := y.magnitude) (b := x.magnitude)
  have hx := unitsAt_eq_zero_iff x.magnitude
  have hy := unitsAt_eq_zero_iff y.magnitude
  rw [rank, rank, signedUnits, signedUnits, units_eq, units_eq]
  cases x.isNegative <;> cases y.isNegative <;> simp only [Bool.false_eq_true, if_true, if_false] <;> omega

theorem rank_inj (x y : Binary64) : x.rank = y.rank ↔ x.signedUnits = y.signedUnits := by
  have h := rank_lt_iff x y
  have h' := rank_lt_iff y x
  omega

theorem lt_iff {x y : Binary64} :
    x.lt y ↔ x.isNaN = false ∧ y.isNaN = false ∧ x.signedUnits < y.signedUnits := by
  simp only [lt, Bool.and_eq_true, Bool.not_eq_true', decide_eq_true_eq, rank_lt_iff, and_assoc]

theorem le_iff {x y : Binary64} :
    x.le y ↔ x.isNaN = false ∧ y.isNaN = false ∧ x.signedUnits ≤ y.signedUnits := by
  have h := rank_lt_iff y x
  simp only [le, Bool.and_eq_true, Bool.not_eq_true', decide_eq_true_eq, and_assoc]
  rw [← not_lt, h, not_lt]

theorem eq_iff {x y : Binary64} :
    x.eq y ↔ x.isNaN = false ∧ y.isNaN = false ∧ x.signedUnits = y.signedUnits := by
  simp only [eq, Bool.and_eq_true, Bool.not_eq_true', beq_iff_eq, rank_inj, and_assoc]

theorem rank_eq_zero_iff (x : Binary64) : x.rank = 0 ↔ x.magnitude = 0 := by
  rw [rank]
  split <;> omega

theorem rank_neg_iff (x : Binary64) : x.rank < 0 ↔ x.isNegative ∧ x.isZero = false := by
  rw [rank, isZero, beq_eq_false_iff_ne]
  cases x.isNegative
  · simp
  · simp
    omega

theorem rank_pos_iff (x : Binary64) : 0 < x.rank ↔ x.isNegative = false ∧ x.isZero = false := by
  rw [rank, isZero, beq_eq_false_iff_ne]
  cases x.isNegative
  · simp
    omega
  · simp

theorem eq_zero (x : Binary64) : x.eq zero = (!x.isNaN && x.isZero) := by
  show (!x.isNaN && true && x.rank == 0) = (!x.isNaN && x.magnitude == 0)
  rw [Bool.and_true, Bool.eq_iff_iff]
  simp only [Bool.and_eq_true, beq_iff_eq, rank_eq_zero_iff]

theorem lt_zero (x : Binary64) : x.lt zero = (!x.isNaN && (x.isNegative && !x.isZero)) := by
  show (!x.isNaN && true && decide (x.rank < 0)) = _
  rw [Bool.and_true, Bool.eq_iff_iff]
  simp only [Bool.and_eq_true, decide_eq_true_eq, rank_neg_iff, Bool.not_eq_true']

theorem zero_lt (x : Binary64) : zero.lt x = (!x.isNaN && (!x.isNegative && !x.isZero)) := by
  show (true && !x.isNaN && decide (0 < x.rank)) = _
  rw [Bool.true_and, Bool.eq_iff_iff]
  simp only [Bool.and_eq_true, decide_eq_true_eq, rank_pos_iff, Bool.not_eq_true']

theorem zero_le (x : Binary64) : zero.le x = (!x.isNaN && (!x.isNegative || x.isZero)) := by
  show (true && !x.isNaN && decide (0 ≤ x.rank)) = _
  rw [Bool.true_and, Bool.eq_iff_iff, Bool.and_eq_true, decide_eq_true_eq, ← not_lt, rank_neg_iff]
  cases x.isNegative <;> simp

theorem isFinite_iff_not {x : Binary64} : x.isFinite ↔ x.isNaN = false ∧ x.isInfinite = false := by
  simp only [isFinite, isNaN, isInfinite, decide_eq_true_eq, decide_eq_false_iff_not, beq_eq_false_iff_ne]
  omega

theorem abs_signedUnits_lt {x : Binary64} (hx : x.isFinite) : |x.signedUnits| < unitsAt infinite := by
  have hm : x.magnitude < infinite := of_decide_eq_true hx
  rw [Int.abs_eq_natAbs, natAbs_signedUnits, units_eq]
  exact_mod_cast strictMono_unitsAt hm

theorem unitsAt_infinite_pos : 0 < unitsAt infinite := Nat.pos_of_ne_zero fun h => by
  rw [unitsAt_eq_zero_iff] at h
  exact absurd h (by decide)

theorem signedUnits_of_isInfinite {x : Binary64} (hx : x.isInfinite) :
    x.signedUnits = if x.isNegative then -(unitsAt infinite : ℤ) else unitsAt infinite := by
  have hm : x.magnitude = infinite := beq_iff_eq.1 hx
  rw [signedUnits, units_eq, hm]

theorem one_eq : one = 2 ^ (52 + 1022) := by
  unfold one
  rw [show 1074 = 52 + 1022 from rfl]
  generalize 52 + 1022 = p
  rfl

theorem one_pos : 0 < one := by
  rw [one_eq]
  generalize 52 + 1022 = p
  exact Nat.two_pow_pos p

theorem roundHalfEven_mul (q : ℕ) {d : ℕ} (h : 0 < d) : roundHalfEven (q * d) d = q := by
  rw [roundHalfEven]
  simp only [Nat.mul_mod_left, Nat.mul_div_cancel q h, Nat.mul_zero, h, if_true]

theorem exists_moved_up {k : ℕ} (hk : 0 < k) (h : k < 2 ^ 53) :
    ∃ i j, i + j = 52 ∧ 2 ^ 52 ≤ k * 2 ^ i ∧ k * 2 ^ i < 2 ^ 53 := by
  obtain ⟨hlow, hhigh⟩ := (Nat.log2_eq_iff hk.ne').1 (rfl : k.log2 = k.log2)
  have hj : k.log2 < 53 := (Nat.pow_lt_pow_iff_right one_lt_two).1 (lt_of_le_of_lt hlow h)
  obtain ⟨i, hi⟩ : ∃ i, i + k.log2 = 52 := ⟨52 - k.log2, by omega⟩
  have hpos := Nat.two_pow_pos i
  refine ⟨i, k.log2, hi, ?_, ?_⟩
  · calc 2 ^ 52 = 2 ^ k.log2 * 2 ^ i := by rw [← Nat.pow_add, Nat.add_comm, hi]
      _ ≤ k * 2 ^ i := Nat.mul_le_mul_right _ hlow
  · calc k * 2 ^ i < 2 ^ (k.log2 + 1) * 2 ^ i := Nat.mul_lt_mul_of_pos_right hhigh hpos
      _ = 2 ^ 53 := by rw [← Nat.pow_add]; congr 1; omega

theorem log2_mul_two_pow {q : ℕ} (p : ℕ) (hlow : 2 ^ 52 ≤ q) (hhigh : q < 2 ^ 53) :
    (q * 2 ^ p).log2 = 52 + p := by
  have hpos := Nat.two_pow_pos p
  have hq : 0 < q := lt_of_lt_of_le (Nat.two_pow_pos 52) hlow
  rw [Nat.log2_eq_iff (Nat.mul_pos hq hpos).ne', Nat.pow_add, Nat.add_right_comm, Nat.pow_add]
  exact ⟨Nat.mul_le_mul_right _ hlow, Nat.mul_lt_mul_of_pos_right hhigh hpos⟩

theorem nearestMagnitude_mul {q p : ℕ} (hlow : 2 ^ 52 ≤ q) (hhigh : q < 2 ^ 53) (hp : p < 2045) :
    nearestMagnitude (q * 2 ^ p) 1 = (p + 1) * 2 ^ 52 + (q - 2 ^ 52) := by
  have he : (q * 2 ^ p / 1).log2 - 52 = p := by
    rw [Nat.div_one, log2_mul_two_pow p hlow hhigh, Nat.add_sub_cancel_left]
  rw [nearestMagnitude]
  simp only [he]
  rw [Nat.shiftLeft_eq, Nat.one_mul, roundHalfEven_mul q (Nat.two_pow_pos p)]
  show min (p * 2 ^ 52 + q) (2047 * 2 ^ 52) = _
  omega

theorem magnitude_nearest (negative : Bool) (num den : ℕ) :
    (nearest negative num den).magnitude = nearestMagnitude num den :=
  magnitude_ofMagnitude negative (lt_of_le_of_lt (Nat.min_le_right ..) (by decide))

@[simp] theorem isNegative_nearest (negative : Bool) (num den : ℕ) :
    (nearest negative num den).isNegative = negative :=
  isNegative_ofMagnitude negative (lt_of_le_of_lt (Nat.min_le_right ..) (by decide))

theorem nearestMagnitude_pos {n : ℕ} (h : 0 < n) : 0 < nearestMagnitude n 1 := by
  have hinf : 0 < infinite := by decide
  rw [nearestMagnitude]
  generalize he : (n / 1).log2 - 52 = e
  cases e with
  | zero =>
    have hn := roundHalfEven_mul n Nat.one_pos
    rw [Nat.mul_one] at hn
    show 0 < min (0 * _ + roundHalfEven n 1) infinite
    omega
  | succ e =>
    show 0 < min ((e + 1) * 2 ^ 52 + roundHalfEven n (1 <<< (e + 1))) infinite
    omega

theorem nearestMagnitude_whole {k : ℕ} (h : k < 2 ^ 53) :
    nearestMagnitude (k * one) 1 < infinite ∧ unitsAt (nearestMagnitude (k * one) 1) = k * one := by
  obtain rfl | hk := Nat.eq_zero_or_pos k
  · rw [Nat.zero_mul]
    exact ⟨by decide, by decide⟩
  obtain ⟨i, j, hij, hlow, hhigh⟩ := exists_moved_up hk h
  obtain ⟨p, hp, hpj⟩ : ∃ p, i + p = 52 + 1022 ∧ p < 2045 := ⟨j + 1022, by omega, by omega⟩
  have hone : k * one = k * 2 ^ i * 2 ^ p := by rw [one_eq, ← hp, Nat.pow_add, Nat.mul_assoc]
  rw [hone, nearestMagnitude_mul hlow hhigh hpj]
  generalize k * 2 ^ i = q at hlow hhigh
  refine ⟨?_, ?_⟩
  · show _ < 2047 * 2 ^ 52
    omega
  · rw [unitsAt_succ (by omega), Nat.add_sub_cancel' hlow]

theorem isFinite_nearest_whole (negative : Bool) {k : ℕ} (h : k < 2 ^ 53) :
    (nearest negative (k * one) 1).isFinite := by
  rw [isFinite, magnitude_nearest]
  exact decide_eq_true (nearestMagnitude_whole h).1

theorem signedUnits_nearest_whole (negative : Bool) {k : ℕ} (h : k < 2 ^ 53) :
    (nearest negative (k * one) 1).signedUnits = (if negative then -k else k : ℤ) * one := by
  rw [signedUnits, isNegative_nearest, units_eq, magnitude_nearest, (nearestMagnitude_whole h).2]
  cases negative <;> simp

theorem units_lt_of_not_dvd {x : Binary64} (h : ¬one ∣ x.units) : x.units < 2 ^ 52 * one := by
  rw [units_eq] at h ⊢
  obtain hm | ⟨f, r, hr, hm⟩ := magnitude_cases x.magnitude
  · rw [unitsAt_low hm]
    exact lt_of_lt_of_le hm (Nat.le_mul_of_pos_right _ one_pos)
  · rw [hm, unitsAt_succ hr] at h ⊢
    obtain ⟨p, hp⟩ : ∃ p, 52 + 1022 = p := ⟨_, rfl⟩
    rw [one_eq, hp] at h ⊢
    have hf : f < p := by
      by_contra hf
      exact h (Dvd.dvd.mul_left (Nat.pow_dvd_pow 2 (Nat.le_of_not_lt hf)) _)
    calc (2 ^ 52 + r) * 2 ^ f < (2 ^ 52 * 2) * 2 ^ f :=
          Nat.mul_lt_mul_of_pos_right (by omega) (Nat.two_pow_pos f)
      _ = 2 ^ 52 * 2 ^ (f + 1) := by rw [Nat.pow_succ' (n := f), Nat.mul_assoc]
      _ ≤ 2 ^ 52 * 2 ^ p := Nat.mul_le_mul_left _ (Nat.pow_le_pow_right two_pos hf)

theorem floor_of_dvd {x : Binary64} (h : one ∣ x.units) : x.floor = x := by
  rw [floor, if_pos]
  rw [Bool.or_eq_true, beq_iff_eq]
  exact .inr (Nat.mod_eq_zero_of_dvd h)

theorem floor_of_not_dvd {x : Binary64} (hx : x.isFinite) (h : ¬one ∣ x.units) :
    x.floor =
      nearest x.isNegative ((if x.isNegative then x.units / one + 1 else x.units / one) * one) 1 := by
  have hmod : (x.units % one == 0) = false := beq_false_of_ne fun h' => h (Nat.dvd_of_mod_eq_zero h')
  rw [floor, hx, hmod, Bool.not_true, Bool.or_false, if_neg Bool.false_ne_true]
  cases x.isNegative
  · rw [if_neg Bool.false_ne_true, if_neg Bool.false_ne_true]
  · rw [if_pos rfl, if_pos rfl]

/-- Below zero, the quotient by one that is rounded down is farther from zero. -/
theorem signedUnits_ediv_one {x : Binary64} (h : ¬one ∣ x.units) :
    x.signedUnits / one =
      (if x.isNegative then -((x.units / one + 1 : ℕ) : ℤ) else ((x.units / one : ℕ) : ℤ)) := by
  rw [signedUnits]
  cases x.isNegative with
  | false => rw [if_neg Bool.false_ne_true, if_neg Bool.false_ne_true, Int.natCast_ediv]
  | true =>
    have hdvd : ¬(one : ℤ) ∣ x.units := fun h' => h (Int.natCast_dvd_natCast.1 h')
    rw [if_pos rfl, if_pos rfl, Int.neg_ediv, if_neg hdvd, Int.sign_eq_one_of_pos (Int.natCast_pos.2 one_pos)]
    push_cast
    ring

theorem floor_spec {x : Binary64} (hx : x.isFinite) :
    x.floor.isFinite ∧ x.floor.signedUnits = x.signedUnits / one * one := by
  by_cases hdvd : one ∣ x.units
  · have hs : (one : ℤ) ∣ x.signedUnits := by
      rw [← Int.dvd_natAbs, natAbs_signedUnits]
      exact Int.natCast_dvd_natCast.2 hdvd
    rw [floor_of_dvd hdvd, Int.ediv_mul_cancel hs]
    exact ⟨hx, rfl⟩
  · have hlt : x.units / one < 2 ^ 52 := (Nat.div_lt_iff_lt_mul one_pos).2 (units_lt_of_not_dvd hdvd)
    rw [floor_of_not_dvd hx hdvd, signedUnits_ediv_one hdvd]
    generalize x.units / one = q at hlt ⊢
    have hk : (if x.isNegative then q + 1 else q) < 2 ^ 53 := by clear hdvd; split <;> omega
    rw [signedUnits_nearest_whole _ hk]
    refine ⟨isFinite_nearest_whole _ hk, ?_⟩
    cases x.isNegative <;> rfl

end Binary64
end RegisterMachine
