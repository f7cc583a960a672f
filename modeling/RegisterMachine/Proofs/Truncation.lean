import Mathlib.Data.Rat.Floor
import RegisterMachine.Proofs.Comparisons

/-! The integers that bitwise operators work on. A double stands for what is left of it without its fraction,
or for the nearer end of the 64-bit range where that is outside of it; infinities and NaNs stand for none. -/
namespace RegisterMachine

/-- What is left of a number without what is behind its point. -/
def truncation (q : ℚ) : ℤ := if q < 0 then ⌈q⌉ else ⌊q⌋

theorem truncation_of_nonneg {q : ℚ} (h : 0 ≤ q) : truncation q = ⌊q⌋ := if_neg h.not_gt

theorem truncation_neg (q : ℚ) : truncation (-q) = -truncation q := by
  rcases lt_trichotomy q 0 with h | rfl | h
  · rw [truncation_of_nonneg (neg_nonneg.2 h.le), Int.floor_neg, truncation, if_pos h]
  · rfl
  · rw [truncation_of_nonneg h.le, truncation, if_pos (neg_neg_of_pos h), Int.ceil_neg]

theorem truncation_intCast (n : ℤ) : truncation n = n := by
  by_cases h : (n : ℚ) < 0 <;> simp [truncation, h]

/-- The word for an integer: the integer itself, or the nearer end of the range if it is outside. -/
inductive StandsFor (x : Int64) (n : ℤ) : Prop
  | same (h : x.toInt = n)
  | below (h : n < -2 ^ 63) (hx : x = Int64.minValue)
  | above (h : 2 ^ 63 ≤ n) (hx : x = Int64.maxValue)

theorem StandsFor.toInt_eq {x : Int64} {n : ℤ} (h : StandsFor x n) (hlow : -2 ^ 63 ≤ n) (hhigh : n < 2 ^ 63) :
    x.toInt = n := by
  cases h with
  | same h => exact h
  | below h => omega
  | above h => omega

namespace Binary64

theorem trunc_eq (x : Binary64) : x.trunc = truncation x.rational := by
  have hone : (one : ℚ) ≠ 0 := Nat.cast_ne_zero.2 one_pos.ne'
  have hq : x.rational = x.signedUnits / one := (eq_div_iff hone).2 x.rational_mul_one
  have hdiv : truncation ((x.units : ℚ) / one) = (x.units / one : ℕ) := by
    rw [truncation_of_nonneg (by positivity), Rat.floor_natCast_div_natCast, Int.natCast_ediv]
  rw [hq, signedUnits, trunc]
  cases x.isNegative
  · rw [if_neg Bool.false_ne_true, if_neg Bool.false_ne_true, Int.cast_natCast, hdiv]
  · rw [if_pos rfl, if_pos rfl, Int.cast_neg, Int.cast_natCast, neg_div, truncation_neg, hdiv]

theorem truncInt64_standsFor (x : Binary64) : StandsFor x.truncInt64 (truncation x.rational) := by
  have hmin : Int64.minValue.toInt = -2 ^ 63 := by decide
  have hmax : Int64.maxValue.toInt = 2 ^ 63 - 1 := by decide
  rw [← trunc_eq]
  by_cases hlow : x.trunc < -2 ^ 63
  · refine .below hlow ?_
    rw [truncInt64, max_eq_left (by omega), Int64.ofInt_toInt]
  · by_cases hhigh : 2 ^ 63 ≤ x.trunc
    · refine .above hhigh ?_
      rw [truncInt64, min_eq_left (by omega), max_eq_right (by omega), Int64.ofInt_toInt]
    · exact .same (toInt_truncInt64 (by omega) (by omega))

end Binary64

namespace Number

def isInfinite : Number → Bool
  | .int _ => false
  | .float x => x.isInfinite

/-- A number that is neither infinite nor a NaN stands for an integer. -/
theorem toBits_cases (a : Number) :
    (a.isNaN ∨ a.isInfinite) ∧ a.toBits = .error .noInteger ∨
    ∃ (q : ℚ) (x : Int64), a.reading? = some (q : WithBotTop ℚ) ∧ StandsFor x (truncation q) ∧ a.toBits = .ok x := by
  cases a with
  | int i => exact .inr ⟨i.toInt, i, rfl, .same (truncation_intCast i.toInt).symm, rfl⟩
  | float x =>
    by_cases hx : x.isFinite
    · obtain ⟨hnan, hinf⟩ := Binary64.isFinite_iff_not.1 hx
      refine .inr ⟨x.rational, x.truncInt64, ?_, x.truncInt64_standsFor, by simp [toBits, hx]⟩
      simp [reading?, hnan, hinf]
    · refine .inl ⟨?_, by simp [toBits, hx]⟩
      rw [Binary64.isFinite_iff_not] at hx
      cases hnan : x.isNaN <;> simp_all [isNaN, isInfinite]

end Number

namespace Operator

variable {op : Operator} {a b : Value} {m n : Number}

theorem eval?_bitwise (bitwise : op.isBitwise) (ha : a.toNumber? = some m) (hb : b.toNumber? = some n) :
    op.eval? a b = (some ∘ Value.ofNumber) <$> (do op.onInts (← m.toBits) (← n.toBits)) := by
  simp [eval?, ha, hb, onNumbers, bitwise]

theorem exists_eval?_words (bitwise : op.isBitwise) (x y : Int64) :
    ∃ z, op.eval? (.int x) (.int y) = .ok (some (.int z)) := by
  cases op with
  | band | bor | bxor | shl | shr => exact ⟨_, rfl⟩
  | _ => cases bitwise

/-- Operands that stand for words count as these. -/
theorem eval?_of_toBits (bitwise : op.isBitwise) (ha : a.toNumber? = some m) (hb : b.toNumber? = some n)
    {x y : Int64} (hx : m.toBits = .ok x) (hy : n.toBits = .ok y) :
    op.eval? a b = op.eval? (.int x) (.int y) := by
  rw [eval?_bitwise bitwise ha hb, eval?_bitwise bitwise (m := .int x) (n := .int y) rfl rfl, hx, hy]
  rfl

/-- A bitwise operator has no result exactly if an operand is infinite or a NaN. Otherwise it works on the truncations,
or the nearer end of the 64-bit range for what is beyond it. -/
theorem bitwise_operands (bitwise : op.isBitwise) (ha : a.toNumber? = some m) (hb : b.toNumber? = some n) :
    ((m.isNaN ∨ m.isInfinite ∨ n.isNaN ∨ n.isInfinite) ∧ op.eval? a b = .error .noInteger ∨
      ∃ (q r : ℚ) (x y z : Int64), m.reading? = some (q : WithBotTop ℚ) ∧ n.reading? = some (r : WithBotTop ℚ) ∧
        StandsFor x (truncation q) ∧ StandsFor y (truncation r) ∧
        op.eval? a b = op.eval? (.int x) (.int y) ∧ op.eval? (.int x) (.int y) = .ok (some (.int z))) ∧
    ((m.isNaN ∨ m.isInfinite) ∧ a.complement? = .error .noInteger ∨
      ∃ (q : ℚ) (x : Int64), m.reading? = some (q : WithBotTop ℚ) ∧ StandsFor x (truncation q) ∧
        a.complement? = .ok (some (.int (~~~x)))) := by
  have hnot : a.complement? = (fun i => some (.int (~~~i))) <$> m.toBits := by simp [Value.complement?, ha]
  rcases m.toBits_cases with ⟨hm, hx⟩ | ⟨q, x, hq, hxq, hx⟩
  · refine ⟨.inl ⟨by tauto, ?_⟩, .inl ⟨hm, by rw [hnot, hx]; rfl⟩⟩
    rw [eval?_bitwise bitwise ha hb, hx]
    rfl
  · refine ⟨?_, .inr ⟨q, x, hq, hxq, by rw [hnot, hx]; rfl⟩⟩
    rcases n.toBits_cases with ⟨hn, hy⟩ | ⟨r, y, hr, hyr, hy⟩
    · refine .inl ⟨by tauto, ?_⟩
      rw [eval?_bitwise bitwise ha hb, hx, hy]
      rfl
    · obtain ⟨z, hz⟩ := exists_eval?_words bitwise x y
      exact .inr ⟨q, r, x, y, z, hq, hr, hxq, hyr, eval?_of_toBits bitwise ha hb hx hy, hz⟩

/-- Minus two and a half counts as minus two. -/
theorem bitwise_operands_negative :
    Operator.bxor.isBitwise ∧
    (Value.float ⟨0xc004000000000000⟩).toNumber? = some (.float ⟨0xc004000000000000⟩) ∧
    (Number.float ⟨0xc004000000000000⟩).reading? = some ((-5 / 2 : ℚ) : WithBotTop ℚ) ∧
    (Value.str "0x10").toNumber? = some (.int 16) ∧
    ∃ x z : Int64, x.toInt = -2 ∧
      Operator.bxor.eval? (.float ⟨0xc004000000000000⟩) (.str "0x10") = Operator.bxor.eval? (.int x) (.int 16) ∧
      Operator.bxor.eval? (.float ⟨0xc004000000000000⟩) (.str "0x10") = .ok (some (.int z)) := by
  have hleft : (Number.float ⟨0xc004000000000000⟩).reading? = some ((-5 / 2 : ℚ) : WithBotTop ℚ) := by
    have hm : Binary64.magnitude ⟨0xc004000000000000⟩ = 0x4004000000000000 := by decide
    have hq : Binary64.rational ⟨0xc004000000000000⟩ = -5 / 2 := by
      rw [Binary64.rational, if_pos (by decide), hm]
      norm_num [Binary64.rationalAt]
    rw [← hq]
    rfl
  have hright : (Value.str "0x10").toNumber? = some (.int 16) := by decide +kernel
  have htrunc : truncation (-5 / 2) = -2 := by norm_num [truncation]
  have hop : Operator.bxor.isBitwise := rfl
  refine ⟨hop, rfl, hleft, hright, ?_⟩
  obtain ⟨⟨hnone, -⟩ | ⟨q, r, x, y, z, hq, hr, hx, hy, heval, hz⟩, -⟩ :=
    bitwise_operands (a := .float ⟨0xc004000000000000⟩) hop rfl hright
  · exact absurd hnone (by decide)
  · obtain rfl : q = -5 / 2 := WithBotTop.coe_injective (Option.some.inj (hq.symm.trans hleft))
    obtain rfl : r = (16 : Int64).toInt := WithBotTop.coe_injective (Option.some.inj hr.symm)
    rw [htrunc] at hx
    rw [truncation_intCast] at hy
    obtain rfl : y = 16 := Int64.toInt_inj.1 (hy.toInt_eq (by decide) (by decide))
    have hx' := hx.toInt_eq (by decide) (by decide)
    exact ⟨x, z, hx', heval, heval.trans hz⟩

/-- 2^63 is no word, and the greatest word is taken for it. -/
theorem bor_two_pow_63 :
    (Number.float Binary64.bound).reading? = some ((2 ^ 63 : ℚ) : WithBotTop ℚ) ∧
    truncation (2 ^ 63) = 2 ^ 63 ∧ Int64.maxValue.toInt ≠ 2 ^ 63 ∧
    Operator.bor.eval? (.float Binary64.bound) (.int 0) = .ok (some (.int Int64.maxValue)) := by
  have hm : Binary64.bound.magnitude = 0x43e0000000000000 := by decide
  have hq : Binary64.bound.rational = 2 ^ 63 := by
    rw [Binary64.rational, if_neg (by decide), hm]
    norm_num [Binary64.rationalAt]
  refine ⟨?_, by norm_num [truncation], by decide, by decide +kernel⟩
  rw [← hq]
  rfl

end Operator
end RegisterMachine
