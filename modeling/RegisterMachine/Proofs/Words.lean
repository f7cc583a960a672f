import Mathlib.Data.Nat.Bitwise
import RegisterMachine.Word

/-! The fields of instruction words. A word is a number, made of its fields by their positions, and each field is read
off by its position again. B and C with their flags take up all bits above A; Bx leaves out the lowest two of them. -/
namespace RegisterMachine

theorem Opcode.code_of_ofCode? {n : ℕ} {op : Opcode} (h : ofCode? n = some op) : op.code = n := by
  obtain ⟨hn, rfl⟩ := Array.getElem?_eq_some_iff.1 h
  revert n
  decide

namespace Operand

variable (o : Operand)

theorem toNat_bits : o.bits.toNat = o.index.toNat + 256 * o.isConstant.toNat := by
  cases o with
  | register i => simp [bits, index, isConstant]
  | constant i =>
    have h := Nat.two_pow_add_eq_or_of_lt i.toNat_lt 1
    simp only [bits, UInt32.toNat_or, UInt8.toNat_toUInt32, Nat.or_comm i.toNat]
    exact h.symm.trans (Nat.add_comm _ _)

theorem bits_lt : o.bits.toNat < 512 := by
  have := o.index.toNat_lt
  have := o.isConstant.toNat_le
  rw [toNat_bits]
  omega

theorem toNat_bits_inj {o o' : Operand} (h : o.bits.toNat = o'.bits.toNat) : o = o' := by
  have ho := o.index.toNat_lt
  have ho' := o'.index.toNat_lt
  rw [toNat_bits, toNat_bits] at h
  cases o <;> cases o' <;> simp only [index, isConstant, Bool.toNat_true, Bool.toNat_false] at h ho ho'
  · rw [UInt8.toNat_inj.1 h]
  · omega
  · omega
  · rw [UInt8.toNat_inj.1 (Nat.add_right_cancel h)]

end Operand

namespace Word

section

variable (w : Word)

theorem code_eq : w.code = w.bits.toNat % 64 := by
  rw [code, UInt32.toNat_and]
  exact Nat.and_two_pow_sub_one_eq_mod _ 6

theorem toNat_a : w.a.toNat = w.bits.toNat / 2 ^ 6 % 256 := by
  simp [a, Nat.shiftRight_eq_div_pow]

theorem toNat_b : w.b.toNat = w.bits.toNat / 2 ^ 14 % 256 := by
  simp [b, Nat.shiftRight_eq_div_pow]

theorem toNat_c : w.c.toNat = w.bits.toNat / 2 ^ 23 % 256 := by
  simp [c, Nat.shiftRight_eq_div_pow]

theorem toNat_bx : w.bx.toNat = w.bits.toNat / 2 ^ 16 := by
  have hlt : w.bits.toNat / 2 ^ 16 < 2 ^ 16 := Nat.div_lt_of_lt_mul w.bits.toNat_lt
  rw [bx, UInt32.toNat_toUInt16, UInt32.toNat_shiftRight]
  exact (congrArg (· % 2 ^ 16) (Nat.shiftRight_eq_div_pow _ 16)).trans (Nat.mod_eq_of_lt hlt)

theorem toNat_flag {k : UInt32} {n : ℕ} (hk : k.toNat = n) (hn : n < 32) :
    ((w.bits >>> k) &&& 0x100 != 0).toNat = w.bits.toNat / 2 ^ (n + 8) % 2 := by
  have hmask : ((w.bits >>> k) &&& 0x100).toNat = (w.bits.toNat.testBit (n + 8)).toNat * 2 ^ 8 := by
    rw [UInt32.toNat_and, UInt32.toNat_shiftRight, hk, Nat.mod_eq_of_lt hn, ← Nat.testBit_shiftRight,
      ← Nat.and_two_pow]
    rfl
  have hflag : ((w.bits >>> k) &&& 0x100 != 0) = w.bits.toNat.testBit (n + 8) := by
    rw [Bool.eq_iff_iff, bne_iff_ne, ne_eq, ← UInt32.toNat_inj, hmask]
    cases w.bits.toNat.testBit (n + 8) <;> decide
  rw [hflag, Nat.toNat_testBit]

theorem toNat_bIsConstant : w.bIsConstant.toNat = w.bits.toNat / 2 ^ 22 % 2 := w.toNat_flag rfl (by decide)

theorem toNat_cIsConstant : w.cIsConstant.toNat = w.bits.toNat / 2 ^ 31 % 2 := w.toNat_flag rfl (by decide)

@[simp] theorem index_operandB : w.operandB.index = w.b := by
  unfold operandB
  split <;> rfl

@[simp] theorem index_operandC : w.operandC.index = w.c := by
  unfold operandC
  split <;> rfl

@[simp] theorem isConstant_operandB : w.operandB.isConstant = w.bIsConstant := by
  unfold operandB
  split <;> simp_all [Operand.isConstant]

@[simp] theorem isConstant_operandC : w.operandC.isConstant = w.cIsConstant := by
  unfold operandC
  split <;> simp_all [Operand.isConstant]

theorem toNat_operandB : w.operandB.bits.toNat = w.bits.toNat / 2 ^ 14 % 512 := by
  rw [Operand.toNat_bits, index_operandB, isConstant_operandB, toNat_b, toNat_bIsConstant]
  omega

theorem toNat_operandC : w.operandC.bits.toNat = w.bits.toNat / 2 ^ 23 := by
  have hw := w.bits.toNat_lt
  rw [Operand.toNat_bits, index_operandC, isConstant_operandC, toNat_c, toNat_cIsConstant]
  omega

end

theorem toNat_or_shiftLeft {x y k : UInt32} {n : ℕ} (hk : k.toNat = n) (hn : n < 32) (hx : x.toNat < 2 ^ n)
    (hy : y.toNat <<< n < 2 ^ 32) : (x ||| y <<< k).toNat = x.toNat + y.toNat <<< n := by
  rw [UInt32.toNat_or, UInt32.toNat_shiftLeft, hk, Nat.mod_eq_of_lt hn, Nat.mod_eq_of_lt hy, Nat.or_comm,
    ← Nat.shiftLeft_add_eq_or_of_lt hx, Nat.add_comm]

section

variable (op : Opcode) (a : UInt8)

theorem toNat_low : (UInt32.ofNat op.code ||| a.toUInt32 <<< 6).toNat = op.code + a.toNat <<< 6 := by
  have hop := op.code_lt
  have ha := a.toNat_lt
  have hcode : (UInt32.ofNat op.code).toNat = op.code := UInt32.toNat_ofNat_of_lt' (Nat.lt_trans hop (by decide))
  rw [toNat_or_shiftLeft (n := 6) rfl (by decide) (by omega) (by rw [UInt8.toNat_toUInt32]; omega), hcode,
    UInt8.toNat_toUInt32]

theorem toNat_abc (b c : Operand) : (abc op a b c).bits.toNat =
    op.code + a.toNat <<< 6 + b.bits.toNat <<< 14 + c.bits.toNat <<< 23 := by
  have hop := op.code_lt
  have ha := a.toNat_lt
  have hb := b.bits_lt
  have hc := c.bits_lt
  have hlow := toNat_low op a
  have hmid : (UInt32.ofNat op.code ||| a.toUInt32 <<< 6 ||| b.bits <<< 14).toNat =
      op.code + a.toNat <<< 6 + b.bits.toNat <<< 14 := by
    rw [toNat_or_shiftLeft (n := 14) rfl (by decide) (by omega) (by omega), hlow]
  rw [abc, toNat_or_shiftLeft (n := 23) rfl (by decide) (by omega) (by omega), hmid]

theorem toNat_abx (bx : UInt16) : (abx op a bx).bits.toNat = op.code + a.toNat <<< 6 + bx.toNat <<< 16 := by
  have hop := op.code_lt
  have ha := a.toNat_lt
  have hbx := bx.toNat_lt
  have hlow := toNat_low op a
  rw [abx, toNat_or_shiftLeft (n := 16) rfl (by decide) (by omega) (by rw [UInt16.toNat_toUInt32]; omega), hlow,
    UInt16.toNat_toUInt32]

end

section

variable (op : Opcode) (a : UInt8)

theorem opcode?_of_code {w : Word} (h : w.code = op.code) : w.opcode? = some op := by
  rw [opcode?, h, Opcode.ofCode?_code]

theorem decode_abc (b c : Operand) : (abc op a b c).opcode? = some op ∧ (abc op a b c).a = a ∧
    (abc op a b c).operandB = b ∧ (abc op a b c).operandC = c := by
  have hop := op.code_lt
  have ha := a.toNat_lt
  have hb := b.bits_lt
  have hc := c.bits_lt
  have hw := toNat_abc op a b c
  generalize abc op a b c = w at hw
  refine ⟨opcode?_of_code op ?_, UInt8.toNat_inj.1 ?_, Operand.toNat_bits_inj ?_, Operand.toNat_bits_inj ?_⟩
  · rw [code_eq]
    omega
  · rw [toNat_a]
    omega
  · rw [toNat_operandB]
    omega
  · rw [toNat_operandC]
    omega

theorem decode_abx (bx : UInt16) :
    (abx op a bx).opcode? = some op ∧ (abx op a bx).a = a ∧ (abx op a bx).bx = bx := by
  have hop := op.code_lt
  have ha := a.toNat_lt
  have hw := toNat_abx op a bx
  generalize abx op a bx = w at hw
  refine ⟨opcode?_of_code op ?_, UInt8.toNat_inj.1 ?_, UInt16.toNat_inj.1 ?_⟩
  · rw [code_eq]
    omega
  · rw [toNat_a]
    omega
  · rw [toNat_bx]
    omega

end

theorem and_unreserved {n : ℕ} (h : n < 2 ^ 32) : n &&& 0xffff3fff = 2 ^ 16 * (n / 2 ^ 16) + n % 2 ^ 14 := by
  have hmask : 0xffff3fff = 2 ^ 16 * (2 ^ 16 - 1) ||| (2 ^ 14 - 1) := by decide
  have hlow : n % 2 ^ 14 < 2 ^ 16 := by omega
  have hhigh : n &&& 2 ^ 16 * (2 ^ 16 - 1) = 2 ^ 16 * (n / 2 ^ 16) := by
    apply Nat.eq_of_testBit_eq
    intro i
    rw [Nat.testBit_and, Nat.testBit_two_pow_mul, Nat.testBit_two_pow_mul, Nat.testBit_two_pow_sub_one,
      Nat.testBit_div_two_pow]
    by_cases hi : 16 ≤ i
    · rw [Nat.sub_add_cancel hi]
      by_cases hi' : i < 32
      · simp [hi, show i - 16 < 16 by omega]
      · have hn : n.testBit i = false := Nat.testBit_lt_two_pow (h.trans_le (Nat.pow_le_pow_right (by decide) (by omega)))
        simp [hn]
    · simp [hi]
  rw [hmask, Nat.and_or_distrib_left, Nat.and_two_pow_sub_one_eq_mod, hhigh, Nat.two_pow_add_eq_or_of_lt hlow]

section

variable {op : Opcode} {w : Word} (h : w.opcode? = some op)
include h

theorem code_of_opcode? : op.code = w.bits.toNat % 64 := by
  rw [← code_eq, Opcode.code_of_ofCode? h]

theorem abc_decoded : abc op w.a w.operandB w.operandC = w := by
  have hop := code_of_opcode? h
  have hw := w.bits.toNat_lt
  have hbits : (abc op w.a w.operandB w.operandC).bits = w.bits := by
    rw [← UInt32.toNat_inj, toNat_abc, toNat_operandB, toNat_operandC, hop, toNat_a]
    omega
  exact congrArg Word.mk hbits

theorem abx_decoded : (abx op w.a w.bx).bits = w.bits &&& 0xffff3fff := by
  have hop := code_of_opcode? h
  have hw := w.bits.toNat_lt
  rw [← UInt32.toNat_inj, toNat_abx, UInt32.toNat_and, hop, toNat_a, toNat_bx]
  show _ = w.bits.toNat &&& 0xffff3fff
  rw [and_unreserved hw]
  omega

end

/-- All that a word is encoded from can be read off it, in every layout, and its own fields are encoded to the word
again; in the layout with Bx two bits are lost, and no others. -/
theorem fields_faithful (op : Opcode) (a : UInt8) (b c : Operand) (bx : UInt16) (sbx : Int16) {w : Word} {op' : Opcode}
    (h : w.opcode? = some op') :
    ((abc op a b c).opcode? = some op ∧ (abc op a b c).a = a ∧
      ((abc op a b c).b = b.index ∧ (abc op a b c).bIsConstant = b.isConstant) ∧
      ((abc op a b c).c = c.index ∧ (abc op a b c).cIsConstant = c.isConstant)) ∧
    ((abx op a bx).opcode? = some op ∧ (abx op a bx).a = a ∧ (abx op a bx).bx = bx) ∧
    ((asbx op a sbx).opcode? = some op ∧ (asbx op a sbx).a = a ∧ (asbx op a sbx).sbx = sbx) ∧
    abc op' w.a w.operandB w.operandC = w ∧
    (abx op' w.a w.bx).bits = w.bits &&& 0xffff3fff := by
  obtain ⟨habc, ha, hb, hc⟩ := decode_abc op a b c
  obtain ⟨hsbx, ha', hsbx'⟩ := decode_abx op a sbx.toUInt16
  refine ⟨⟨habc, ha, ?_, ?_⟩, decode_abx op a bx, ⟨hsbx, ha', ?_⟩, abc_decoded h, abx_decoded h⟩
  · rw [← index_operandB, ← isConstant_operandB, hb]
    exact ⟨rfl, rfl⟩
  · rw [← index_operandC, ← isConstant_operandC, hc]
    exact ⟨rfl, rfl⟩
  · show (abx op a sbx.toUInt16).bx.toInt16 = sbx
    rw [hsbx', Int16.toInt16_toUInt16]

/-- A word with Bx in which both reserved bits are set, which no encoder writes. -/
theorem fields_faithful_reserved :
    opcode? ⟨0x5c041⟩ = some .loadK ∧ (abx .loadK 1 5).bits = 0x50041 ∧
      abc .loadK 1 (.register 0x17) (.register 0) = ⟨0x5c041⟩ := by
  obtain ⟨-, -, -, habc, habx⟩ :=
    fields_faithful .jmp 255 (.constant 255) (.register 0) 65535 (-1) (show opcode? ⟨0x5c041⟩ = some .loadK from rfl)
  exact ⟨rfl, habx, habc⟩

end Word
end RegisterMachine
