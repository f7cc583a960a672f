import RegisterMachine.Metatable

/-! Instructions that compute a value from registers and constants. -/
namespace RegisterMachine
namespace Instruction

open Exec

def binary (op : Operator) (w : Word) : Exec Unit := do
  let left ← operand w.operandB
  let right ← operand w.operandC
  setRegister w.a (← (Script.arith op left right).exec)

def unary (f : Value → Script Value) (w : Word) : Exec Unit := do
  let v ← register w.b
  setRegister w.a (← (f v).exec)

def logicalNot (w : Word) : Exec Unit := do
  setRegister w.a (.bool (!(← register w.b).isTruthy))

/-- Concatenates registers B to C. -/
def concat (w : Word) : Exec Unit := do
  let vs ← readRange ((← base) + w.b.toNat) (w.c.toNat + 1 - w.b.toNat)
  setRegister w.a (← (Script.concat vs).exec)

end Instruction
end RegisterMachine
