import RegisterMachine.Metatable

/-! Instructions that move values between registers, constants, captured variables and tables. -/
namespace RegisterMachine
namespace Instruction

open Exec

def move (w : Word) : Exec Unit := do setRegister w.a (← register w.b)

def loadConstant (w : Word) : Exec Unit := do setRegister w.a (← constant w.bx.toNat)

def loadFarConstant (w : Word) : Exec Unit := do
  let n ← extraWord
  setRegister w.a (← constant n.bits.toNat)

def loadInt (w : Word) : Exec Unit := setRegister w.a (.int (Int64.ofInt w.sbx.toInt))

def loadFloat (w : Word) : Exec Unit := setRegister w.a (.float (.ofInt w.sbx.toInt))

/-- Loads a boolean and may skip the next instruction. -/
def loadBool (w : Word) : Exec Unit := do
  setRegister w.a (.bool (w.b != 0))
  skipIf (w.c != 0)

/-- Sets registers A to A + B to nil. -/
def loadNil (w : Word) : Exec Unit := do
  let start := (← base) + w.a.toNat
  clearRange start (start + w.b.toNat + 1)

def getUpvalue (w : Word) : Exec Unit := do
  let r ← upvalue w.b.toNat
  setRegister w.a (← read fun m => m.heap.brokerValue r)

def setUpvalue (w : Word) : Exec Unit := do
  let v ← register w.a
  setBroker (← upvalue w.b.toNat) v

/-- The table in a captured variable. -/
def upvalueValue (n : UInt8) : Exec Value := do
  let r ← upvalue n.toNat
  read fun m => m.heap.brokerValue r

def getUpvalueField (w : Word) : Exec Unit := do
  let object ← upvalueValue w.b
  let key ← operand w.operandC
  setRegister w.a (← (Script.index object key).exec)

def getField (w : Word) : Exec Unit := do
  let object ← register w.b
  let key ← operand w.operandC
  setRegister w.a (← (Script.index object key).exec)

def setUpvalueField (w : Word) : Exec Unit := do
  let object ← upvalueValue w.a
  let key ← operand w.operandB
  let v ← operand w.operandC
  (Script.setIndex object key v).exec

def setField (w : Word) : Exec Unit := do
  let object ← register w.a
  let key ← operand w.operandB
  let v ← operand w.operandC
  (Script.setIndex object key v).exec

def newTable (w : Word) : Exec Unit := do
  setRegister w.a (← (Script.make .newTable).exec)

/-- Puts an object into register A + 1, in eight bits, and one of its fields into register A. -/
def method (w : Word) : Exec Unit := do
  let object ← register w.b
  let key ← operand w.operandC
  setRegister (w.a + 1) object
  setRegister w.a (← (Script.index object key).exec)

/-- How many fields a full batch of a table constructor has. -/
def batchSize : Nat := 50

/-- Assigns the values behind register A to consecutive indices of the table in it. -/
def setList (w : Word) : Exec Unit := do
  let start := (← base) + w.a.toNat
  let top ← read fun m => m.fiber.top
  let count := if w.b = 0 then top - (start + 1) else w.b.toNat
  let batch ← if w.c = 0 then do pure (← extraWord).bits.toNat else pure w.c.toNat
  let first := (max batch 1 - 1) * batchSize + 1
  let vs ← readRange (start + 1) count
  match ← slot start with
  | .table r => modify (·.modifyHeap (·.modifyTable r (·.setFrom first vs)))
  | v => fail (.typeError "index" v)
  if w.b = 0 then setTop (← frame).top

end Instruction
end RegisterMachine
