import RegisterMachine.Call

/-! Instructions that test, jump, close, call and return. -/
namespace RegisterMachine
namespace Instruction

open Exec

/-- Skips the next instruction unless two operands compare as A says. -/
def compare (f : Value → Value → Script Bool) (w : Word) : Exec Unit := do
  let left ← operand w.operandB
  let right ← operand w.operandC
  let outcome ← (f left right).exec
  skipIf (outcome != (w.a != 0))

def test (w : Word) : Exec Unit := do
  skipIf ((← register w.a).isTruthy != (w.c != 0))

/-- Copies register B when it tests as C says, and skips the next instruction otherwise. -/
def testSet (w : Word) : Exec Unit := do
  let v ← register w.b
  if v.isTruthy == (w.c != 0) then setRegister w.a v else skipIf true

/-- Jumps; with A above 0 all from register A - 1 on is closed first. -/
def jumpTo (w : Word) : Exec Unit := do
  if w.a != 0 then closeFrom ((← base) + w.a.toNat - 1)
  jump w.sbx.toInt

def close (w : Word) : Exec Unit := do closeFrom ((← base) + w.a.toNat)

def markForClosing (w : Word) : Exec Unit := do
  let start := (← base) + w.a.toNat
  modifyFrame (·.mark start)

def listLength (b : UInt8) (start : Nat) : Exec Nat :=
  if b = 0 then read fun m => m.fiber.top - start else pure (b.toNat - 1)

def ret (w : Word) : Exec Exit := do
  let start := (← base) + w.a.toNat
  let vs ← readRange start (← listLength w.b start)
  leave vs

def call (host : Host) (w : Word) : Exec Unit := do
  let start := (← base) + w.a.toNat
  let count ← listLength w.b (start + 1)
  callAt host start count (if w.c = 0 then none else some (w.c.toNat - 1))

/-- A call that takes the place of the frame when the callee is a closure; any other is called for all
its results, which the next instruction returns. -/
def tailCall (host : Host) (w : Word) : Exec Unit := do
  let start := (← base) + w.a.toNat
  let count ← listLength w.b (start + 1)
  match ← slot start with
  | .closure r => Exec.tailCall r start count
  | _ => callAt host start count none

def closure (w : Word) : Exec Unit := do setRegister w.a (← makeClosure w.bx.toNat)

/-- Writes the extra arguments from register A on, B - 1 of them or all. -/
def varargs (w : Word) : Exec Unit := do
  let start := (← base) + w.a.toNat
  let vs := (← frame).varargs
  if w.b = 0 then
    writeRange start vs
    setTop (start + vs.length)
  else writeRange start (adjust vs (w.b.toNat - 1))

end Instruction
end RegisterMachine
