import RegisterMachine.Instruction.Arithmetic
import RegisterMachine.Instruction.Control
import RegisterMachine.Instruction.Data
import RegisterMachine.Instruction.Loop

/-! The instructions by operation, and the step of the machine. -/
namespace RegisterMachine

namespace Opcode

/-- What an operation does within its frame. Leaving the frame is no part of that, so a return does
nothing here. -/
def run (host : Host) (op : Opcode) (w : Word) : Exec Unit :=
  match op with
  | .move => Instruction.move w
  | .loadK => Instruction.loadConstant w
  | .loadKX => Instruction.loadFarConstant w
  | .loadI => Instruction.loadInt w
  | .loadF => Instruction.loadFloat w
  | .loadBool => Instruction.loadBool w
  | .loadNil => Instruction.loadNil w
  | .getUpval => Instruction.getUpvalue w
  | .getTabUp => Instruction.getUpvalueField w
  | .getTable => Instruction.getField w
  | .setTabUp => Instruction.setUpvalueField w
  | .setUpval => Instruction.setUpvalue w
  | .setTable => Instruction.setField w
  | .newTable => Instruction.newTable w
  | .method => Instruction.method w
  | .add => Instruction.binary .add w
  | .sub => Instruction.binary .sub w
  | .mul => Instruction.binary .mul w
  | .mod => Instruction.binary .mod w
  | .pow => Instruction.binary .pow w
  | .div => Instruction.binary .div w
  | .idiv => Instruction.binary .idiv w
  | .band => Instruction.binary .band w
  | .bor => Instruction.binary .bor w
  | .bxor => Instruction.binary .bxor w
  | .shl => Instruction.binary .shl w
  | .shr => Instruction.binary .shr w
  | .unm => Instruction.unary Script.negate w
  | .bnot => Instruction.unary Script.complement w
  | .not => Instruction.logicalNot w
  | .len => Instruction.unary Script.length w
  | .concat => Instruction.concat w
  | .jmp => Instruction.jumpTo w
  | .eq => Instruction.compare Script.equals w
  | .lt => Instruction.compare Script.lessThan w
  | .le => Instruction.compare Script.lessEqual w
  | .test => Instruction.test w
  | .testSet => Instruction.testSet w
  | .call => Instruction.call host w
  | .tailCall => Instruction.tailCall host w
  | .ret => pure ()
  | .forLoop => Instruction.forLoop w
  | .forPrep => Instruction.forPrep w
  | .tforCall => Instruction.genericCall host w
  | .tforLoop => Instruction.genericLoop w
  | .setList => Instruction.setList w
  | .closure => Instruction.closure w
  | .varArg => Instruction.varargs w
  | .close => Instruction.close w
  | .tbc => Instruction.markForClosing w

end Opcode

namespace Exec

/-- Executes a word; a return gives what leaves the frame. -/
def execute (host : Host) (w : Word) : Exec (Option Exit) := do
  match w.opcode? with
  | none => fail (.badOpcode w.code)
  | some .ret => some <$> Instruction.ret w
  | some op =>
    op.run host w
    pure none

/-- Hands values that left a frame to the frame below, or out when the frames are down to a depth. -/
def deliver (stop : Nat) (e : Exit) : Exec (Option (List Value)) := do
  if ← read fun m => decide (m.callDepth ≤ stop) then pure (some e.values)
  else
    placeResults e.slot e.wanted e.values
    pure none

/-- One step of the innermost frame; behind the last instruction it returns nothing. Gives the values
that leave the machine when the frames are down to a depth. -/
def step (host : Host) (stop : Nat) : Exec (Option (List Value)) := do
  if ← read fun m => m.isCancelled m.fiber.token then fail .cancelled
  match ← fetch with
  | none => deliver stop (← leave [])
  | some w =>
    match ← execute host w with
    | some e => deliver stop e
    | none => pure none

end Exec
end RegisterMachine
