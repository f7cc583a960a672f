import RegisterMachine.Prototype
import RegisterMachine.Text.Utf8

/-! The binary format of prototypes: a signature and a version, then the prototype with every number
little-endian and every list and text behind its length. -/
namespace RegisterMachine
namespace Chunk

/-- Why a prototype cannot be written. -/
inductive WriteFault
  | positions (name : String) (found instructions : Nat)
  | constant (typeName : String)
  | tooLarge
  deriving DecidableEq, Repr, Inhabited

namespace WriteFault

def message : WriteFault → String
  | .positions name found instructions =>
    "prototype '" ++ name ++ "' has " ++ toString found ++ " positions for "
      ++ toString instructions ++ " instructions"
  | .constant typeName => "cannot dump a " ++ typeName ++ " constant"
  | .tooLarge => "section too large to dump"

end WriteFault

def signature : List UInt8 := [0x1b, 0x47, 0x6c, 0x6d]

def version : String := "gloam-bc 1"

def maxNesting : Nat := 200

/-- The lowest `width` bytes of a number, least significant first. -/
def littleEndian : (width : Nat) → Nat → List UInt8
  | 0, _ => []
  | width + 1, n => UInt8.ofNat n :: littleEndian width (n / 256)

def ofLittleEndian : List UInt8 → Nat
  | [] => 0
  | b :: rest => b.toNat + 256 * ofLittleEndian rest

def writeText (s : String) : List UInt8 :=
  let bytes := Text.toUtf8 s
  littleEndian 4 bytes.length ++ bytes

def writeLength (n : Nat) : Except WriteFault (List UInt8) :=
  if n < 0x100000000 then .ok (littleEndian 4 n) else .error .tooLarge

def writeFlag (b : Bool) : UInt8 := if b then 1 else 0

def writePosition (p : Position) : List UInt8 :=
  littleEndian 4 p.line.toNat ++ littleEndian 4 p.column.toNat

def writeConstant : Value → Except WriteFault (List UInt8)
  | .nil => .ok [0]
  | .bool false => .ok [1]
  | .bool true => .ok [2]
  | .int i => .ok (3 :: littleEndian 8 i.toUInt64.toNat)
  | .float x => .ok (4 :: littleEndian 8 x.bits.toNat)
  | .str s => .ok (5 :: writeText s)
  | v => .error (.constant v.typeName)

def writeConstants : List Value → Except WriteFault (List UInt8)
  | [] => .ok []
  | v :: vs => do
    let bytes ← writeConstant v
    return bytes ++ (← writeConstants vs)

def writeCapture (c : Capture) : List UInt8 :=
  writeText c.name ++ [writeFlag c.inRegister, c.index]

/-- Everything of a prototype before its children. -/
def writeOwn (p : Prototype) : Except WriteFault (List UInt8) := do
  if p.positions.size ≠ p.code.size then
    throw (.positions p.name p.positions.size p.code.size)
  let codeLength ← writeLength p.code.size
  let constantsLength ← writeLength p.constants.size
  let constants ← writeConstants p.constants.toList
  let capturesLength ← writeLength p.captures.size
  return writeText p.name ++ writeText p.source ++ littleEndian 4 p.line.toNat
    ++ [p.params, writeFlag p.isVararg] ++ littleEndian 2 p.window.toNat
    ++ codeLength ++ p.code.toList.flatMap (fun w => littleEndian 4 w.bits.toNat)
    ++ p.positions.toList.flatMap writePosition
    ++ constantsLength ++ constants
    ++ capturesLength ++ p.captures.toList.flatMap writeCapture

mutual

def writePrototype : Prototype → Except WriteFault (List UInt8)
  | .mk name source line params isVararg window code positions constants captures children => do
    let own ← writeOwn
      (.mk name source line params isVararg window code positions constants captures children)
    let childrenLength ← writeLength children.length
    return own ++ childrenLength ++ (← writePrototypes children)

def writePrototypes : List Prototype → Except WriteFault (List UInt8)
  | [] => .ok []
  | child :: rest => do
    let bytes ← writePrototype child
    return bytes ++ (← writePrototypes rest)

end

def header : List UInt8 := signature ++ writeText version

def write (p : Prototype) : Except WriteFault (List UInt8) := do
  return header ++ (← writePrototype p)

end Chunk
end RegisterMachine
