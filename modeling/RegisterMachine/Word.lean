import RegisterMachine.Opcode

/-! Instruction words: the opcode in the low six bits, operand A in the next eight, and above them
either B and C (nine bits each, the top one marking a constant) or the sixteen bits of Bx. -/
namespace RegisterMachine

structure Word where
  bits : UInt32
  deriving DecidableEq, Repr, Inhabited

inductive Operand
  | register (index : UInt8)
  | constant (index : UInt8)
  deriving DecidableEq, Repr, Inhabited

namespace Operand

def index : Operand → UInt8
  | .register i => i
  | .constant i => i

def isConstant : Operand → Bool
  | .register _ => false
  | .constant _ => true

/-- The nine bits of an operand: its index under the constant mark. -/
def bits : Operand → UInt32
  | .register i => i.toUInt32
  | .constant i => i.toUInt32 ||| 0x100

end Operand

namespace Word

/-- The six opcode bits, which need not name an operation. -/
def code (w : Word) : Nat := (w.bits &&& 0x3f).toNat

def opcode? (w : Word) : Option Opcode := Opcode.ofCode? w.code

def a (w : Word) : UInt8 := (w.bits >>> 6).toUInt8

def b (w : Word) : UInt8 := (w.bits >>> 14).toUInt8

def c (w : Word) : UInt8 := (w.bits >>> 23).toUInt8

def bIsConstant (w : Word) : Bool := (w.bits >>> 14) &&& 0x100 != 0

def cIsConstant (w : Word) : Bool := (w.bits >>> 23) &&& 0x100 != 0

def bx (w : Word) : UInt16 := (w.bits >>> 16).toUInt16

/-- Bx read as a two's-complement number. -/
def sbx (w : Word) : Int16 := w.bx.toInt16

/-- Whether a raw word belongs to the instruction: always after LOADKX, and after SETLIST when C is
zero. -/
def hasExtraWord (w : Word) : Bool :=
  match w.opcode? with
  | some .loadKX => true
  | some .setList => w.c == 0
  | _ => false

def operandB (w : Word) : Operand := if w.bIsConstant then .constant w.b else .register w.b

def operandC (w : Word) : Operand := if w.cIsConstant then .constant w.c else .register w.c

def abc (op : Opcode) (a : UInt8) (b c : Operand) : Word :=
  ⟨UInt32.ofNat op.code ||| (a.toUInt32 <<< 6) ||| (b.bits <<< 14) ||| (c.bits <<< 23)⟩

def abx (op : Opcode) (a : UInt8) (bx : UInt16) : Word :=
  ⟨UInt32.ofNat op.code ||| (a.toUInt32 <<< 6) ||| (bx.toUInt32 <<< 16)⟩

def asbx (op : Opcode) (a : UInt8) (sbx : Int16) : Word := abx op a sbx.toUInt16

end Word
end RegisterMachine
