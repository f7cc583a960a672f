import RegisterMachine.Fault
import RegisterMachine.Number.Division

/-! The operators without metamethods. Each gives no result when its operands are not of a kind it
works on; then a metamethod has the word. -/
namespace RegisterMachine

inductive Operator
  | add | sub | mul | mod | pow | div | idiv | band | bor | bxor | shl | shr
  deriving DecidableEq, Repr, Inhabited

/-- The remainder of the division that rounds down. -/
def intMod (x y : Int64) : Except Fault Int64 :=
  if h : y = 0 then .error .moduloByZero
  else .ok ((Division.modulus? x y).get (Division.isSome_modulus? h))

/-- The quotient rounded down, modulo 2^64. -/
def intDiv (x y : Int64) : Except Fault Int64 :=
  if h : y = 0 then .error .divisionByZero
  else .ok ((Division.quotient? x y).get (Division.isSome_quotient? h))

def shiftLeft (x n : Int64) : Int64 := (Division.shift? x n).get (Division.isSome_shift? x n)

namespace Number

/-- The integer that stands for a number in bitwise operations: a finite double loses its fraction. -/
def toBits : Number → Except Fault Int64
  | .int i => .ok i
  | .float x => if x.isFinite then .ok x.truncInt64 else .error .noInteger

def neg : Number → Number
  | .int i => .int (-i)
  | .float x => .float x.neg

def lt : Number → Number → Bool
  | .int i, .int j => i < j
  | .float x, .float y => x.lt y
  | .int i, .float x => x.intLt i
  | .float x, .int i => x.ltInt i

def le : Number → Number → Bool
  | .int i, .int j => i ≤ j
  | .float x, .float y => x.le y
  | .int i, .float x => !x.isNaN && !x.ltInt i
  | .float x, .int i => !x.isNaN && !x.intLt i

end Number

namespace Operator

/-- The event whose metamethod stands in for the operator. -/
def event : Operator → String
  | .add => "__add"
  | .sub => "__sub"
  | .mul => "__mul"
  | .mod => "__mod"
  | .pow => "__pow"
  | .div => "__div"
  | .idiv => "__idiv"
  | .band => "__band"
  | .bor => "__bor"
  | .bxor => "__bxor"
  | .shl => "__shl"
  | .shr => "__shr"

def isBitwise : Operator → Bool
  | .band | .bor | .bxor | .shl | .shr => true
  | _ => false

/-- What the operator is said to do in messages. -/
def deed (op : Operator) : String :=
  if op.isBitwise then "perform bitwise operation on" else "perform arithmetic on"

/-- The operator on two doubles. -/
def onFloats : Operator → Binary64 → Binary64 → Binary64
  | .add => Binary64.add
  | .sub => Binary64.sub
  | .mul => Binary64.mul
  | .div => Binary64.div
  | .pow => Binary64.pow
  | .mod => Binary64.mod
  | _ => Binary64.idiv

/-- The operator on two integers. -/
def onInts (op : Operator) (x y : Int64) : Except Fault Number :=
  match op with
  | .add => .ok (.int (x + y))
  | .sub => .ok (.int (x - y))
  | .mul => .ok (.int (x * y))
  | .mod => .int <$> intMod x y
  | .idiv => .int <$> intDiv x y
  | .band => .ok (.int (x &&& y))
  | .bor => .ok (.int (x ||| y))
  | .bxor => .ok (.int (x ^^^ y))
  | .shl => .ok (.int (shiftLeft x y))
  | .shr => .ok (.int (shiftLeft x (-y)))
  | .div | .pow => .ok (.float (op.onFloats (.ofInt x.toInt) (.ofInt y.toInt)))

/-- The operator on two numbers: integers stay integers where they can. -/
def onNumbers (op : Operator) (a b : Number) : Except Fault Number :=
  if op.isBitwise then do
    let x ← a.toBits
    let y ← b.toBits
    op.onInts x y
  else
    match a, b with
    | .int x, .int y => op.onInts x y
    | a, b => .ok (.float (op.onFloats a.toBinary64 b.toBinary64))

/-- The operator on two values, if both are numbers or read as numbers. -/
def eval? (op : Operator) (a b : Value) : Except Fault (Option Value) :=
  match a.toNumber?, b.toNumber? with
  | some x, some y => (some ∘ Value.ofNumber) <$> op.onNumbers x y
  | _, _ => .ok none

end Operator

namespace Value

def negative? (v : Value) : Option Value := v.toNumber?.map fun n => .ofNumber n.neg

/-- The complement of the bits of a number. -/
def complement? (v : Value) : Except Fault (Option Value) :=
  match v.toNumber? with
  | some n => (fun i => some (.int (~~~i))) <$> n.toBits
  | none => .ok none

def number? : Value → Option Number
  | .int i => some (.int i)
  | .float x => some (.float x)
  | _ => none

/-- The order of two numbers or two strings. -/
def less? (a b : Value) : Option Bool :=
  match a, b with
  | .str s, .str t => some (s < t)
  | a, b =>
    match a.number?, b.number? with
    | some x, some y => some (x.lt y)
    | _, _ => none

def lessEqual? (a b : Value) : Option Bool :=
  match a, b with
  | .str s, .str t => some (!(t < s))
  | a, b =>
    match a.number?, b.number? with
    | some x, some y => some (x.le y)
    | _, _ => none

end Value
end RegisterMachine
