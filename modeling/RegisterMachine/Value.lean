import RegisterMachine.Number.Numeral

/-! Values: plain ones carry their content, objects are references into the stores of a heap. -/
namespace RegisterMachine

/-- What a reference may point to. -/
inductive ObjectSort
  | table | closure | native | coroutine | file | broker | arena | token
  deriving DecidableEq, Repr, Inhabited

structure Ref (s : ObjectSort) where
  index : Nat
  deriving DecidableEq, Hashable, Repr, Inhabited

inductive Value
  | nil
  | bool (b : Bool)
  | int (i : Int64)
  | float (x : Binary64)
  | str (s : String)
  | table (r : Ref .table)
  | closure (r : Ref .closure)
  | native (r : Ref .native)
  | coroutine (r : Ref .coroutine)
  | file (r : Ref .file)
  deriving DecidableEq, Hashable, Repr, Inhabited

namespace Value

def typeName : Value → String
  | .nil => "nil"
  | .bool _ => "boolean"
  | .int _ | .float _ => "number"
  | .str _ => "string"
  | .table _ => "table"
  | .closure _ | .native _ => "function"
  | .coroutine _ => "thread"
  | .file _ => "userdata"

def isNil : Value → Bool
  | .nil => true
  | _ => false

def isTruthy : Value → Bool
  | .nil | .bool false => false
  | _ => true

def isNumber : Value → Bool
  | .int _ | .float _ => true
  | _ => false

def isString : Value → Bool
  | .str _ => true
  | _ => false

/-- Strings and numbers, which concatenation joins. -/
def isStringable : Value → Bool
  | .str _ | .int _ | .float _ => true
  | _ => false

/-- Objects have an identity of their own. -/
def isObject : Value → Bool
  | .table _ | .closure _ | .native _ | .coroutine _ | .file _ => true
  | _ => false

def ofNumber : Number → Value
  | .int i => .int i
  | .float x => .float x

/-- Equality without metamethods: numbers by value, objects by identity. -/
def rawEqual : Value → Value → Bool
  | .nil, .nil => true
  | .bool a, .bool b => a == b
  | .int i, .int j => i == j
  | .float x, .float y => x.eq y
  | .int i, .float x => x.toInt64? == some i
  | .float x, .int i => x.toInt64? == some i
  | .str a, .str b => a == b
  | .table a, .table b => a == b
  | .closure a, .closure b => a == b
  | .native a, .native b => a == b
  | .coroutine a, .coroutine b => a == b
  | .file a, .file b => a == b
  | _, _ => false

def toNumber? : Value → Option Number
  | .int i => some (.int i)
  | .float x => some (.float x)
  | .str s => Numeral.read? s
  | _ => none

def toBinary64? (v : Value) : Option Binary64 := v.toNumber?.map Number.toBinary64

def toInt64? (v : Value) : Option Int64 := v.toNumber?.bind Number.toInt64?

def stringableText : Value → String
  | .str s => s
  | .int i => toString i.toInt
  | .float x => x.toText
  | _ => ""

/-- A number shown for an object, different for any two objects; plain values have none. -/
def address : Value → Nat
  | .table r => 0x560000000000 + r.index * 0x200
  | .closure r => 0x560000000040 + r.index * 0x200
  | .native r => 0x560000000080 + r.index * 0x200
  | .coroutine r => 0x5600000000c0 + r.index * 0x200
  | .file r => 0x560000000100 + r.index * 0x200
  | _ => 0

end Value
end RegisterMachine
