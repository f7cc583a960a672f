import RegisterMachine.Word
import RegisterMachine.Value

/-! Function prototypes: code, its positions in the source, constants, captured variables and the
prototypes nested in it. -/
namespace RegisterMachine

/-- A place in the source. -/
structure Position where
  line : UInt32
  column : UInt32
  deriving DecidableEq, Repr, Inhabited

/-- Where a closure finds a variable when it is made: in a register of the enclosing frame, or among
the variables of the enclosing closure. -/
structure Capture where
  name : String
  inRegister : Bool
  index : UInt8
  deriving DecidableEq, Repr, Inhabited

structure Prototype where
  name : String
  source : String
  line : UInt32 := 0
  /-- The number of parameters. -/
  params : UInt8 := 0
  isVararg : Bool := false
  /-- The number of registers. -/
  window : UInt16 := 2
  code : Array Word := #[]
  /-- The positions of the instructions, in their order. -/
  positions : Array Position := #[]
  constants : Array Value := #[]
  captures : Array Capture := #[]
  children : List Prototype := []
  deriving Inhabited

/-- Whether two constants are the same: doubles by their bits, and never the same as integers. -/
def Value.sameConstant : Value → Value → Bool
  | .float x, .float y => x == y
  | .int _, .float _ => false
  | .float _, .int _ => false
  | a, b => a.rawEqual b

namespace Prototype

/-- The place of a constant in a pool and the pool with it, appended unless it is there. -/
def intern (pool : Array Value) (v : Value) : Nat × Array Value :=
  match pool.findIdx? (·.sameConstant v) with
  | some n => (n, pool)
  | none => (pool.size, pool.push v)

def addConstant (p : Prototype) (v : Value) : Nat × Prototype :=
  let (n, constants) := intern p.constants v
  (n, { p with constants })

def emit (p : Prototype) (w : Word) (position : Position) : Nat × Prototype :=
  (p.code.size, { p with code := p.code.push w, positions := p.positions.push position })

/-- Replaces an instruction, if there is one at the index. -/
def patch (p : Prototype) (n : Nat) (w : Word) : Prototype :=
  { p with code := p.code.setIfInBounds n w }

def addChild (p child : Prototype) : Nat × Prototype :=
  (p.children.length, { p with children := p.children ++ [child] })

def position? (p : Prototype) (n : Nat) : Option Position := p.positions[n]?

end Prototype
end RegisterMachine
