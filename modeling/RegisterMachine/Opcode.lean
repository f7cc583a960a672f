/-! The fifty operations of the machine, their codes and their operand layouts. -/
namespace RegisterMachine

/-- The operations, in the order of their codes. -/
inductive Opcode
  | move | loadK | loadKX | loadI | loadF | loadBool | loadNil
  | getUpval | getTabUp | getTable | setTabUp | setUpval | setTable | newTable | method
  | add | sub | mul | mod | pow | div | idiv | band | bor | bxor | shl | shr
  | unm | bnot | not | len | concat
  | jmp | eq | lt | le | test | testSet
  | call | tailCall | ret
  | forLoop | forPrep | tforCall | tforLoop
  | setList | closure | varArg | close | tbc
  deriving DecidableEq, Repr, Inhabited

/-- How the bits of a word above the opcode and operand A are divided. -/
inductive Layout
  | abc | abx | asbx
  deriving DecidableEq, Repr, Inhabited

namespace Layout

def name : Layout → String
  | .abc => "ABC"
  | .abx => "ABx"
  | .asbx => "AsBx"

end Layout

namespace Opcode

/-- Every operation, at the index of its code. -/
def all : Array Opcode := #[
  .move, .loadK, .loadKX, .loadI, .loadF, .loadBool, .loadNil,
  .getUpval, .getTabUp, .getTable, .setTabUp, .setUpval, .setTable, .newTable, .method,
  .add, .sub, .mul, .mod, .pow, .div, .idiv, .band, .bor, .bxor, .shl, .shr,
  .unm, .bnot, .not, .len, .concat,
  .jmp, .eq, .lt, .le, .test, .testSet,
  .call, .tailCall, .ret,
  .forLoop, .forPrep, .tforCall, .tforLoop,
  .setList, .closure, .varArg, .close, .tbc]

def code (op : Opcode) : Nat := op.ctorIdx

def ofCode? (n : Nat) : Option Opcode := all[n]?

@[simp] theorem ofCode?_code (op : Opcode) : ofCode? op.code = some op := by
  cases op <;> rfl

theorem code_lt (op : Opcode) : op.code < 50 := by
  cases op <;> decide

/-- The mnemonic. -/
def name : Opcode → String
  | .move => "MOVE" | .loadK => "LOADK" | .loadKX => "LOADKX" | .loadI => "LOADI"
  | .loadF => "LOADF" | .loadBool => "LOADBOOL" | .loadNil => "LOADNIL"
  | .getUpval => "GETUPVAL" | .getTabUp => "GETTABUP" | .getTable => "GETTABLE"
  | .setTabUp => "SETTABUP" | .setUpval => "SETUPVAL" | .setTable => "SETTABLE"
  | .newTable => "NEWTABLE" | .method => "SELF"
  | .add => "ADD" | .sub => "SUB" | .mul => "MUL" | .mod => "MOD" | .pow => "POW"
  | .div => "DIV" | .idiv => "IDIV" | .band => "BAND" | .bor => "BOR" | .bxor => "BXOR"
  | .shl => "SHL" | .shr => "SHR" | .unm => "UNM" | .bnot => "BNOT" | .not => "NOT"
  | .len => "LEN" | .concat => "CONCAT"
  | .jmp => "JMP" | .eq => "EQ" | .lt => "LT" | .le => "LE" | .test => "TEST"
  | .testSet => "TESTSET"
  | .call => "CALL" | .tailCall => "TAILCALL" | .ret => "RETURN"
  | .forLoop => "FORLOOP" | .forPrep => "FORPREP" | .tforCall => "TFORCALL"
  | .tforLoop => "TFORLOOP"
  | .setList => "SETLIST" | .closure => "CLOSURE" | .varArg => "VARARG" | .close => "CLOSE"
  | .tbc => "TBC"

def ofName? (s : String) : Option Opcode := all.find? fun op => op.name == s

def layout : Opcode → Layout
  | .loadK | .closure => .abx
  | .loadI | .loadF | .jmp | .forLoop | .forPrep | .tforLoop => .asbx
  | _ => .abc

/-- Whether a raw word may follow the instruction. -/
def takesExtraWord : Opcode → Bool
  | .loadKX | .setList => true
  | _ => false

end Opcode
end RegisterMachine
