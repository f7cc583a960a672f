import RegisterMachine.Table
import RegisterMachine.Chunk.Reader

/-! Faults and interrupts: everything that ends a computation before its results. -/
namespace RegisterMachine

/-- A place in a source, by name. -/
structure Location where
  source : String
  line : UInt32
  column : UInt32
  deriving DecidableEq, Repr, Inhabited

namespace Location

def text (l : Location) : String := l.source ++ ":" ++ toString l.line.toNat

end Location

/-- One call of a traceback. -/
structure TraceEntry where
  function : String
  location : Option Location
  deriving DecidableEq, Repr, Inhabited

namespace TraceEntry

def text (e : TraceEntry) : String :=
  let place := match e.location with
    | some l => l.text
    | none => "?"
  place ++ ": in function '" ++ e.function ++ "'"

end TraceEntry

/-- The lines of a traceback under its title. -/
def tracebackText (trace : List TraceEntry) : String :=
  String.join ("stack traceback:" :: trace.map fun e => "\n\t" ++ e.text)

/-- Transfers of control that are no errors. -/
inductive Interrupt
  /-- Suspend the running coroutine and hand values to its resumer. -/
  | yield (values : List Value)
  /-- End the program with a status. -/
  | exit (status : Int32)
  /-- Stop at the call and show the frame to the debugger. -/
  | debugBreak
  deriving DecidableEq, Repr, Inhabited

namespace Interrupt

def message : Interrupt → String
  | .yield values => "yield of " ++ toString values.length ++ " value(s)"
  | .exit status => "exit with status " ++ toString status.toInt
  | .debugBreak => "debug break"

end Interrupt

inductive Cause
  | noFrame
  | badConstant (index : Nat)
  | badFunction (index : Nat)
  | badUpvalue (index : Nat)
  | missingWord
  | jumpOutOfRange
  | chainTooLong (event : String)
  | yieldOutside
  | yieldAcrossCall
  | resumeDead
  | resumeBusy
  | closeBusy
  | tostringResult
  | badArgument (index : Nat) (function complaint : String)
  | assertionFailed
  | protectedMetatable
  | noMetatableOf (typeName : String)
  | unknownKey
  | badChunk (f : Chunk.ReadFault)
  | printFailed (reason : String)
  | other (text : String)
  deriving DecidableEq, Repr, Inhabited

namespace Cause

def message : Cause → String
  | .noFrame => "no active call frame"
  | .badConstant index => "invalid constant index: " ++ toString index
  | .badFunction index => "invalid function index: " ++ toString index
  | .badUpvalue index => "invalid upvalue index: " ++ toString index
  | .missingWord => "missing extra argument word"
  | .jumpOutOfRange => "jump out of range"
  | .chainTooLong event => "'" ++ event ++ "' chain too long; possible loop"
  | .yieldOutside => "attempt to yield from outside a coroutine"
  | .yieldAcrossCall => "attempt to yield across a native-call boundary"
  | .resumeDead => "cannot resume dead coroutine"
  | .resumeBusy => "cannot resume non-suspended coroutine"
  | .closeBusy => "cannot close a non-suspended coroutine"
  | .tostringResult => "'__tostring' must return a string"
  | .badArgument index function complaint =>
    "bad argument #" ++ toString index ++ " to '" ++ function ++ "' (" ++ complaint ++ ")"
  | .assertionFailed => "assertion failed!"
  | .protectedMetatable => "cannot change a protected metatable"
  | .noMetatableOf typeName => "cannot set the metatable of a " ++ typeName ++ " value"
  | .unknownKey => "invalid key to 'next'"
  | .badChunk f => "cannot load binary chunk: " ++ f.message
  | .printFailed reason => "print: " ++ reason
  | .other text => text

end Cause

inductive Fault
  | stackOverflow
  | wrongType (operation typeName : String)
  | incomparable (left right : String)
  | notCallable (typeName : String)
  | noInteger
  | moduloByZero
  | divisionByZero
  | forControl (what : String)
  | forStepZero
  | badKey (what : String)
  | badOpcode (code : Nat)
  | cancelled
  | runtime (cause : Cause)
  | raised (value : Value)
  /-- A fault with where it happened and the calls that led there. -/
  | located (fault : Fault) (location : Option Location) (trace : List TraceEntry)
  | interrupt (i : Interrupt)
  deriving DecidableEq, Repr, Inhabited

namespace Fault

def typeError (operation : String) (v : Value) : Fault := .wrongType operation v.typeName

def yield (values : List Value) : Fault := .interrupt (.yield values)

def ofKeyFault (f : KeyFault) : Fault := .badKey f.name

def ofTraversalFault : TraversalFault → Fault
  | .badKey f => ofKeyFault f
  | .unknownKey => .runtime .unknownKey

def raisedText : Value → String
  | .nil => "nil"
  | v => if v.isStringable then v.stringableText
    else "(" ++ v.typeName ++ " error object is not a string)"

def isRaised : Fault → Bool
  | .raised _ => true
  | _ => false

def message : Fault → String
  | .stackOverflow => "stack overflow"
  | .wrongType operation typeName => "attempt to " ++ operation ++ " a " ++ typeName ++ " value"
  | .incomparable left right =>
    if left == right then "attempt to compare two " ++ left ++ " values"
    else "attempt to compare " ++ left ++ " with " ++ right
  | .notCallable typeName => "attempt to call a " ++ typeName ++ " value"
  | .noInteger => "number has no integer representation"
  | .moduloByZero => "attempt to perform 'n%%0'"
  | .divisionByZero => "attempt to perform 'n//0'"
  | .forControl what => "'for' " ++ what ++ " must be a number"
  | .forStepZero => "'for' step is zero"
  | .badKey what => "table index is " ++ what
  | .badOpcode code => "invalid opcode: " ++ toString code
  | .cancelled => "execution cancelled"
  | .runtime cause => cause.message
  | .raised v => raisedText v
  | .located fault location _ =>
    match fault.isRaised, location with
    | false, some l => l.text ++ ": " ++ fault.message
    | _, _ => fault.message
  | .interrupt i => i.message

def root : Fault → Fault
  | .located fault _ _ => fault.root
  | f => f

def isInterrupt : Fault → Bool
  | .interrupt _ => true
  | _ => false

def isCancelled (f : Fault) : Bool := f.root = .cancelled

def location? : Fault → Option Location
  | .located _ location _ => location
  | _ => none

def trace? : Fault → Option (List TraceEntry)
  | .located _ _ trace => some trace
  | _ => none

/-- The value that a protected call gives for a fault: what was raised, or the message. -/
def payload : Fault → Value
  | .raised v => v
  | .located (.raised v) _ _ => v
  | f => .str f.message

end Fault
end RegisterMachine
