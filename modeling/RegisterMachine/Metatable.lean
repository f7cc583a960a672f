import RegisterMachine.Operator
import RegisterMachine.Script

/-! Metatables: the operators with the metamethods that stand in for them. -/
namespace RegisterMachine

/-- The longest chain of handlers that reading or assigning a field follows. -/
def maxFieldLinks : Nat := 2000

/-- What reading a field comes to. -/
inductive Access
  | value (v : Value)
  /-- A function has to be asked, for the object whose handler it is. -/
  | handler (function holder : Value)
  | fault (f : Fault)
  deriving DecidableEq, Repr, Inhabited

/-- What assigning a field comes to. -/
inductive Assignment
  | store (r : Ref .table)
  | handler (function holder : Value)
  | fault (f : Fault)
  deriving DecidableEq, Repr, Inhabited

namespace Heap

/-- Follows the handlers of a read over a bounded number of links. -/
def accessAlong (h : Heap) (key : Value) : Nat → Value → Access
  | 0, _ => .fault (.runtime (.chainTooLong "__index"))
  | links + 1, object =>
    let follow (handler : Value) : Access :=
      match handler with
      | .nil => .value .nil
      | .closure r => .handler (.closure r) object
      | .native r => .handler (.native r) object
      | next => h.accessAlong key links next
    match object with
    | .table r =>
      let t := h.table r
      let v := t.get key
      if !v.isNil then .value v
      else
        match t.metatable with
        | none => .value .nil
        | some mt => follow ((h.table mt).getStr "__index")
    | object =>
      match h.metamethod object "__index" with
      | .nil => .fault (.typeError "index" object)
      | handler => follow handler

def access (h : Heap) (object key : Value) : Access := h.accessAlong key maxFieldLinks object

/-- Follows the handlers of an assignment over a bounded number of links. -/
def assignmentAlong (h : Heap) (key : Value) : Nat → Value → Assignment
  | 0, _ => .fault (.runtime (.chainTooLong "__newindex"))
  | links + 1, object =>
    let follow (handler : Value) : Assignment :=
      match handler with
      | .closure r => .handler (.closure r) object
      | .native r => .handler (.native r) object
      | next => h.assignmentAlong key links next
    match object with
    | .table r =>
      let t := h.table r
      let handler :=
        if !(t.get key).isNil then .nil
        else
          match t.metatable with
          | none => .nil
          | some mt => (h.table mt).getStr "__newindex"
      if handler.isNil then .store r else follow handler
    | object =>
      match h.metamethod object "__newindex" with
      | .nil => .fault (.typeError "index" object)
      | handler => follow handler

def assignment (h : Heap) (object key : Value) : Assignment :=
  h.assignmentAlong key maxFieldLinks object

def binaryHandler (h : Heap) (left right : Value) (event : String) : Value :=
  match h.metamethod left event with
  | .nil => h.metamethod right event
  | handler => handler

end Heap

namespace Script

/-- Assigns a field without metamethods. -/
def rawSet (r : Ref .table) (key v : Value) : Script Unit :=
  match Key.ofValue key with
  | .ok k => perform (.setField r k v)
  | .error f => .fail (.ofKeyFault f)

def index (object key : Value) : Script Value :=
  .look fun m =>
    match m.heap.access object key with
    | .value v => .done v
    | .handler function holder => callOne function [holder, key]
    | .fault f => .fail f

def setIndex (object key v : Value) : Script Unit :=
  .look fun m =>
    match m.heap.assignment object key with
    | .store r => rawSet r key v
    | .handler function holder => do discard <| call function [holder, key, v]
    | .fault f => .fail f

/-- Calls the handler of either operand, or fails when there is none. -/
def binaryEvent (left right : Value) (event : String) (otherwise : Fault) : Script Value :=
  .look fun m =>
    match m.heap.binaryHandler left right event with
    | .nil => .fail otherwise
    | handler => callOne handler [left, right]

def arith (op : Operator) (left right : Value) : Script Value :=
  match op.eval? left right with
  | .error f => .fail f
  | .ok (some v) => .done v
  | .ok none =>
    let culprit := if left.toNumber?.isNone then left else right
    binaryEvent left right op.event (.typeError op.deed culprit)

/-- Calls the handler of the only operand, which it is given twice. -/
def unaryEvent (v : Value) (event : String) (otherwise : Script Value) : Script Value := do
  match ← metamethod v event with
  | .nil => otherwise
  | handler => callOne handler [v, v]

def negate (v : Value) : Script Value :=
  match v.negative? with
  | some n => .done n
  | none => unaryEvent v "__unm" (.fail (.typeError "perform arithmetic on" v))

def complement (v : Value) : Script Value :=
  match v.complement? with
  | .error f => .fail f
  | .ok (some n) => .done n
  | .ok none => unaryEvent v "__bnot" (.fail (.typeError "perform bitwise operation on" v))

/-- The length in bytes of a string, or the border of a table. -/
def length (v : Value) : Script Value :=
  match v with
  | .str s => .done (.int (Int64.ofInt s.utf8ByteSize))
  | v => unaryEvent v "__len" <|
    match v with
    | .table r => read fun m => .int (Int64.ofInt (m.heap.table r).border)
    | v => .fail (.typeError "get length of" v)

def joined (run : List Value) (last : Value) : Value :=
  if run.isEmpty then last
  else .str (String.join (run.map Value.stringableText) ++ last.stringableText)

/-- Joins values from the right: `run` waits in front of `last`, and the list holds what comes before
it, the nearest first. -/
def concatInto (run : List Value) (last : Value) : List Value → Script Value
  | [] => .done (joined run last)
  | left :: rest =>
    if left.isStringable && last.isStringable then concatInto (left :: run) last rest
    else do
      let right := joined run last
      let culprit := if left.isStringable then right else left
      let v ← binaryEvent left right "__concat" (.typeError "concatenate" culprit)
      concatInto [] v rest

/-- Concatenates values; no values give the empty string. -/
def concat (vs : List Value) : Script Value :=
  match vs.reverse with
  | [] => .done (.str "")
  | last :: rest => concatInto [] last rest

def equals (left right : Value) : Script Bool :=
  if left.rawEqual right then .done true
  else
    match left, right with
    | .table _, .table _ => .look fun m =>
      match m.heap.binaryHandler left right "__eq" with
      | .nil => .done false
      | handler => Value.isTruthy <$> callOne handler [left, right]
    | _, _ => .done false

def compareEvent (left right : Value) (event : String) : Script Bool :=
  Value.isTruthy <$> binaryEvent left right event (.incomparable left.typeName right.typeName)

def lessThan (left right : Value) : Script Bool :=
  match left.less? right with
  | some b => .done b
  | none => compareEvent left right "__lt"

def lessEqual (left right : Value) : Script Bool :=
  match left.lessEqual? right with
  | some b => .done b
  | none => compareEvent left right "__le"

/-- The text of a value: what its metamethod says, its type's own name, or the plain text. -/
def text (v : Value) : Script String := do
  match ← metamethod v "__tostring" with
  | .nil =>
    match v with
    | .str s => return s
    | v =>
      match ← metamethod v "__name" with
      | .str name => return name ++ ": " ++ Heap.addressText v
      | _ => read fun m => m.heap.display v
  | handler =>
    match ← callOne handler [v] with
    | .str s => return s
    | _ => failWith .tostringResult

end Script
end RegisterMachine
