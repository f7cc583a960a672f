import RegisterMachine.Library.Arguments
import RegisterMachine.Metatable

/-! The functions that every program can reach as globals. -/
namespace RegisterMachine
namespace Library

open Script

def assert (args : List Value) : Script (List Value) :=
  if (Arguments.get args 1).isTruthy then .done args
  else
    match Arguments.get? args 2 with
    | some v => .fail (.raised v)
    | none => failWith .assertionFailed

/-- Raises a value; a string is told apart by the location of the frame at a level. -/
def error (args : List Value) : Script (List Value) := do
  let level ← check (Arguments.integerOr args 2 "error" 1)
  match Arguments.get args 1 with
  | .str s =>
    let location ← read fun m => m.fiber.locationAt level.toInt.toNat
    match location with
    | some l => .fail (.raised (.str (l.text ++ ": " ++ s)))
    | none => .fail (.raised (.str s))
  | v => .fail (.raised v)

/-- A call whose fault becomes its payload; interrupts and cancellation pass. -/
def guarded (f : Value) (args : List Value) : Script (Except Value (List Value)) := do
  match ← tryCall f args with
  | .ok vs => return .ok vs
  | .error e => if e.isInterrupt || e.isCancelled then .fail e else return .error e.payload

def pcall (args : List Value) : Script (List Value) := do
  match ← guarded (Arguments.get args 1) (args.drop 1) with
  | .ok vs => return .bool true :: vs
  | .error payload => return [.bool false, payload]

/-- A guarded call whose payload a handler, itself guarded, turns into the second result. -/
def xpcall (args : List Value) : Script (List Value) := do
  let handler ← check (Arguments.function args 2 "xpcall")
  match ← guarded (Arguments.get args 1) (args.drop 2) with
  | .ok vs => return .bool true :: vs
  | .error payload =>
    match ← guarded handler.toValue [payload] with
    | .ok vs => return [.bool false, vs.headD .nil]
    | .error nested => return [.bool false, nested]

def type (args : List Value) : Script (List Value) :=
  .done [.str (Arguments.get args 1).typeName]

def tostring (args : List Value) : Script (List Value) := do
  return [.str (← text (Arguments.get args 1))]

def tonumber (args : List Value) : Script (List Value) := do
  let v := Arguments.get args 1
  if (Arguments.get args 2).isNil then
    return [match v.toNumber? with
      | some n => .ofNumber n
      | none => .nil]
  let base ← check (Arguments.integer args 2 "tonumber")
  if base < 2 || 36 < base then .fail (Arguments.bad 2 "tonumber" "base out of range")
  match v with
  | .str s => return [match Numeral.inBase? base.toInt.toNat s with
      | some i => .int i
      | none => .nil]
  | v => .fail (Arguments.bad 1 "tonumber" ("string expected, got " ++ v.typeName))

def rawget (args : List Value) : Script (List Value) := do
  let r ← check (Arguments.table args 1 "rawget")
  read fun m => [(m.heap.table r).get (Arguments.get args 2)]

def rawset (args : List Value) : Script (List Value) := do
  let r ← check (Arguments.table args 1 "rawset")
  rawSet r (Arguments.get args 2) (Arguments.get args 3)
  return [.table r]

def rawequal (args : List Value) : Script (List Value) :=
  .done [.bool ((Arguments.get args 1).rawEqual (Arguments.get args 2))]

def rawlen (args : List Value) : Script (List Value) :=
  match Arguments.get args 1 with
  | .table r => read fun m => [.int (Int64.ofInt (m.heap.table r).border)]
  | .str s => .done [.int (Int64.ofInt s.utf8ByteSize)]
  | _ => .fail (Arguments.bad 1 "rawlen" "table or string expected")

/-- The field that protects a metatable and stands for it, nil when it is not protected. -/
def protection (h : Heap) (metatable : Option (Ref .table)) : Value :=
  match metatable with
  | some r => (h.table r).getStr "__metatable"
  | none => .nil

def setmetatable (args : List Value) : Script (List Value) := do
  let r ← check (Arguments.table args 1 "setmetatable")
  let metatable ← check (Arguments.metatable args "setmetatable")
  let guard ← read fun m => protection m.heap (m.heap.table r).metatable
  if !guard.isNil then failWith .protectedMetatable
  perform (.setTableMetatable r metatable)
  return [.table r]

def getmetatable (args : List Value) : Script (List Value) :=
  read fun m =>
    match m.heap.metatable? (Arguments.get args 1) with
    | none => [.nil]
    | some r =>
      match protection m.heap (some r) with
      | .nil => [.table r]
      | guard => [guard]

def next (args : List Value) : Script (List Value) := do
  let r ← check (Arguments.table args 1 "next")
  let found ← read fun m => (m.heap.table r).next (Arguments.get args 2)
  match found with
  | .error f => .fail (.ofTraversalFault f)
  | .ok (some (k, v)) => return [k, v]
  | .ok none => return [.nil]

/-- What a generic loop over a value needs: a step function, the value, and where to start. -/
def pairs (args : List Value) : Script (List Value) := do
  let v := Arguments.get args 1
  match ← metamethod v "__pairs" with
  | .nil =>
    let r ← check (Arguments.table args 1 "pairs")
    return [← make (.newNative ⟨"next", .builtin .next, 0⟩), .table r, .nil]
  | handler =>
    let vs ← call handler [v]
    return [Arguments.get vs 1, Arguments.get vs 2, Arguments.get vs 3]

def ipairs (args : List Value) : Script (List Value) := do
  return [← make (.newNative ⟨"ipairs_iterator", .ipairsStep, 0⟩), Arguments.get args 1, .int 0]

/-- The next index with its value, or nil when there is none. -/
def ipairsStep (args : List Value) : Script (List Value) := do
  let i ← check (Arguments.integer args 2 "ipairs_iterator")
  match ← index (Arguments.get args 1) (.int (i + 1)) with
  | .nil => return [.nil]
  | v => return [.int (i + 1), v]

/-- The arguments from a place on, counted from the end when negative, or their number. -/
def select (args : List Value) : Script (List Value) :=
  let rest := args.drop 1
  match Arguments.get args 1 with
  | .str "#" => .done [.int (Int64.ofInt rest.length)]
  | _ => do
    let n ← check (Arguments.integer args 1 "select")
    let count := Int64.ofInt rest.length
    -- the least integer is its own opposite
    if n = 0 || n < 0 && count < -n then .fail (Arguments.bad 1 "select" "index out of range")
    else if n < 0 then return rest.drop (count + n).toUInt64.toNat
    else return rest.drop (n.toInt - 1).toNat

def texts : List Value → Script (List String)
  | [] => .done []
  | v :: vs => do
    let s ← text v
    return s :: (← texts vs)

/-- Prints the texts of the arguments on a line, with tabs between them. -/
def print (args : List Value) : Script (List Value) := do
  let line := "\t".intercalate (← texts args) ++ "\n"
  if ← read fun m => m.isSinkClosed then failWith (.printFailed "sink closed")
  perform (.print line)
  return []

end Library
end RegisterMachine
