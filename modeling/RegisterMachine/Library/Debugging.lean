import RegisterMachine.Library.Arguments

/-! The functions for debugging, and the end of the program. -/
namespace RegisterMachine
namespace Library

open Script

def debugBreak : Script (List Value) := .fail (.interrupt .debugBreak)

/-- A traceback under a message; a message that is no string comes back as it is. -/
def debugTraceback (args : List Value) : Script (List Value) := do
  let title ← match Arguments.get args 1 with
    | .nil => pure ""
    | .str s => pure (s ++ "\n")
    | v => return [v]
  let level ← check (Arguments.integerOr args 2 "traceback" 1)
  read fun m => [.str (title ++ tracebackText (m.fiber.traceback.drop (level.toInt - 1).toNat))]

def debugGetMetatable (args : List Value) : Script (List Value) :=
  read fun m =>
    match m.heap.metatable? (Arguments.get args 1) with
    | some r => [.table r]
    | none => [.nil]

/-- Sets the metatable of a table, of a coroutine, or of all strings, protected or not. -/
def debugSetMetatable (args : List Value) : Script (List Value) := do
  let metatable ← check (Arguments.metatable args "setmetatable")
  let target := Arguments.get args 1
  match target with
  | .table r => perform (.setTableMetatable r metatable)
  | .coroutine r => perform (.setCoroutineMetatable r metatable)
  | .str _ => perform (.setStringMetatable metatable)
  | v => failWith (.noMetatableOf v.typeName)
  return [target]

/-- Ends the program: false is status 1, nothing and true are status 0. -/
def exit (args : List Value) : Script (List Value) :=
  match Arguments.get args 1 with
  | .nil | .bool true => .fail (.interrupt (.exit 0))
  | .bool false => .fail (.interrupt (.exit 1))
  | v =>
    match v.toInt64? with
    | some i => .fail (.interrupt (.exit i.toInt32))
    | none => .fail (Arguments.bad 1 "exit" "number expected")

end Library
end RegisterMachine
