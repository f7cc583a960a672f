import RegisterMachine.Library.Arguments

/-! The functions on coroutines. -/
namespace RegisterMachine
namespace Library

open Script

def coCreate (args : List Value) : Script (List Value) := do
  let entry ← check (Arguments.function args 1 "create")
  return [← make (.newCoroutine entry)]

/-- Resumes a coroutine; a fault inside becomes its payload, interrupts pass. -/
def coResume (args : List Value) : Script (List Value) := do
  let co ← check (Arguments.coroutine args 1 "resume")
  .ask (.resume co (args.drop 1)) fun
    | .ok reply => .done (.bool true :: reply.values)
    | .error f => if f.isInterrupt then .fail f else .done [.bool false, f.payload]

def coYield (args : List Value) : Script (List Value) := .fail (.yield args)

def coStatus (args : List Value) : Script (List Value) := do
  let co ← check (Arguments.coroutine args 1 "status")
  read fun m => [.str (m.heap.status co).name]

/-- Closes a coroutine; the fault of a handler becomes its payload. -/
def coClose (args : List Value) : Script (List Value) := do
  let co ← check (Arguments.coroutine args 1 "close")
  .ask (.close co) fun
    | .ok _ => .done [.bool true]
    | .error f => .look fun m =>
      if !f.isInterrupt && m.heap.status co = .dead then .done [.bool false, f.payload] else .fail f

def coWrap (args : List Value) : Script (List Value) := do
  let entry ← check (Arguments.function args 1 "wrap")
  match ← make (.newCoroutine entry) with
  | .coroutine co => return [← make (.newNative ⟨"wrap", .wrapped co, 0⟩)]
  | _ => return []

def wrapped (co : Ref .coroutine) (args : List Value) : Script (List Value) := do
  return (← question (.resume co args)).values

def coIsYieldable : Script (List Value) := read fun m => [.bool m.fiber.isYieldable]

/-- The running coroutine, and whether the main program runs instead. -/
def coRunning : Script (List Value) :=
  read fun m =>
    match m.active with
    | co :: _ => [.coroutine co, .bool false]
    | [] => [.nil, .bool true]

end Library
end RegisterMachine
