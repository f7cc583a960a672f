import RegisterMachine.Metatable

/-! Closing: captured variables part from their registers, and marked values get their handlers
called. -/
namespace RegisterMachine

/-- Calls the handlers of values in turn. Each is given the value and the error so far; a handler that
fails does not keep the others from running, and the last failure is the outcome. -/
def Script.closeValues (error : Value) (failure : Option Fault) : List Value → Script Unit
  | [] =>
    match failure with
    | some f => .fail f
    | none => .done ()
  | v :: vs =>
    if !v.isTruthy then closeValues error failure vs
    else do
      match ← metamethod v "__close" with
      | .nil =>
        perform (.warn ("to-be-closed " ++ v.typeName ++ " value has no '__close' metamethod"))
        closeValues error failure vs
      | handler =>
        match ← tryCall handler [v, error] with
        | .ok _ => closeValues error failure vs
        | .error f => closeValues f.payload (some f) vs

namespace Exec

def closeBrokers (rs : List (Ref .broker)) : Exec Unit := modify (·.modifyHeap (·.closeBrokers rs))

def closeSlots (slots : List Nat) (error : Value) : Exec Unit := do
  let vs ← read fun m => slots.map m.arena.get
  (Script.closeValues error none vs).exec

/-- Closes all that a frame that was taken off still holds open. -/
def cleanup (f : Frame) (fault : Option Fault) : Exec Unit := do
  let (brokers, f) := f.detachBrokers 0
  closeBrokers brokers
  closeSlots (f.takeMarks 0).1 ((fault.map Fault.payload).getD .nil)

/-- Closes what the innermost frame holds open at or above a slot. -/
def closeFrom (start : Nat) : Exec Unit := do
  let (brokers, f) := (← frame).detachBrokers start
  let (slots, f) := f.takeMarks start
  modifyFrame fun _ => f
  closeBrokers brokers
  closeSlots slots .nil

end Exec
end RegisterMachine
