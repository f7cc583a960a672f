import RegisterMachine.Instruction
import RegisterMachine.Library.Registry

/-! Running a machine: the loop over its steps, calls from the host, and the switches between fibers.
Every run has a bound on its time, and gives nothing when that is used up. -/
namespace RegisterMachine

namespace Exec

/-- Takes frames off with their cleanup. A fault in it takes the place of the one before. -/
def unwindFrames : Nat → Fault → Exec Fault
  | 0, f => pure f
  | n + 1, f => do
    let frame ← popFrame
    match ← attempt (cleanup frame (some f)) with
    | .ok () => unwindFrames n f
    | .error e =>
      let e ← read fun m => m.locate e
      unwindFrames n e

/-- Brings the frames down to a depth after a fault, which is located first. A yield leaves them as
they are, for the resumption. -/
def unwind (stop : Nat) (f : Fault) : Exec Fault :=
  match f with
  | .interrupt (.yield vs) => pure (.yield vs)
  | f => do
    let f ← read fun m => m.locate f
    let depth ← read Machine.callDepth
    unwindFrames (depth - stop) f

/-- Takes frames off with their cleanup, for no fault; gives the last one that arose in it. -/
def closeFrames (failure : Option Fault) : Nat → Exec (Option Fault)
  | 0 => pure failure
  | n + 1 => do
    let frame ← popFrame
    match ← attempt (cleanup frame none) with
    | .ok () => closeFrames failure n
    | .error e => closeFrames (some e) n

end Exec

namespace Machine

def unwound {α : Type} (serve : Server) (stop : Nat) (f : Fault) (m : Machine) : Outcome α :=
  ((Exec.unwind stop f m).run serve).andThen fun f m => some (.error f, m)

/-- Steps until values leave the frame above a depth, or a fault does. -/
def dispatch (host : Host) (serve : Server) (stop : Nat) : Nat → Machine → Outcome (List Value)
  | 0, _ => none
  | time + 1, m =>
    match (Exec.step host stop m).run serve with
    | none => none
    | some (.ok none, m) => dispatch host serve stop time m
    | some (.ok (some vs), m) => some (.ok vs, m)
    | some (.error f, m) => unwound serve stop f m

/-- Runs a call whose callee and arguments are in place. -/
def runCall (host : Host) (serve : Server) (time start count : Nat) (m : Machine) :
    Outcome (List Value) :=
  let depth := m.callDepth
  ((Exec.begin host start count none m).run serve).andThen fun results m =>
    match results with
    | some vs => some (.ok vs, m)
    | none => dispatch host serve depth time m

def enterCall (m : Machine) : Machine :=
  { m with nativeDepth := m.nativeDepth + 1, fiber := { m.fiber with nested := m.fiber.nested + 1 } }

/-- Undoes `enterCall` and brings the top back. -/
def leaveCall (m : Machine) (top : Nat) : Machine :=
  { m with
    nativeDepth := m.nativeDepth - 1
    fiber := { m.fiber with nested := m.fiber.nested - 1, top } }

/-- No call from the host can wait for a resumption. -/
def withoutYield {α : Type} : Except Fault α → Except Fault α
  | .error (.interrupt (.yield _)) => .error (.runtime .yieldAcrossCall)
  | r => r

/-- Calls a value above all that the running fiber uses. -/
def callValue (host : Host) (serve : Server) (time : Nat) (f : Value) (args : List Value)
    (m : Machine) : Outcome (List Value) :=
  if m.limits.maxNativeDepth ≤ m.nativeDepth then some (.error .stackOverflow, m)
  else
    let start := m.fiber.freeSlot
    let place : Exec Unit := do
      Exec.setSlot start f
      Exec.writeRange (start + 1) args
    ((place m).run serve).andThen fun () m =>
      let top := m.fiber.top
      (runCall host serve time start args.length m.enterCall).afterwards fun r m =>
        (withoutYield r, m.leaveCall top)

def setStatus (m : Machine) (co : Ref .coroutine) (status : Status) : Machine :=
  m.modifyHeap (·.modifyCoroutine co fun c => { c with status })

def park (m : Machine) (co : Ref .coroutine) (parked : Option Fiber) : Machine :=
  m.modifyHeap (·.modifyCoroutine co fun c => { c with parked })

/-- Lets another fiber run; the running one waits for it. -/
def switchTo (m : Machine) (fiber : Fiber) : Machine :=
  { m with fiber, waiting := m.fiber :: m.waiting }

/-- Goes back to the fiber that waits. -/
def switchBack (m : Machine) : Machine :=
  match m.waiting with
  | fiber :: waiting => { m with fiber, waiting }
  | [] => m

/-- Changes the status of the coroutine being resumed, if there is one. -/
def setActiveStatus (m : Machine) (status : Status) : Machine :=
  match m.active with
  | co :: _ => m.setStatus co status
  | [] => m

def enterCoroutine (m : Machine) (co : Ref .coroutine) (fiber : Fiber) : Machine :=
  let m := (((m.park co none).setActiveStatus .normal).setStatus co .running).switchTo fiber
  { m with active := co :: m.active, nativeDepth := m.nativeDepth + 1 }

/-- Leaves the running coroutine: after a yield its fiber is parked, otherwise it is dead. -/
def leaveCoroutine (co : Ref .coroutine) (r : Except Fault (List Value)) (m : Machine) :
    Except Fault Reply × Machine :=
  let fiber := m.fiber
  let m := { m with active := m.active.drop 1, nativeDepth := m.nativeDepth - 1 }
  let m := m.switchBack.setActiveStatus .running
  match r with
  | .ok values => (.ok ⟨values, false⟩, m.setStatus co .dead)
  | .error (.interrupt (.yield values)) =>
    (.ok ⟨values, true⟩, (m.park co (some fiber)).setStatus co .suspended)
  | .error f => (.error f, m.setStatus co .dead)

/-- Runs the fiber of a coroutine that was just entered. -/
def drive (host : Host) (serve : Server) (time : Nat) (entry : Callee) (args : List Value)
    (m : Machine) : Outcome (List Value) :=
  let pending := m.fiber.pending
  let m := m.modifyFiber fun f => { f with pending := none }
  match pending with
  | some (.call start wanted) =>
    match (Exec.placeResults start wanted args m).run serve with
    | none => none
    | some (.ok (), m) => dispatch host serve 0 time m
    | some (.error f, m) => unwound serve 0 f m
  | some .entry => some (.ok args, m)
  | none =>
    match entry with
    | .native r =>
      ((Exec.invokeNative host r args m).run serve).afterwards fun result m =>
        match result with
        | .error (.interrupt (.yield vs)) =>
          (.error (.yield vs), m.modifyFiber fun f => { f with pending := some .entry })
        | result => (result, m)
    | .closure r =>
      let start : Exec Unit := do
        Exec.setSlot 0 (.closure r)
        Exec.writeRange 1 args
        Exec.pushFrame r 0 args.length none
      ((start m).run serve).andThen fun () m => dispatch host serve 0 time m

/-- Resumes a suspended coroutine until it returns, fails or yields. -/
def resume (host : Host) (serve : Server) (time : Nat) (co : Ref .coroutine) (args : List Value)
    (m : Machine) : Outcome Reply :=
  match m.heap.coroutine? co with
  | none => some (.error (.runtime .resumeDead), m)
  | some c =>
    match c.status with
    | .dead => some (.error (.runtime .resumeDead), m)
    | .running | .normal => some (.error (.runtime .resumeBusy), m)
    | .suspended =>
      if m.isCancelled c.token then some (.error .cancelled, m.setStatus co .dead)
      else if m.limits.maxNativeDepth ≤ m.nativeDepth then some (.error .stackOverflow, m)
      else
        match c.parked with
        | none => some (.error (.runtime .resumeBusy), m)
        | some fiber =>
          (drive host serve time c.entry args (m.enterCoroutine co fiber)).afterwards
            (leaveCoroutine co)

def closeFiber (serve : Server) (fiber : Fiber) (m : Machine) : Outcome (Option Fault) :=
  if fiber.calls.depth = 0 then some (.ok none, m)
  else
    ((Exec.closeFrames none fiber.calls.depth (m.switchTo fiber)).run serve).afterwards fun r m =>
      (r, m.switchBack)

/-- Ends a suspended coroutine: its frames are closed, and it and all it spawned are cancelled. -/
def closeCoroutine (serve : Server) (co : Ref .coroutine) (m : Machine) : Outcome Unit :=
  match m.heap.coroutine? co with
  | none => some (.ok (), m)
  | some c =>
    match c.status with
    | .dead => some (.ok (), m)
    | .running | .normal => some (.error (.runtime .closeBusy), m)
    | .suspended =>
      let m := m.park co none
      let closed : Outcome (Option Fault) :=
        match c.parked with
        | none => some (.ok none, m)
        | some fiber => closeFiber serve fiber m
      closed.andThen fun failure m =>
        let m := m.modifyHeap fun h => { h with tokens := h.tokens.cancel c.token }
        let m := m.setStatus co .dead
        match failure with
        | some f => some (.error f, m)
        | none => some (.ok (), m)

/-- Answers questions within a time. -/
def serve (host : Host) : Nat → Server
  | 0 => fun _ _ => none
  | time + 1 => fun q m =>
    match q with
    | .call f args =>
      (callValue host (serve host time) time f args m).andThen fun values m =>
        some (.ok { values }, m)
    | .resume co args => resume host (serve host time) time co args m
    | .close co =>
      (closeCoroutine (serve host time) co m).andThen fun () m => some (.ok {}, m)

def perform {α : Type} (host : Host) (time : Nat) (s : Script α) (m : Machine) : Outcome α :=
  (s.exec m).run (serve host time)

end Machine
end RegisterMachine
