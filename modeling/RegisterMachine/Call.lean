import RegisterMachine.Closing
import RegisterMachine.Library

/-! Calls. The callee stands in a slot with the arguments behind it; the results are written from that
slot on. A closure gets a frame whose register 0 is the first argument, a native function runs at
once. -/
namespace RegisterMachine

/-- How often a value that is no function may hand a call on. -/
def maxCallLinks : Nat := 64

/-- Values that leave a frame, where they go and how many are wanted. -/
structure Exit where
  values : List Value
  slot : Nat
  wanted : Option Nat
  deriving DecidableEq, Repr, Inhabited

/-- A list cut or filled up with nil to a length. -/
def adjust (vs : List Value) (n : Nat) : List Value :=
  vs.take n ++ List.replicate (n - vs.length) .nil

namespace Exec

/-- Finds the function that a call comes to over a bounded number of links. Each handler takes the
place of the value it belongs to, which becomes the first argument. -/
def resolveAlong : Nat → Nat → Nat → Exec (Callee × Nat)
  | 0, _, _ => failWith (.chainTooLong "__call")
  | links + 1, start, count => do
    let v ← slot start
    match v.callee? with
    | some f => pure (f, count)
    | none =>
      match ← read fun m => m.heap.metamethod v "__call" with
      | .nil => fail (.notCallable v.typeName)
      | handler =>
        let args ← readRange (start + 1) count
        setSlot start handler
        setSlot (start + 1) v
        writeRange (start + 2) args
        resolveAlong links start (count + 1)

/-- The function behind the value in a slot, and the number of its arguments. -/
def resolve (start count : Nat) : Exec (Callee × Nat) := resolveAlong maxCallLinks start count

/-- Opens a frame for a closure in a slot: the parameters keep their arguments, the rest of the window
is nil. -/
def pushFrame (r : Ref .closure) (start count : Nat) (wanted : Option Nat) : Exec Unit := do
  let closure ← read fun m => m.heap.closure r
  let p := closure.prototype
  let params := p.params.toNat
  if ← read fun m => decide (m.limits.maxCallDepth ≤ m.callDepth) then fail .stackOverflow
  let frame : Frame := { closure, base := start + 1, returnSlot := start, wanted }
  let varargs ← if p.isVararg then readRange (frame.base + params) (count - params) else pure []
  ensureSlot frame.top
  clearRange (frame.base + min count params) frame.top
  setTop frame.top
  modify (·.modifyFiber fun f => { f with calls := f.calls.push { frame with varargs } })

/-- Writes results from a slot on, as many as are wanted. -/
def placeResults (start : Nat) (wanted : Option Nat) (vs : List Value) : Exec Unit := do
  match wanted with
  | some n =>
    writeRange start (adjust vs n)
    modify fun m => m.setTop (match m.frame? with
      | some f => f.top
      | none => start + n)
  | none =>
    writeRange start vs
    setTop (start + vs.length)

/-- Shows the innermost frame to the debugger, which may answer with a fault. -/
def stopForDebugger : Exec Unit := fun m =>
  match m.snapshot?, m.hook with
  | some s, some (.keep answer) =>
    let m := { m with snapshots := m.snapshots.push s }
    match answer with
    | some f => .raise f m
    | none => .ret () m
  | _, _ => .ret () m

/-- Runs a native function; a debug break ends it without results. -/
def invokeNative (host : Host) (r : Ref .native) (args : List Value) : Exec (List Value) := fun m =>
  ((m.heap.native r).script host args).exec m |>.handle fun result m =>
    match result with
    | .ok vs => .ret vs m
    | .error (.interrupt .debugBreak) => (do stopForDebugger; pure []) m
    | .error f => .raise f m

/-- Begins a call: opens a frame, or runs a native function to its results. -/
def begin (host : Host) (start count : Nat) (wanted : Option Nat) : Exec (Option (List Value)) := do
  match ← resolve start count with
  | (.closure r, count) =>
    pushFrame r start count wanted
    pure none
  | (.native r, count) =>
    let args ← readRange (start + 1) count
    some <$> invokeNative host r args

/-- What becomes of a fault in a call by an instruction. A yield leaves the call waiting for the values
of the next resumption, if the fiber can yield at all. -/
def callFault (start : Nat) (wanted : Option Nat) : Fault → Exec Unit
  | .interrupt (.yield vs) => do
    let fiber ← read Machine.fiber
    if !fiber.isCoroutine then failWith .yieldOutside
    else if !fiber.isYieldable then failWith .yieldAcrossCall
    else
      modify (·.modifyFiber fun f => { f with pending := some (.call start wanted) })
      fail (.yield vs)
  | f => fail f

def callAt (host : Host) (start count : Nat) (wanted : Option Nat) : Exec Unit := fun m =>
  (do match ← begin host start count wanted with
      | some vs => placeResults start wanted vs
      | none => pure () : Exec Unit) m |>.handle fun result m =>
    match result with
    | .ok () => .ret () m
    | .error f => callFault start wanted f m

/-- Takes the innermost frame off, with its cleanup. -/
def leave (vs : List Value) : Exec Exit := do
  let f ← popFrame
  cleanup f none
  return ⟨vs, f.returnSlot, f.wanted⟩

/-- Replaces the innermost frame by a call of a closure in a slot of it. -/
def tailCall (r : Ref .closure) (start count : Nat) : Exec Unit := do
  let args ← readRange (start + 1) count
  let f ← popFrame
  cleanup f none
  setSlot f.returnSlot (.closure r)
  writeRange (f.returnSlot + 1) args
  pushFrame r f.returnSlot count f.wanted

/-- The broker of a slot of the innermost frame, made when there is none. -/
def capture (slot : Nat) : Exec (Ref .broker) := do
  match (← frame).broker? slot with
  | some r => pure r
  | none =>
    let r ← (fun m =>
      let (r, h) := m.heap.newBroker (.live m.fiber.arena slot)
      .ret r { m with heap := h })
    modifyFrame (·.addBroker slot r)
    pure r

def captureAll : List Capture → Exec (List (Ref .broker))
  | [] => pure []
  | c :: cs => do
    let r ← if c.inRegister then do capture ((← base) + c.index.toNat) else upvalue c.index.toNat
    return r :: (← captureAll cs)

/-- A closure of a child of the running prototype. -/
def makeClosure (n : Nat) : Exec Value := do
  match (← frame).prototype.children[n]? with
  | none => failWith (.badFunction n)
  | some p =>
    let brokers ← captureAll p.captures.toList
    fun m =>
      let (r, h) := m.heap.newClosure ⟨p, brokers.toArray⟩
      .ret (.closure r) { m with heap := h }

end Exec
end RegisterMachine
