import RegisterMachine.Limits
import RegisterMachine.Machine.Heap

/-! The machine: a heap, the fiber that runs, those that wait for it, and what the host sees. -/
namespace RegisterMachine

/-- What a debugger is shown of the innermost frame. -/
structure Snapshot where
  function : String
  source : String
  position : Option Position
  registers : List Value
  upvalues : List (String × Value)
  depth : Nat
  deriving DecidableEq, Repr, Inhabited

/-- What a debugger does at a break: let it pass, or keep the snapshot and answer. One that answers by what it is shown,
or changes the values in it, is left out. -/
inductive Hook
  | pass
  | keep (answer : Option Fault)
  deriving DecidableEq, Repr, Inhabited

structure Machine where
  heap : Heap
  fiber : Fiber
  /-- The fibers that wait for the running one, the nearest first. -/
  waiting : List Fiber := []
  /-- The coroutines being resumed, the running one first. -/
  active : List (Ref .coroutine) := []
  globals : Ref .table
  rootToken : Ref .token
  limits : Limits
  /-- How deep calls from the host nest. -/
  nativeDepth : Nat := 0
  hook : Option Hook := none
  snapshots : Array Snapshot := #[]
  warnings : Array String := #[]
  /-- The lines printed, and whether printing fails. -/
  printed : Array String := #[]
  isSinkClosed : Bool := false
  /-- The lists of values that the host noted. -/
  notes : Array (List Value) := #[]
  deriving Inhabited

namespace Machine

/-- A machine with an empty global table. -/
def bare (limits : Limits) : Machine :=
  let h : Heap := {}
  let (rootToken, h) := h.newToken {}
  let (arena, h) := h.newArena (.create limits.initialSlots limits.maxSlots)
  let (globals, h) := h.newTable {}
  { heap := h, fiber := { arena, token := rootToken, isCoroutine := false }, globals, rootToken,
    limits }

def frame? (m : Machine) : Option Frame := m.fiber.calls.top?

/-- The slot of register 0. -/
def base (m : Machine) : Nat :=
  match m.frame? with
  | some f => f.base
  | none => 0

def arena (m : Machine) : Arena := m.heap.arena m.fiber.arena

def callDepth (m : Machine) : Nat := m.fiber.calls.depth

def isCancelled (m : Machine) (r : Ref .token) : Bool := m.heap.tokens.isCancelled r

@[inline] def modifyHeap (m : Machine) (f : Heap → Heap) : Machine := { m with heap := f m.heap }

@[inline] def modifyFiber (m : Machine) (f : Fiber → Fiber) : Machine := { m with fiber := f m.fiber }

@[inline] def modifyArena (m : Machine) (f : Arena → Arena) : Machine :=
  let r := m.fiber.arena
  m.modifyHeap (·.modifyArena r f)

@[inline] def modifyFrame (m : Machine) (g : Frame → Frame) : Machine :=
  m.modifyFiber fun f => { f with calls := f.calls.modifyTop g }

def setTop (m : Machine) (top : Nat) : Machine := m.modifyFiber fun f => { f with top }

def global (m : Machine) (name : String) : Value := (m.heap.table m.globals).getStr name

def setGlobal (m : Machine) (name : String) (v : Value) : Machine :=
  m.modifyHeap (·.modifyTable m.globals (·.setStr name v))

/-- A closure of a main prototype: its first variable is the global table, the others are nil. -/
def load (m : Machine) (p : Prototype) : Value × Machine :=
  let globals := m.globals
  let (brokers, h) := (List.range p.captures.size).foldl (fun (rs, h) n =>
    let (r, h) := Heap.newBroker h (.closed (if n = 0 then .table globals else .nil))
    (rs.push r, h)) (#[], m.heap)
  let (r, h) := h.newClosure ⟨p, brokers⟩
  (.closure r, { m with heap := h })

/-- A closure of the prototype in a binary chunk. -/
def loadChunk (m : Machine) (bytes : List UInt8) : Except Fault Value × Machine :=
  match Chunk.read bytes with
  | .ok p =>
    let (v, m) := m.load p
    (.ok v, m)
  | .error f => (.error (.runtime (.badChunk f)), m)

/-- What a debugger is shown now, if a frame is there. -/
def snapshot? (m : Machine) : Option Snapshot :=
  m.frame?.map fun f =>
    let p := f.prototype
    { function := p.name
      source := p.source
      position := f.position?
      registers := m.arena.readRange f.base p.window.toNat
      upvalues := (p.captures.toList.zip f.closure.brokers.toList).map fun (c, r) =>
        (c.name, m.heap.brokerValue r)
      depth := m.callDepth }

/-- Locates a fault at the innermost frame, unless it is located already or an interrupt. -/
def locate (m : Machine) : Fault → Fault
  | .located f l t => .located f l t
  | .interrupt i => .interrupt i
  | f => .located f (m.frame?.bind Frame.location?) m.fiber.traceback

/-- A coroutine that has not started, under the token of the running fiber. -/
def newCoroutine (m : Machine) (entry : Callee) : Ref .coroutine × Machine :=
  let (token, h) := m.heap.newToken { parent := some m.fiber.token }
  let (arena, h) := h.newArena (.create m.limits.initialSlots m.limits.maxSlots)
  let (r, h) := h.newCoroutine
    { entry, parked := some { arena, token, isCoroutine := true }, token }
  (r, { m with heap := h })

def describeCoroutine (m : Machine) (r : Ref .coroutine) : String :=
  match m.heap.coroutine? r with
  | none => ""
  | some c =>
    let status := match c.status with
      | .suspended => "Suspended"
      | .running => "Running"
      | .normal => "Normal"
      | .dead => "Dead"
    "Coroutine \x7b entry: " ++ Text.quote (m.heap.functionName c.entry) ++ ", status: " ++ status
      ++ " \x7d"

end Machine
end RegisterMachine
