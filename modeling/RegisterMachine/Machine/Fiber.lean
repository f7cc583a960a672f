import RegisterMachine.Frame

/-! Fibers: what runs. The main program and every coroutine is one, with its arena, its frames and its
cancellation token. -/
namespace RegisterMachine

/-- Frames, the innermost first, with their number. -/
structure CallStack where
  frames : List Frame := []
  depth : Nat := 0
  depth_eq : depth = frames.length := by rfl

namespace CallStack

def empty : CallStack := {}

instance : Inhabited CallStack := ⟨empty⟩

def push (s : CallStack) (f : Frame) : CallStack :=
  ⟨f :: s.frames, s.depth + 1, by simp [s.depth_eq]⟩

def top? (s : CallStack) : Option Frame := s.frames.head?

def pop? : CallStack → Option (Frame × CallStack)
  | ⟨[], _, _⟩ => none
  | ⟨f :: fs, n, h⟩ => some (f, ⟨fs, n - 1, by simp [h]⟩)

def modifyTop (g : Frame → Frame) : CallStack → CallStack
  | ⟨[], n, h⟩ => ⟨[], n, h⟩
  | ⟨f :: fs, n, h⟩ => ⟨g f :: fs, n, by simp [h]⟩

end CallStack

/-- Where the values of the next resumption go. -/
inductive Pending
  /-- They are the results of a call. -/
  | call (slot : Nat) (wanted : Option Nat)
  /-- They are the results of the whole coroutine. -/
  | entry
  deriving DecidableEq, Repr, Inhabited

structure Fiber where
  arena : Ref .arena
  calls : CallStack := .empty
  /-- The slot behind the last value of an open list of results. -/
  top : Nat := 0
  token : Ref .token
  isCoroutine : Bool
  /-- The calls from the host that are going on. -/
  nested : Nat := 0
  pending : Option Pending := none
  deriving Inhabited

namespace Fiber

/-- The first slot that neither a frame nor an open list uses. -/
def freeSlot (f : Fiber) : Nat :=
  match f.calls.top? with
  | some frame => max f.top frame.top
  | none => f.top

/-- Only a coroutine without calls from the host can yield. -/
def isYieldable (f : Fiber) : Bool := f.isCoroutine && f.nested == 0

def traceback (f : Fiber) : List TraceEntry := f.calls.frames.map Frame.traceEntry

/-- The location of the frame that many levels up; the innermost is level 1. -/
def locationAt (f : Fiber) : Nat → Option Location
  | 0 => none
  | level + 1 => f.calls.frames[level]?.bind Frame.location?

end Fiber

/-- The functions that can be called. -/
inductive Callee
  | closure (r : Ref .closure)
  | native (r : Ref .native)
  deriving DecidableEq, Repr, Inhabited

namespace Callee

def toValue : Callee → Value
  | .closure r => .closure r
  | .native r => .native r

end Callee

def Value.callee? : Value → Option Callee
  | .closure r => some (.closure r)
  | .native r => some (.native r)
  | _ => none

inductive Status
  | suspended
  | running
  /-- It resumed another coroutine. -/
  | normal
  | dead
  deriving DecidableEq, Repr, Inhabited

namespace Status

def name : Status → String
  | .suspended => "suspended"
  | .running => "running"
  | .normal => "normal"
  | .dead => "dead"

end Status

structure Coroutine where
  entry : Callee
  /-- The fiber, while it does not run. -/
  parked : Option Fiber
  status : Status := .suspended
  token : Ref .token
  metatable : Option (Ref .table) := none
  deriving Inhabited

end RegisterMachine
