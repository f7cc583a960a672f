import RegisterMachine.Fault
import RegisterMachine.Prototype

/-! Frames: the activation of a closure over a window of an arena. -/
namespace RegisterMachine

inductive Broker
  | live (arena : Ref .arena) (slot : Nat)
  | closed (value : Value)
  deriving DecidableEq, Repr, Inhabited

namespace Broker

def isLive : Broker → Bool
  | .live _ _ => true
  | .closed _ => false

def slot? : Broker → Option Nat
  | .live _ slot => some slot
  | .closed _ => none

def describe (showValue : Value → String) : Broker → String
  | .live _ slot => "Upvalue(open @" ++ toString slot ++ ")"
  | .closed v => "Upvalue(closed " ++ showValue v ++ ")"

end Broker

/-- A prototype with the variables it captured. -/
structure Closure where
  prototype : Prototype
  brokers : Array (Ref .broker) := #[]
  deriving Inhabited

structure Frame where
  closure : Closure
  /-- The slot of register 0. -/
  base : Nat
  /-- The index of the next instruction. -/
  pc : Nat := 0
  /-- The slot of the callee, from which on the results are written. -/
  returnSlot : Nat
  /-- How many results the caller wants; all of them when none. -/
  wanted : Option Nat
  /-- The live brokers over the window, by ascending slot. -/
  live : List (Nat × Ref .broker) := []
  /-- The slots marked for closing, in the order of the marks. -/
  marks : Array Nat := #[]
  /-- The arguments beyond the parameters. -/
  varargs : List Value := []
  deriving Inhabited

namespace Frame

def prototype (f : Frame) : Prototype := f.closure.prototype

def top (f : Frame) : Nat := f.base + f.prototype.window.toNat

def word? (f : Frame) : Option Word := f.prototype.code[f.pc]?

def skip (f : Frame) : Frame := { f with pc := f.pc + 1 }

/-- The next code word, and the frame behind it. -/
def fetch (f : Frame) : Option Word × Frame :=
  match f.word? with
  | some w => (some w, f.skip)
  | none => (none, f)

/-- Moves the next instruction by an offset; it may end up just behind the last one. -/
def jump? (f : Frame) (offset : Int) : Option Frame :=
  let target : Int := f.pc + offset
  if 0 ≤ target && target ≤ f.prototype.code.size then some { f with pc := target.toNat } else none

def position? (f : Frame) : Option Position := f.prototype.position? (f.pc - 1)

def location? (f : Frame) : Option Location :=
  f.position?.map fun p => ⟨f.prototype.source, p.line, p.column⟩

def traceEntry (f : Frame) : TraceEntry := ⟨f.prototype.name, f.location?⟩

def broker? (f : Frame) (slot : Nat) : Option (Ref .broker) := f.live.lookup slot

def insertBroker (slot : Nat) (r : Ref .broker) : List (Nat × Ref .broker) → List (Nat × Ref .broker)
  | [] => [(slot, r)]
  | (s, q) :: rest =>
    if slot < s then (slot, r) :: (s, q) :: rest else (s, q) :: insertBroker slot r rest

def addBroker (f : Frame) (slot : Nat) (r : Ref .broker) : Frame :=
  { f with live := insertBroker slot r f.live }

/-- Gives up the brokers at or above a slot. -/
def detachBrokers (f : Frame) (start : Nat) : List (Ref .broker) × Frame :=
  ((f.live.filter fun p => start ≤ p.1).map Prod.snd,
    { f with live := f.live.filter fun p => p.1 < start })

def mark (f : Frame) (slot : Nat) : Frame := { f with marks := f.marks.push slot }

/-- Gives up the marks from the first one at or above a slot on, the last one first. -/
def takeMarks (f : Frame) (start : Nat) : List Nat × Frame :=
  let kept := f.marks.toList.takeWhile (· < start)
  let taken := f.marks.toList.dropWhile (· < start)
  (taken.reverse, { f with marks := kept.toArray })

end Frame
end RegisterMachine
