import RegisterMachine.Call

/-! Instructions of the numeric loop, which counts from a start by a step to a limit, and of the generic
loop, which calls a function for each round. -/
namespace RegisterMachine
namespace Instruction

open Exec

/-- The numbers that control a numeric loop. -/
inductive Counter
  | ints (index limit step : Int64)
  | floats (index limit step : Binary64)
  deriving DecidableEq, Repr, Inhabited

namespace Counter

/-- The counter of three numbers; one double makes all of them doubles. -/
def ofNumbers : Number → Number → Number → Counter
  | .int i, .int l, .int s => .ints i l s
  | i, l, s => .floats i.toBinary64 l.toBinary64 s.toBinary64

def isStepZero : Counter → Bool
  | .ints _ _ s => s == 0
  | .floats _ _ s => s.eq .zero

/-- Whether the index has not passed the limit. -/
def goesOn : Counter → Bool
  | .ints i l s => if 0 < s then i ≤ l else l ≤ i
  | .floats i l s => if Binary64.lt .zero s then i.le l else l.le i

/-- The counter of the next round; an integer that would leave its range ends the loop. -/
def advance? : Counter → Option Counter
  | .ints i l s => (Checked.add? i s).map fun n => .ints n l s
  | .floats i l s => some (.floats (i.add s) l s)

def index : Counter → Value
  | .ints i _ _ => .int i
  | .floats i _ _ => .float i

end Counter

def loopNumber (v : Value) (what : String) : Exec Number :=
  match v.number? with
  | some n => pure n
  | none => fail (.forControl what)

/-- Starts a numeric loop in registers A to A + 3, or goes behind its end. -/
def forPrep (w : Word) : Exec Unit := do
  let start := (← base) + w.a.toNat
  let index ← loopNumber (← slot start) "initial value"
  let limit ← loopNumber (← slot (start + 1)) "limit"
  let step ← loopNumber (← slot (start + 2)) "step"
  let counter := Counter.ofNumbers index limit step
  if counter.isStepZero then fail .forStepZero
  match counter with
  | .floats i l s => writeRange start [.float i, .float l, .float s]
  | .ints _ _ _ => pure ()
  if counter.goesOn then setSlot (start + 3) (← slot start)
  else jump (w.sbx.toInt + 1)

def loopFloat (v : Value) : Number := v.number?.getD (.float .nan)

/-- Goes into the next round of a numeric loop, or past it. -/
def forLoop (w : Word) : Exec Unit := do
  let start := (← base) + w.a.toNat
  let counter := Counter.ofNumbers (loopFloat (← slot start)) (loopFloat (← slot (start + 1)))
    (loopFloat (← slot (start + 2)))
  match counter.advance?.filter Counter.goesOn with
  | some next =>
    setSlot start next.index
    setSlot (start + 3) next.index
    jump w.sbx.toInt
  | none => pure ()

/-- Calls the step function of a generic loop on copies of its state, for C values. -/
def genericCall (host : Host) (w : Word) : Exec Unit := do
  let start := (← base) + w.a.toNat
  let header ← readRange start 3
  writeRange (start + 3) header
  callAt host (start + 3) 2 (some w.c.toNat)

/-- Goes into the next round of a generic loop unless its first value is nil. -/
def genericLoop (w : Word) : Exec Unit := do
  let start := (← base) + w.a.toNat
  match ← slot (start + 3) with
  | .nil => pure ()
  | v =>
    setSlot (start + 2) v
    jump w.sbx.toInt

end Instruction
end RegisterMachine
