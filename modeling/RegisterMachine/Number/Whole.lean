import RegisterMachine.Number.Arithmetic

/-! Doubles and whole numbers: rounding up, the 64-bit integer that a double equals, and comparison with an
integer, which is not rounded for it. -/
namespace RegisterMachine
namespace Binary64

/-- 2^63: all 64-bit integers are below it, and none is below its negative. -/
def bound : Binary64 := ⟨0x43e0000000000000⟩

def ceil (x : Binary64) : Binary64 := x.neg.floor.neg

/-- The number without what is behind its point. -/
def whole (x : Binary64) : Binary64 := if x.isNegative then x.ceil else x.floor

/-- What is behind the point of a number. -/
def fract (x : Binary64) : Binary64 := sub x x.whole

/-- The 64-bit integer that a number equals. -/
def toInt64? (x : Binary64) : Option Int64 :=
  if x.fract.eq zero && bound.neg.le x && x.lt bound then some x.truncInt64 else none

def intLt (i : Int64) (x : Binary64) : Bool :=
  if x.isNaN then false
  else if bound.le x then true
  else if x.le bound.neg then false
  else
    match x.ceil.toInt64? with
    | some n => i < n
    | none => false

def ltInt (x : Binary64) (i : Int64) : Bool :=
  if x.isNaN then false
  else if bound.le x then false
  else if x.lt bound.neg then true
  else
    match x.floor.toInt64? with
    | some n => n < i
    | none => true

end Binary64
end RegisterMachine
