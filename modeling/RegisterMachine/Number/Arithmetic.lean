import RegisterMachine.Number.Binary64

/-! Arithmetic on doubles: the exact result, rounded once. A NaN operand is passed on and an invalid
operation gives `nan`. -/
namespace RegisterMachine
namespace Binary64

def propagate (x y : Binary64) : Binary64 := if x.isNaN then x.quiet else y.quiet

/-- The number nearest to a sum of units; an exact zero is negative only between negative zeros. -/
def ofSum (x y : Binary64) (sum : Int) : Binary64 :=
  if sum = 0 then ofMagnitude (x.isNegative && y.isNegative) 0
  else nearest (sum < 0) sum.natAbs 1

def add (x y : Binary64) : Binary64 :=
  if x.isNaN || y.isNaN then propagate x y
  else if x.isInfinite then
    if y.isInfinite && x.isNegative != y.isNegative then nan else x
  else if y.isInfinite then y
  else ofSum x y (x.signedUnits + y.signedUnits)

def sub (x y : Binary64) : Binary64 :=
  if x.isNaN || y.isNaN then propagate x y else add x y.neg

def mul (x y : Binary64) : Binary64 :=
  let negative := x.isNegative != y.isNegative
  if x.isNaN || y.isNaN then propagate x y
  else if x.isInfinite || y.isInfinite then
    if x.isZero || y.isZero then nan else ofMagnitude negative infinite
  else nearest negative (x.units * y.units) one

def div (x y : Binary64) : Binary64 :=
  let negative := x.isNegative != y.isNegative
  if x.isNaN || y.isNaN then propagate x y
  else if x.isInfinite then
    if y.isInfinite then nan else ofMagnitude negative infinite
  else if y.isInfinite then ofMagnitude negative 0
  else if y.isZero then
    if x.isZero then nan else ofMagnitude negative infinite
  else nearest negative (x.units * one) y.units

/-- The remainder of the division that truncates; it has the sign of `x`. -/
def rem (x y : Binary64) : Binary64 :=
  if x.isNaN || y.isNaN then propagate x y
  else if x.isInfinite || y.isZero then nan
  else if y.isInfinite then x
  else nearest x.isNegative (x.units % y.units) 1

/-- The remainder brought to the sign of the divisor. -/
def modulus (x y : Binary64) : Binary64 :=
  let r := rem x y
  if !r.eq zero && lt r zero != lt y zero then add r y else r

/-- The remainder of the division that rounds down. By an infinity, the signs decide. -/
def mod (x y : Binary64) : Binary64 :=
  if y.isInfinite && x.isFinite then
    if le zero x == lt zero y then x else y
  else modulus x y

/-- The greatest whole number not above `x`. -/
def floor (x : Binary64) : Binary64 :=
  if !x.isFinite || x.units % one == 0 then x
  else if x.isNegative then nearest true ((x.units / one + 1) * one) 1
  else nearest false (x.units / one * one) 1

def idiv (x y : Binary64) : Binary64 := (div x y).floor

def pow (x y : Binary64) : Binary64 :=
  ⟨(Float.pow (Float.ofBits x.bits) (Float.ofBits y.bits)).toBits⟩

end Binary64
end RegisterMachine
