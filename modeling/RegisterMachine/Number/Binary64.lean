/-! Double-precision numbers as bit patterns. Every finite one is a whole number of units of 2^-1074,
so order and rounding are arithmetic on natural numbers. -/
namespace RegisterMachine

structure Binary64 where
  bits : UInt64
  deriving DecidableEq, Hashable, Repr, Inhabited

namespace Binary64

def isNegative (x : Binary64) : Bool := 0x8000000000000000 ≤ x.bits

def magnitude (x : Binary64) : Nat := (x.bits &&& 0x7fffffffffffffff).toNat

/-- The magnitude of the infinities; larger ones belong to NaNs. -/
def infinite : Nat := 0x7ff0000000000000

def ofMagnitude (negative : Bool) (magnitude : Nat) : Binary64 :=
  ⟨if negative then 0x8000000000000000 ||| UInt64.ofNat magnitude else UInt64.ofNat magnitude⟩

def isNaN (x : Binary64) : Bool := infinite < x.magnitude

def isInfinite (x : Binary64) : Bool := x.magnitude == infinite

def isFinite (x : Binary64) : Bool := x.magnitude < infinite

def isZero (x : Binary64) : Bool := x.magnitude == 0

def zero : Binary64 := ⟨0⟩

/-- The NaN that an invalid operation gives. -/
def nan : Binary64 := ⟨0xfff8000000000000⟩

/-- A NaN operand as it comes out of an operation: its quiet form. -/
def quiet (x : Binary64) : Binary64 := ⟨x.bits ||| 0x0008000000000000⟩

def neg (x : Binary64) : Binary64 := ⟨x.bits ^^^ 0x8000000000000000⟩

/-- How many units make one. -/
@[irreducible] def one : Nat := Nat.pow 2 1074

/-- The absolute value of a finite number, in units of 2^-1074. -/
def units (x : Binary64) : Nat :=
  let field := x.magnitude >>> 52
  let fraction := x.magnitude % 0x10000000000000
  if field = 0 then fraction else (0x10000000000000 + fraction) <<< (field - 1)

def signedUnits (x : Binary64) : Int := if x.isNegative then -x.units else x.units

/-- Position in the order of the numbers that are not NaN; the two zeros share one. -/
def rank (x : Binary64) : Int := if x.isNegative then -x.magnitude else x.magnitude

def eq (x y : Binary64) : Bool := !x.isNaN && !y.isNaN && x.rank == y.rank

def lt (x y : Binary64) : Bool := !x.isNaN && !y.isNaN && x.rank < y.rank

def le (x y : Binary64) : Bool := !x.isNaN && !y.isNaN && x.rank ≤ y.rank

def roundHalfEven (num den : Nat) : Nat :=
  let q := num / den
  let r := num % den
  if 2 * r < den then q else if den < 2 * r then q + 1 else q + q % 2

def nearestMagnitude (num den : Nat) : Nat :=
  let e := (num / den).log2 - 52
  min (e * 0x10000000000000 + roundHalfEven num (den <<< e)) infinite

def nearest (negative : Bool) (num den : Nat) : Binary64 :=
  ofMagnitude negative (nearestMagnitude num den)

def ofInt (i : Int) : Binary64 := nearest (i < 0) (i.natAbs * one) 1

/-- The integer part: what remains of a finite number without its fraction. -/
def trunc (x : Binary64) : Int :=
  if x.isNegative then -(x.units / one : Nat) else (x.units / one : Nat)

/-- The integer part of a finite number, brought into the 64-bit range. -/
def truncInt64 (x : Binary64) : Int64 :=
  Int64.ofInt (max Int64.minValue.toInt (min Int64.maxValue.toInt x.trunc))

end Binary64
end RegisterMachine
