/-! Arithmetic on 64-bit integers as machines do it: an operation gives nothing where it would trap, because
its result has more than 64 bits, or there is none. -/
namespace RegisterMachine
namespace Checked

def fit? (n : Int) : Option Int64 :=
  if Int64.minValue.toInt ≤ n && n ≤ Int64.maxValue.toInt then some (Int64.ofInt n) else none

def add? (x y : Int64) : Option Int64 := fit? (x.toInt + y.toInt)

def sub? (x y : Int64) : Option Int64 := fit? (x.toInt - y.toInt)

def neg? (x : Int64) : Option Int64 := fit? (-x.toInt)

/-- Whether a quotient is missing or too large. -/
def divisionTraps (x y : Int64) : Bool := y == 0 || x == Int64.minValue && y == -1

/-- The quotient without its fraction. -/
def div? (x y : Int64) : Option Int64 := if divisionTraps x y then none else some (x / y)

def rem? (x y : Int64) : Option Int64 := if divisionTraps x y then none else some (x % y)

/-- Whether the bits of a word can be moved so far. -/
def isCount (n : Int64) : Bool := 0 ≤ n && n < 64

/-- Moves the bits up, with zeros behind them. -/
def shiftLeft? (x n : Int64) : Option Int64 :=
  if isCount n then some (x.toUInt64 <<< n.toUInt64).toInt64 else none

/-- Moves the bits down, with zeros in front of them. -/
def shiftRight? (x n : Int64) : Option Int64 :=
  if isCount n then some (x.toUInt64 >>> n.toUInt64).toInt64 else none

theorem fit?_eq_some {n : Int} (h : Int64.minValue.toInt ≤ n) (h' : n ≤ Int64.maxValue.toInt) :
    fit? n = some (Int64.ofInt n) := by
  rw [fit?, if_pos]
  simp only [Bool.and_eq_true, decide_eq_true_eq]
  exact ⟨h, h'⟩

theorem fit?_eq_some_iff {n : Int} {x : Int64} : fit? n = some x ↔ n = x.toInt := by
  constructor
  · intro h
    simp only [fit?, Option.ite_none_right_eq_some, Bool.and_eq_true, decide_eq_true_eq,
      Option.some.injEq] at h
    obtain ⟨⟨hl, hu⟩, rfl⟩ := h
    rw [Int64.toInt_minValue] at hl
    rw [Int64.toInt_maxValue] at hu
    exact (Int64.toInt_ofInt_of_le hl (by omega)).symm
  · rintro rfl
    rw [fit?_eq_some (Int64.minValue_le_toInt x) (Int64.toInt_le x), Int64.ofInt_toInt]

theorem divisionTraps_eq_false {y : Int64} (x : Int64) (h : y ≠ 0) (h' : y ≠ -1) :
    divisionTraps x y = false := by
  simp [divisionTraps, h, h']

end Checked
end RegisterMachine
