import RegisterMachine.Number.Checked
import RegisterMachine.Number.Decimal
import RegisterMachine.Number.Whole
import RegisterMachine.Text.Blank
import RegisterMachine.Text.Lowercase

/-! Reading numbers from text: decimal integers, hexadecimal integers that wrap around, decimal
fractions with an exponent, and integers in a given base. -/
namespace RegisterMachine

inductive Number
  | int (i : Int64)
  | float (x : Binary64)
  deriving DecidableEq, Repr, Inhabited

namespace Number

/-- The double of a number: an integer is rounded to the nearest. -/
def toBinary64 : Number → Binary64
  | .int i => .ofInt i.toInt
  | .float x => x

def toInt64? : Number → Option Int64
  | .int i => some i
  | .float x => x.toInt64?

def toText : Number → String
  | .int i => toString i.toInt
  | .float x => x.toText

end Number

namespace Numeral

def digitValue? (c : Char) : Option Nat :=
  if '0' ≤ c && c ≤ '9' then some (c.toNat - '0'.toNat)
  else if 'a' ≤ c && c ≤ 'z' then some (c.toNat - 'a'.toNat + 10)
  else if 'A' ≤ c && c ≤ 'Z' then some (c.toNat - 'A'.toNat + 10)
  else none

def digitOf? (base : Nat) (c : Char) : Option Nat := (digitValue? c).filter (· < base)

/-- The positional value of digits behind a number, one digit after the other. -/
def append (base : Nat) (n : Nat) (digits : List Nat) : Nat :=
  digits.foldl (fun n d => n * base + d) n

/-- The positional value of digits: a long list is halved up to `depth` times, and the value of the
first half is moved over the second. -/
def valueBy (base : Nat) : Nat → List Nat → Nat
  | 0, digits => append base 0 digits
  | depth + 1, digits =>
    let low := digits.length / 2
    let high := digits.length - low
    valueBy base depth (digits.take high) * base.pow low + valueBy base depth (digits.drop high)

def valueOf (base : Nat) (digits : List Nat) : Nat :=
  valueBy base (digits.length / 64).log2 digits

theorem append_eq (base n : Nat) (digits : List Nat) :
    append base n digits = n * base.pow digits.length + append base 0 digits := by
  induction digits generalizing n with
  | nil => simp [append]
  | cons d digits ih =>
    have step (n : Nat) : append base n (d :: digits) = append base (n * base + d) digits := rfl
    rw [step, step, ih, ih (0 * base + d), List.length_cons, Nat.zero_mul, Nat.zero_add]
    show _ = n * (base.pow digits.length * base) + _
    rw [Nat.add_mul, Nat.mul_assoc, Nat.mul_comm base, Nat.add_assoc]

theorem valueBy_eq_append (base depth : Nat) (digits : List Nat) :
    valueBy base depth digits = append base 0 digits := by
  induction depth generalizing digits with
  | zero => rfl
  | succ depth ih =>
    let high := digits.length - digits.length / 2
    have split : append base 0 digits = append base (append base 0 (digits.take high))
        (digits.drop high) := by
      simp only [append]
      rw [← List.foldl_append, List.take_append_drop]
    have low : (digits.drop high).length = digits.length / 2 := by
      rw [List.length_drop]
      omega
    rw [valueBy, ih, ih, split, append_eq base (append base 0 _), low]

theorem valueOf_eq_append (base : Nat) (digits : List Nat) :
    valueOf base digits = append base 0 digits :=
  valueBy_eq_append ..

/-- The positional value of digits under a sign, modulo 2^64. -/
def wrap (negative : Bool) (base : Nat) (digits : List Nat) : Int64 :=
  let value := digits.foldl (fun n d => n * Int64.ofNat base + Int64.ofNat d) 0
  if negative then -value else value

def splitSign : List Char → Bool × List Char
  | '-' :: rest => (true, rest)
  | '+' :: rest => (false, rest)
  | rest => (false, rest)

def decimalValue (digits : List Char) : Nat :=
  valueOf 10 (digits.map fun c => c.toNat - '0'.toNat)

def exponentSize (digits : List Char) : Nat :=
  digits.foldl (fun e c => if e < 0x10000 then e * 10 + (c.toNat - '0'.toNat) else e) 0

/-- A fully decimal exponent: an optional sign and at least one digit. -/
def exponent? (cs : List Char) : Option Int :=
  let (negative, digits) := splitSign cs
  if digits.isEmpty || !digits.all Char.isDigit then none
  else some (if negative then -(exponentSize digits) else exponentSize digits)

/-- Digits scaled by what follows them: nothing, or an exponent behind its mark. -/
def scaled? (digits : List Char) (places : Nat) : List Char → Option (List Char × Int)
  | [] => some (digits, -places)
  | c :: r =>
    if c == 'e' || c == 'E' then (exponent? r).map fun e => (digits, e - places) else none

/-- A decimal fraction: its digits and the power of ten that scales them. -/
def fraction? (cs : List Char) : Option (List Char × Int) :=
  let whole := cs.takeWhile Char.isDigit
  let (part, rest) := match cs.dropWhile Char.isDigit with
    | '.' :: r => (r.takeWhile Char.isDigit, r.dropWhile Char.isDigit)
    | r => ([], r)
  if whole.isEmpty && part.isEmpty then none else scaled? (whole ++ part) part.length rest

/-- The double nearest to digits scaled by a power of ten. Numbers of more than 310 places are
infinite, and those that start behind the 324th place are zero. -/
def nearest (negative : Bool) (digits : List Char) (scale : Int) : Binary64 :=
  let significant := digits.dropWhile (· == '0')
  let places := scale + significant.length
  if significant.isEmpty || places < -324 then .ofMagnitude negative 0
  else if 310 < places then .ofMagnitude negative Binary64.infinite
  else
    let value := decimalValue significant
    if 0 ≤ scale then .nearest negative (value * Nat.pow 10 scale.toNat * Binary64.one) 1
    else .nearest negative (value * Binary64.one) (Nat.pow 10 (-scale).toNat)

/-- Reads an integer in decimal under an optional sign, if it fits a word. -/
def integer? (text : List Char) : Option Int64 :=
  let (negative, digits) := splitSign text
  if digits.isEmpty || !digits.all Char.isDigit then none
  else Checked.fit? (if negative then -decimalValue digits else decimalValue digits)

/-- Reads the words for infinity and NaN, in letters of either case. -/
def word? (negative : Bool) (cs : List Char) : Option Binary64 :=
  let word := cs.map Char.toLower
  if word = "inf".toList || word = "infinity".toList then
    some (.ofMagnitude negative Binary64.infinite)
  else if word = "nan".toList then some (Binary64.ofMagnitude negative Binary64.infinite).quiet
  else none

/-- Reads a double under an optional sign: a decimal fraction or a word. -/
def double? (text : List Char) : Option Binary64 :=
  let (negative, body) := splitSign text
  match fraction? body with
  | some (digits, scale) => some (nearest negative digits scale)
  | none => word? negative body

def isHexDigit (c : Char) : Bool := c.isDigit || ('a' ≤ c && c ≤ 'f') || ('A' ≤ c && c ≤ 'F')

/-- What a decimal numeral is made of behind its sign. -/
def isDecimal (c : Char) : Bool :=
  c.isDigit || c == '.' || c == 'e' || c == 'E' || c == '+' || c == '-'

/-- What stands behind the prefix of a hexadecimal numeral. -/
def hexadecimal? : List Char → Option (List Char)
  | '0' :: 'x' :: hex => some hex
  | '0' :: 'X' :: hex => some hex
  | _ => none

/-- Reads a numeral: hexadecimal behind its prefix, else decimal. The readers of integers and
doubles are given the sign too; words are kept from them. -/
def readText? (text : List Char) : Option Number :=
  let (negative, body) := splitSign text
  match hexadecimal? body with
  | some hex =>
    if hex.isEmpty || !hex.all isHexDigit then none
    else some (.int (wrap negative 16 (hex.map fun c => (digitValue? c).getD 0)))
  | none =>
    if body.isEmpty || !body.all isDecimal then none
    else
      match if body.all Char.isDigit then integer? text else none with
      | some i => some (.int i)
      | none => (double? text).map .float

def read? (s : String) : Option Number := readText? (Text.trim s.toList)

def splitMinus : List Char → Bool × List Char
  | '-' :: rest => (true, rest)
  | rest => (false, rest)

/-- Reads an integer in a base up to 36: an optional minus sign and digits, modulo 2^64. The text is put into lower
case before. -/
def inBase? (base : Nat) (s : String) : Option Int64 :=
  let (negative, digits) := splitMinus (Text.toLower (Text.trim s.toList))
  if digits.isEmpty then none
  else (digits.mapM (digitOf? base)).map (wrap negative base)

end Numeral
end RegisterMachine
