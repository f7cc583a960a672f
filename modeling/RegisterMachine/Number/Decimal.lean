import RegisterMachine.Number.Binary64

/-! Decimal text of doubles: fourteen significant digits, positional for exponents from -4 to 13 and
scientific otherwise, always distinguishable from the text of an integer. -/
namespace RegisterMachine
namespace Binary64

def digitCount (n : Nat) : Nat := (Nat.toDigits 10 n).length

/-- The `e` with `10^e ≤ num / den < 10^(e+1)`, for a positive ratio. -/
def decimalExponent (num den : Nat) : Int :=
  if den ≤ num then (digitCount (num / den) : Int) - 1 else -(digitCount ((den - 1) / num) : Int)

/-- The significant digits of a text. -/
def precision : Nat := 14

/-- A positive ratio rounded to `precision` digits: the digits as a number, and the exponent of the
first one. -/
def scientific (num den : Nat) : Nat × Int :=
  let e := decimalExponent num den
  let shift : Int := precision - 1 - e
  let d := if 0 ≤ shift then roundHalfEven (num * Nat.pow 10 shift.toNat) den
    else roundHalfEven num (den * Nat.pow 10 (-shift).toNat)
  if d = Nat.pow 10 precision then (Nat.pow 10 (precision - 1), e + 1) else (d, e)

/-- A whole part and the fraction digits after it, without trailing zeros. -/
def joinFraction (whole fraction : List Char) : List Char :=
  match (fraction.reverse.dropWhile (· == '0')).reverse with
  | [] => whole
  | digits => whole ++ '.' :: digits

/-- Digits placed around the decimal point. -/
def positional (digits : List Char) (e : Int) : List Char :=
  if 0 ≤ e then joinFraction (digits.take (e.toNat + 1)) (digits.drop (e.toNat + 1))
  else joinFraction ['0'] (List.replicate ((-e).toNat - 1) '0' ++ digits)

/-- An exponent with its sign and at least two digits. -/
def exponentText (e : Int) : List Char :=
  let digits := Nat.toDigits 10 e.natAbs
  (if e < 0 then '-' else '+') :: (List.replicate (2 - digits.length) '0' ++ digits)

/-- The digits of a positive ratio in the layout its exponent calls for. -/
def generalText (num den : Nat) : List Char :=
  let (d, e) := scientific num den
  let digits := Nat.toDigits 10 d
  if e < -4 || (precision : Int) ≤ e then
    joinFraction (digits.take 1) (digits.drop 1) ++ 'e' :: exponentText e
  else positional digits e

def markFraction (text : List Char) : List Char :=
  if text.all Char.isDigit then text ++ ['.', '0'] else text

def toText (x : Binary64) : String :=
  let sign := if x.isNegative then "-" else ""
  if x.isNaN then sign ++ "nan"
  else if x.isInfinite then sign ++ "inf"
  else if x.isZero then sign ++ "0.0"
  else sign ++ String.ofList (markFraction (generalText x.units one))

end Binary64
end RegisterMachine
