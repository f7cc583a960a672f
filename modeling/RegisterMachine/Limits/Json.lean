import RegisterMachine.Limits

/-! Limits written as JSON: an object with the four names, in any order and each at most once, or a
list of up to four numbers in their order. What is missing takes its default. -/
namespace RegisterMachine
namespace Limits.Json

/-- What remains of a text after a part of it. -/
abbrev Rest := List Char

def isSpace (c : Char) : Bool := c == ' ' || c == '\n' || c == '\t' || c == '\r'

def skipSpace (cs : List Char) : Rest := cs.dropWhile isSpace

/-- Skips blanks and one given character. -/
def expect (c : Char) (cs : List Char) : Option Rest :=
  match skipSpace cs with
  | d :: rest => if c == d then some rest else none
  | [] => none

def hexValue? (c : Char) : Option Nat :=
  if c.isDigit then some (c.toNat - '0'.toNat)
  else if 'a' ≤ c && c ≤ 'f' then some (c.toNat - 'a'.toNat + 10)
  else if 'A' ≤ c && c ≤ 'F' then some (c.toNat - 'A'.toNat + 10)
  else none

def hexUnit? : List Char → Option (Nat × Rest)
  | a :: b :: c :: d :: rest => do
    let a ← hexValue? a
    let b ← hexValue? b
    let c ← hexValue? c
    let d ← hexValue? d
    return (((a * 16 + b) * 16 + c) * 16 + d, rest)
  | _ => none

def simpleEscape? : Char → Option Char
  | '"' => some '"'
  | '\\' => some '\\'
  | '/' => some '/'
  | 'b' => some '\x08'
  | 'f' => some '\x0c'
  | 'n' => some '\n'
  | 'r' => some '\r'
  | 't' => some '\t'
  | _ => none

/-- The character of a unit, which a low surrogate must follow when it is a high one. -/
def unitChar? (unit : Nat) (rest : Rest) : Option (Char × Rest) :=
  if 0xdc00 ≤ unit && unit ≤ 0xdfff then none
  else if 0xd800 ≤ unit && unit ≤ 0xdbff then
    match rest with
    | '\\' :: 'u' :: rest => do
      let (low, rest) ← hexUnit? rest
      if 0xdc00 ≤ low && low ≤ 0xdfff then
        return (Char.ofNat (0x10000 + (unit - 0xd800) * 0x400 + (low - 0xdc00)), rest)
      else none
    | _ => none
  else some (Char.ofNat unit, rest)

/-- The rest of a text after its opening quote. A skipped text may hold lone surrogates, which stand
as the replacement character. The first argument bounds the number of characters. -/
def text? (skipped : Bool) : Nat → List Char → Option (List Char × Rest)
  | 0, _ => none
  | _ + 1, [] => none
  | _ + 1, '"' :: rest => some ([], rest)
  | n + 1, '\\' :: 'u' :: rest => do
    let (unit, rest) ← hexUnit? rest
    let (c, rest) ← if skipped then some ('\ufffd', rest) else unitChar? unit rest
    let (cs, rest) ← text? skipped n rest
    return (c :: cs, rest)
  | n + 1, '\\' :: e :: rest => do
    let c ← simpleEscape? e
    let (cs, rest) ← text? skipped n rest
    return (c :: cs, rest)
  | n + 1, c :: rest =>
    if c.toNat < 0x20 || c == '\\' then none
    else do
      let (cs, rest) ← text? skipped n rest
      return (c :: cs, rest)

/-- A text behind its opening quote. -/
def quoted? (skipped : Bool) (cs : List Char) : Option (List Char × Rest) :=
  text? skipped (cs.length + 1) cs

def digits? (cs : List Char) : Option Rest :=
  match cs with
  | c :: rest => if c.isDigit then some (rest.dropWhile Char.isDigit) else none
  | [] => none

/-- A whole number without a leading zero. -/
def whole? (cs : List Char) : Option Rest :=
  match cs with
  | '0' :: rest => if (rest.takeWhile Char.isDigit).isEmpty then some rest else none
  | cs => digits? cs

def skipFraction (cs : List Char) : Option Rest :=
  match cs with
  | '.' :: rest => digits? rest
  | cs => some cs

def skipExponent (cs : List Char) : Option Rest :=
  match cs with
  | c :: rest =>
    if c == 'e' || c == 'E' then
      match rest with
      | '+' :: rest => digits? rest
      | '-' :: rest => digits? rest
      | rest => digits? rest
    else some cs
  | [] => some []

def skipNumber (cs : List Char) : Option Rest := do
  let rest ← whole? (match cs with
    | '-' :: rest => rest
    | cs => cs)
  skipExponent (← skipFraction rest)

/-- What a value that is being skipped needs next: a value, or what may follow one inside the open
lists (`false`) and objects (`true`). -/
inductive Need
  | value
  | afterValue
  deriving DecidableEq, Repr, Inhabited

/-- Skips one value. The first argument bounds the number of steps. -/
def skip : Nat → Need → List Bool → List Char → Option Rest
  | 0, _, _, _ => none
  | _ + 1, .afterValue, [], cs => some cs
  | n + 1, .afterValue, isObject :: opened, cs =>
    match skipSpace cs with
    | ',' :: rest => if isObject then member n (isObject :: opened) rest
      else skip n .value (isObject :: opened) rest
    | ']' :: rest => if isObject then none else skip n .afterValue opened rest
    | '}' :: rest => if isObject then skip n .afterValue opened rest else none
    | _ => none
  | n + 1, .value, opened, cs =>
    match skipSpace cs with
    | 'n' :: 'u' :: 'l' :: 'l' :: rest => skip n .afterValue opened rest
    | 't' :: 'r' :: 'u' :: 'e' :: rest => skip n .afterValue opened rest
    | 'f' :: 'a' :: 'l' :: 's' :: 'e' :: rest => skip n .afterValue opened rest
    | '"' :: rest => do
      let (_, rest) ← quoted? true rest
      skip n .afterValue opened rest
    | '[' :: rest =>
      match skipSpace rest with
      | ']' :: rest => skip n .afterValue opened rest
      | rest => skip n .value (false :: opened) rest
    | '{' :: rest =>
      match skipSpace rest with
      | '}' :: rest => skip n .afterValue opened rest
      | rest => member n (true :: opened) rest
    | cs => do skip n .afterValue opened (← skipNumber cs)
where
  /-- A name, a colon and a value. -/
  member (n : Nat) (opened : List Bool) (cs : List Char) : Option Rest := do
    let rest ← expect '"' cs
    let (_, rest) ← quoted? true rest
    skip n .value opened (← expect ':' rest)

def skipValue (cs : List Char) : Option Rest := skip (2 * cs.length + 2) .value [] cs

/-- A natural number below 2^64. -/
def natural? (cs : List Char) : Option (Nat × Rest) := do
  let cs := skipSpace cs
  let rest ← whole? cs
  let n := (cs.takeWhile Char.isDigit).foldl (fun n c => n * 10 + (c.toNat - '0'.toNat)) 0
  let isWhole := match rest with
    | c :: _ => !(c == '.' || c == 'e' || c == 'E')
    | [] => true
  if isWhole && n < 0x10000000000000000 then some (n, rest) else none

/-- The four limits, in the order of a list. -/
inductive Field
  | initialSlots | maxSlots | maxCallDepth | maxNativeDepth
  deriving DecidableEq, Repr, Inhabited

namespace Field

def all : List Field := [.initialSlots, .maxSlots, .maxCallDepth, .maxNativeDepth]

def name : Field → String
  | .initialSlots => "initial_stack_slots"
  | .maxSlots => "max_stack_slots"
  | .maxCallDepth => "max_call_depth"
  | .maxNativeDepth => "max_native_depth"

def get (l : Limits) : Field → Nat
  | .initialSlots => l.initialSlots
  | .maxSlots => l.maxSlots
  | .maxCallDepth => l.maxCallDepth
  | .maxNativeDepth => l.maxNativeDepth

def set (l : Limits) (n : Nat) : Field → Limits
  | .initialSlots => { l with initialSlots := n }
  | .maxSlots => { l with maxSlots := n }
  | .maxCallDepth => { l with maxCallDepth := n }
  | .maxNativeDepth => { l with maxNativeDepth := n }

end Field

def items (l : Limits) (isFirst : Bool) : List Field → List Char → Option (Limits × Rest)
  | [], cs => do return (l, ← expect ']' cs)
  | f :: fields, cs =>
    match skipSpace cs with
    | ']' :: rest => some (l, rest)
    | cs => do
      let cs ← if isFirst then some cs else expect ',' cs
      let (n, rest) ← natural? cs
      items (f.set l n) false fields rest

/-- The members of an object, with the fields not yet given. The first argument bounds their
number. -/
def members : Nat → Limits → List Field → List Char → Option (Limits × Rest)
  | 0, _, _, _ => none
  | n + 1, l, fields, cs => do
    let rest ← expect '"' cs
    let (name, rest) ← quoted? false rest
    let rest ← expect ':' rest
    let (l, fields, rest) ← match Field.all.find? fun f => f.name.toList = name with
      | some f =>
        if f ∈ fields then do
          let (value, rest) ← natural? rest
          some (f.set l value, fields.erase f, rest)
        else none
      | none => do some (l, fields, ← skipValue rest)
    match skipSpace rest with
    | ',' :: rest => members n l fields rest
    | '}' :: rest => some (l, rest)
    | _ => none

def read? (text : String) : Option Limits := do
  let cs := skipSpace text.toList
  let (l, rest) ← match cs with
    | '[' :: rest => items {} true Field.all rest
    | '{' :: rest =>
      match skipSpace rest with
      | '}' :: rest => some ({}, rest)
      | rest => members rest.length {} Field.all rest
    | _ => none
  if (skipSpace rest).isEmpty then some l else none

end Limits.Json
end RegisterMachine
