/-! Reading text from bytes, with the place of the first byte that cannot belong to a text. -/
namespace RegisterMachine.Text

/-- Why bytes are no text: a sequence of some bytes from an index fits no character, or the bytes end
inside the character that starts at an index. -/
inductive Utf8Fault
  | invalid (width index : Nat)
  | incomplete (index : Nat)
  deriving DecidableEq, Repr, Inhabited

namespace Utf8Fault

def message : Utf8Fault → String
  | .invalid width index =>
    "invalid utf-8 sequence of " ++ toString width ++ " bytes from index " ++ toString index
  | .incomplete index => "incomplete utf-8 byte sequence from index " ++ toString index

end Utf8Fault

/-- What must follow a byte that starts a longer character: the bounds of the second byte and how
many continuation bytes come after it. -/
def followers? (b : UInt8) : Option (UInt8 × UInt8 × Nat) :=
  if 0xc2 ≤ b && b ≤ 0xdf then some (0x80, 0xbf, 0)
  else if b == 0xe0 then some (0xa0, 0xbf, 1)
  else if b == 0xed then some (0x80, 0x9f, 1)
  else if 0xe1 ≤ b && b ≤ 0xef then some (0x80, 0xbf, 1)
  else if b == 0xf0 then some (0x90, 0xbf, 2)
  else if 0xf1 ≤ b && b ≤ 0xf3 then some (0x80, 0xbf, 2)
  else if b == 0xf4 then some (0x80, 0x8f, 2)
  else none

/-- The first fault at or after an index. A character in progress is given by where it started, the
bounds of its next byte and the number of bytes to come after that one. -/
def findFault (index : Nat) : Option (Nat × UInt8 × UInt8 × Nat) → List UInt8 → Option Utf8Fault
  | none, [] => none
  | some (start, _, _, _), [] => some (.incomplete start)
  | none, b :: rest =>
    if b < 0x80 then findFault (index + 1) none rest
    else match followers? b with
      | some (low, high, left) => findFault (index + 1) (some (index, low, high, left)) rest
      | none => some (.invalid 1 index)
  | some (start, low, high, left), b :: rest =>
    if low ≤ b && b ≤ high then
      match left with
      | 0 => findFault (index + 1) none rest
      | left + 1 => findFault (index + 1) (some (start, 0x80, 0xbf, left)) rest
    else some (.invalid (index - start) start)

def ofUtf8 (bytes : List UInt8) : Except Utf8Fault String :=
  match String.fromUTF8? ⟨bytes.toArray⟩ with
  | some s => .ok s
  | none => .error ((findFault 0 none bytes).getD (.incomplete 0))

/-- The bytes of a text. -/
def toUtf8 (s : String) : List UInt8 := s.toUTF8.data.toList

end RegisterMachine.Text
