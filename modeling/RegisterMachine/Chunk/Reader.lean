import RegisterMachine.Chunk

/-! Reading prototypes back from bytes. -/
namespace RegisterMachine
namespace Chunk

/-- Why bytes are no chunk. -/
inductive ReadFault
  | tooSmall
  | wrongSignature
  | wrongVersion (found : String)
  | ended (needed : Nat)
  | endedInText
  | badText (f : Text.Utf8Fault)
  | tooDeep
  | truncatedCode (name : String)
  | unknownTag (tag : UInt8)
  | extraData
  | inVersion (f : ReadFault)
  | inConstant (name : String) (f : ReadFault)
  deriving DecidableEq, Repr, Inhabited

namespace ReadFault

/-- The messages of a fault, from the outermost circumstance to the cause. -/
def chain : ReadFault → List String
  | .tooSmall => ["chunk too small"]
  | .wrongSignature => ["not a precompiled chunk"]
  | .wrongVersion found =>
    ["version mismatch: chunk is '" ++ found ++ "', loader expects '" ++ version ++ "'"]
  | .ended needed => ["unexpected end of input while reading " ++ toString needed ++ " bytes"]
  | .endedInText => ["unexpected end of input while reading string"]
  | .badText f => ["invalid UTF-8 in string", f.message]
  | .tooDeep => ["prototypes nested too deeply"]
  | .truncatedCode name => ["truncated code in '" ++ name ++ "'"]
  | .unknownTag tag => ["unknown constant tag " ++ toString tag.toNat]
  | .extraData => ["extra data at end of chunk"]
  | .inVersion f => "reading version" :: f.chain
  | .inConstant name f => ("constant in '" ++ name ++ "'") :: f.chain

def message (f : ReadFault) : String := ": ".intercalate f.chain

end ReadFault

/-- Readers take what they need from the front of the bytes. -/
abbrev Reader (α : Type) := List UInt8 → Except ReadFault (α × List UInt8)

def splitBytes? : Nat → List UInt8 → Option (List UInt8 × List UInt8)
  | 0, rest => some ([], rest)
  | _ + 1, [] => none
  | n + 1, b :: rest => (splitBytes? n rest).map fun (front, rest) => (b :: front, rest)

def readNumber (width : Nat) : Reader Nat := fun bytes =>
  match splitBytes? width bytes with
  | some (front, rest) => .ok (ofLittleEndian front, rest)
  | none => .error (.ended width)

def readByte : Reader UInt8 := fun bytes => do
  let (n, rest) ← readNumber 1 bytes
  return (UInt8.ofNat n, rest)

def readFlag : Reader Bool := fun bytes => do
  let (b, rest) ← readByte bytes
  return (b != 0, rest)

def readText : Reader String := fun bytes => do
  let (length, rest) ← readNumber 4 bytes
  match splitBytes? length rest with
  | none => throw .endedInText
  | some (front, rest) =>
    match Text.ofUtf8 front with
    | .ok s => return (s, rest)
    | .error f => throw (.badText f)

/-- As many items as the first argument says. -/
def readMany {α : Type} (item : Reader α) : Nat → Reader (List α)
  | 0, bytes => .ok ([], bytes)
  | n + 1, bytes => do
    let (a, rest) ← item bytes
    let (as, rest) ← readMany item n rest
    return (a :: as, rest)

def readWord : Reader Word := fun bytes => do
  let (n, rest) ← readNumber 4 bytes
  return (⟨UInt32.ofNat n⟩, rest)

def readPosition : Reader Position := fun bytes => do
  let (line, rest) ← readNumber 4 bytes
  let (column, rest) ← readNumber 4 rest
  return (⟨UInt32.ofNat line, UInt32.ofNat column⟩, rest)

def readConstant : Reader Value := fun bytes => do
  let (tag, rest) ← readByte bytes
  match tag.toNat with
  | 0 => return (.nil, rest)
  | 1 => return (.bool false, rest)
  | 2 => return (.bool true, rest)
  | 3 =>
    let (n, rest) ← readNumber 8 rest
    return (.int (UInt64.ofNat n).toInt64, rest)
  | 4 =>
    let (n, rest) ← readNumber 8 rest
    return (.float ⟨UInt64.ofNat n⟩, rest)
  | 5 =>
    let (s, rest) ← readText rest
    return (.str s, rest)
  | _ => throw (.unknownTag tag)

def readNamedConstant (name : String) : Reader Value := fun bytes =>
  match readConstant bytes with
  | .ok r => .ok r
  | .error f => .error (.inConstant name f)

def readCapture : Reader Capture := fun bytes => do
  let (name, rest) ← readText bytes
  let (inRegister, rest) ← readFlag rest
  let (index, rest) ← readByte rest
  return (⟨name, inRegister, index⟩, rest)

/-- A prototype nested less deep than the first argument says. -/
def readPrototype : Nat → Reader Prototype
  | 0, _ => .error .tooDeep
  | depth + 1, bytes => do
    let (name, rest) ← readText bytes
    let (source, rest) ← readText rest
    let (line, rest) ← readNumber 4 rest
    let (params, rest) ← readByte rest
    let (isVararg, rest) ← readFlag rest
    let (window, rest) ← readNumber 2 rest
    let (codeLength, rest) ← readNumber 4 rest
    if rest.length < codeLength * 12 then throw (.truncatedCode name)
    let (code, rest) ← readMany readWord codeLength rest
    let (positions, rest) ← readMany readPosition codeLength rest
    let (constantsLength, rest) ← readNumber 4 rest
    let (constants, rest) ← readMany (readNamedConstant name) constantsLength rest
    let (capturesLength, rest) ← readNumber 4 rest
    let (captures, rest) ← readMany readCapture capturesLength rest
    let (childrenLength, rest) ← readNumber 4 rest
    let (children, rest) ← readMany (readPrototype depth) childrenLength rest
    return (.mk name source (UInt32.ofNat line) params isVararg (UInt16.ofNat window) code.toArray
      positions.toArray constants.toArray captures.toArray children, rest)

/-- The version that follows the signature. -/
def readVersion : Reader String := fun bytes =>
  match readText bytes with
  | .ok r => .ok r
  | .error f => .error (.inVersion f)

/-- The prototype tree of a whole chunk. -/
def read (bytes : List UInt8) : Except ReadFault Prototype := do
  if bytes.length < signature.length then throw .tooSmall
  if bytes.take signature.length ≠ signature then throw .wrongSignature
  let (found, rest) ← readVersion (bytes.drop signature.length)
  if found ≠ version then throw (.wrongVersion found)
  let (p, rest) ← readPrototype maxNesting rest
  if !rest.isEmpty then throw .extraData
  return p

end Chunk
end RegisterMachine
