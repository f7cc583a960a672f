import RegisterMachine.Prototype
import RegisterMachine.Text.Quoted

/-! Readable listings of prototypes. -/
namespace RegisterMachine
namespace Prototype

/-- A code word of a listing: an instruction, or the raw word that belongs to the one before. -/
structure Row where
  index : Nat
  word : Word
  isExtra : Bool
  deriving DecidableEq, Repr, Inhabited

/-- Divides code words into instructions and the raw words that belong to them. -/
def rowsFrom : Nat → List Word → List Row
  | _, [] => []
  | n, [w] => [⟨n, w, false⟩]
  | n, w :: extra :: rest =>
    if w.hasExtraWord then ⟨n, w, false⟩ :: ⟨n + 1, extra, true⟩ :: rowsFrom (n + 2) rest
    else ⟨n, w, false⟩ :: rowsFrom (n + 1) (extra :: rest)

def rows (p : Prototype) : List Row := rowsFrom 0 p.code.toList

/-- A number filled with blanks on the left. -/
def padLeft (width n : Nat) : String :=
  let digits := Nat.toDigits 10 n
  String.ofList (List.replicate (width - digits.length) ' ' ++ digits)

/-- A text filled with blanks on the right. -/
def padRight (width : Nat) (s : String) : String :=
  s ++ String.ofList (List.replicate (width - s.length) ' ')

def operandText : Operand → String
  | .register i => toString i.toNat
  | .constant i => "K" ++ toString i.toNat

def jumpTarget (index : Nat) (w : Word) : Int := index + 2 + w.sbx.toInt

/-- The operands of an instruction after A. -/
def operandsText (layout : Layout) (w : Word) : String :=
  match layout with
  | .abc => " " ++ operandText w.operandB ++ " " ++ operandText w.operandC
  | .abx => " " ++ toString w.bx.toNat
  | .asbx => " " ++ toString w.sbx.toInt

section
variable (showValue : Value → String)

def constantText (p : Prototype) (n : Nat) : String :=
  match p.constants[n]? with
  | some v => showValue v
  | none => "?"

/-- What a listing adds behind an instruction: its constants, its target or its child. -/
def note (p : Prototype) (index : Nat) (op : Opcode) (w : Word) : String :=
  match op with
  | .loadK => "\t; " ++ constantText showValue p w.bx.toNat
  | .jmp | .forLoop | .forPrep | .tforLoop => "\t; to " ++ toString (jumpTarget index w)
  | .closure =>
    match p.children[w.bx.toNat]? with
    | some child => "\t; " ++ child.name
    | none => ""
  | _ =>
    let constants := if op.layout = .abc then
        [w.operandB, w.operandC].filter Operand.isConstant
      else []
    if constants.isEmpty then ""
    else "\t; " ++ " ".intercalate (constants.map fun o => constantText showValue p o.index.toNat)

def instructionText (p : Prototype) (index : Nat) (w : Word) : String :=
  match w.opcode? with
  | none => "UNDEFINED " ++ toString w.code ++ " (raw: 0x" ++ Text.paddedHex 8 w.bits.toNat ++ ")"
  | some op =>
    padRight 9 op.name ++ " " ++ toString w.a.toNat ++ operandsText op.layout w
      ++ note showValue p index op w

/-- A row; a raw word shows the line of its instruction. -/
def rowText (p : Prototype) (r : Row) : String :=
  let lineOf (n : Nat) : String :=
    match p.position? n with
    | some position => toString position.line.toNat
    | none => "0"
  if r.isExtra then
    "\t" ++ padLeft 4 (r.index + 1) ++ "\t[" ++ lineOf (r.index - 1) ++ "]\tEXTRAARG  "
      ++ toString r.word.bits.toNat ++ "\n"
  else
    "\t" ++ padLeft 4 (r.index + 1) ++ "\t[" ++ lineOf r.index ++ "]\t"
      ++ instructionText showValue p r.index r.word ++ "\n"

def captureText (n : Nat) (c : Capture) : String :=
  "\t" ++ toString n ++ "\t" ++ c.name ++ "\t" ++ (if c.inRegister then "register" else "upvalue")
    ++ "\t" ++ toString c.index.toNat ++ "\n"

def ownListing (path : String) (p : Prototype) : String :=
  "function <" ++ p.source ++ ":" ++ toString p.line.toNat ++ "> " ++ path ++ " ("
    ++ toString p.code.size ++ " instructions)\n"
    ++ toString p.params.toNat ++ (if p.isVararg then "+" else "") ++ " params, "
    ++ toString p.window.toNat ++ " slots, " ++ toString p.captures.size ++ " upvalues, "
    ++ toString p.constants.size ++ " constants, " ++ toString p.children.length ++ " functions\n"
    ++ String.join (p.rows.map (rowText showValue p))
    ++ (if p.captures.isEmpty then ""
        else "upvalues (" ++ toString p.captures.size ++ "):\n"
          ++ String.join (p.captures.toList.zipIdx.map fun (c, n) => captureText n c))

mutual

def listingAt (path : String) : Prototype → String
  | .mk name source line params isVararg window code positions constants captures children =>
    ownListing showValue path
        (.mk name source line params isVararg window code positions constants captures children)
      ++ listingsAt path 0 children

def listingsAt (path : String) (n : Nat) : List Prototype → String
  | [] => ""
  | child :: rest =>
    "\n" ++ listingAt (path ++ ".<" ++ toString n ++ ">") child ++ listingsAt path (n + 1) rest

end

def listing (p : Prototype) : String := listingAt showValue p.name p

end
end Prototype
end RegisterMachine
