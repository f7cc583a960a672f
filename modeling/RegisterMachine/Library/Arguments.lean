import RegisterMachine.Script

/-! Arguments of library functions. They are counted from 1; missing ones read as nil, and each check
says which argument of which function is wrong. -/
namespace RegisterMachine
namespace Arguments

/-- The argument at a place, if it was given. -/
def get? (args : List Value) (n : Nat) : Option Value := args[n - 1]?

def get (args : List Value) (n : Nat) : Value := (get? args n).getD .nil

def bad (n : Nat) (function complaint : String) : Fault := .runtime (.badArgument n function complaint)

/-- The fault of an argument of another type. -/
def mismatch (args : List Value) (n : Nat) (function expected : String) : Fault :=
  let got := match get? args n with
    | some v => v.typeName
    | none => "no value"
  bad n function (expected ++ " expected, got " ++ got)

def table (args : List Value) (n : Nat) (function : String) : Except Fault (Ref .table) :=
  match get? args n with
  | some (.table r) => .ok r
  | _ => .error (mismatch args n function "table")

def function (args : List Value) (n : Nat) (name : String) : Except Fault Callee :=
  match (get? args n).bind Value.callee? with
  | some f => .ok f
  | none => .error (mismatch args n name "function")

def coroutine (args : List Value) (n : Nat) (function : String) : Except Fault (Ref .coroutine) :=
  match get? args n with
  | some (.coroutine r) => .ok r
  | _ => .error (mismatch args n function "coroutine")

/-- An integer, also as a double or a numeral. -/
def integer (args : List Value) (n : Nat) (function : String) : Except Fault Int64 :=
  match (get? args n).bind Value.toNumber? with
  | none => .error (mismatch args n function "number")
  | some x =>
    match x.toInt64? with
    | some i => .ok i
    | none => .error (bad n function "number has no integer representation")

/-- An integer that may be left out. -/
def integerOr (args : List Value) (n : Nat) (function : String) (default : Int64) :
    Except Fault Int64 :=
  if (get args n).isNil then .ok default else integer args n function

/-- A metatable or nil as the second argument. -/
def metatable (args : List Value) (function : String) : Except Fault (Option (Ref .table)) :=
  match get args 2 with
  | .nil => .ok none
  | .table r => .ok (some r)
  | _ => .error (bad 2 function "nil or table expected")

end Arguments

def Script.check {α : Type} : Except Fault α → Script α
  | .ok a => .done a
  | .error f => .fail f

end RegisterMachine
