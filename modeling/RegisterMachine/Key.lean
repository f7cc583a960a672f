import RegisterMachine.Value

/-! Table keys: every value but nil and NaN, with whole doubles taken as integers, so that equal keys
are the same key. -/
namespace RegisterMachine

inductive KeyFault
  | nil | nan
  deriving DecidableEq, Repr, Inhabited

namespace KeyFault

def name : KeyFault → String
  | .nil => "nil"
  | .nan => "NaN"

end KeyFault

def Value.isKey : Value → Bool
  | .nil => false
  | .float x => !x.isNaN && x.toInt64?.isNone
  | _ => true

structure Key where
  value : Value
  isKey : value.isKey
  deriving DecidableEq, Repr

namespace Key

def ofInt (i : Int64) : Key := ⟨.int i, rfl⟩

def ofString (s : String) : Key := ⟨.str s, rfl⟩

instance : Inhabited Key := ⟨ofInt 0⟩

instance : Hashable Key := ⟨fun k => hash k.value⟩

def ofValue : Value → Except KeyFault Key
  | .nil => .error .nil
  | .float x =>
    match h : x.toInt64? with
    | some i => .ok (ofInt i)
    | none =>
      if hn : x.isNaN then .error .nan else .ok ⟨.float x, by simp [Value.isKey, h, hn]⟩
  | .bool b => .ok ⟨.bool b, rfl⟩
  | .int i => .ok (ofInt i)
  | .str s => .ok (ofString s)
  | .table r => .ok ⟨.table r, rfl⟩
  | .closure r => .ok ⟨.closure r, rfl⟩
  | .native r => .ok ⟨.native r, rfl⟩
  | .coroutine r => .ok ⟨.coroutine r, rfl⟩
  | .file r => .ok ⟨.file r, rfl⟩

end Key
end RegisterMachine
