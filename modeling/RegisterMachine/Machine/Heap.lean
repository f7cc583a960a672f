import RegisterMachine.Arena
import RegisterMachine.Machine.Fiber
import RegisterMachine.Text.Quoted

/-! The heap: one store for each sort of object. -/
namespace RegisterMachine

structure Store (s : ObjectSort) (α : Type) where
  items : Array α := #[]
  deriving Inhabited

namespace Store

variable {s : ObjectSort} {α : Type}

@[inline] def get? (st : Store s α) (r : Ref s) : Option α := st.items[r.index]?

@[inline] def getD (st : Store s α) (r : Ref s) (default : α) : α := st.items.getD r.index default

/-- Adds an object behind all others. -/
def alloc (st : Store s α) (a : α) : Ref s × Store s α :=
  (⟨st.items.size⟩, ⟨st.items.push a⟩)

@[inline] def modify (st : Store s α) (r : Ref s) (f : α → α) : Store s α :=
  ⟨st.items.modify r.index f⟩

@[simp] theorem get?_alloc_self (st : Store s α) (a : α) :
    (st.alloc a).2.get? (st.alloc a).1 = some a := by
  simp [alloc, get?]

theorem get?_alloc_of_isSome (st : Store s α) (a : α) (r : Ref s) (h : (st.get? r).isSome) :
    (st.alloc a).2.get? r = st.get? r := by
  have hr : r.index < st.items.size := by
    simpa [get?] using h
  simp [alloc, get?, Array.getElem?_push, Nat.ne_of_lt hr]

@[simp] theorem get?_modify_self (st : Store s α) (r : Ref s) (f : α → α) :
    (st.modify r f).get? r = (st.get? r).map f := by
  simp [modify, get?, Array.getElem?_modify]

theorem get?_modify_of_ne (st : Store s α) {r q : Ref s} (h : r ≠ q) (f : α → α) :
    (st.modify r f).get? q = st.get? q := by
  have hi : r.index ≠ q.index := by
    intro hi
    apply h
    cases r
    cases q
    simpa using hi
  simp [modify, get?, Array.getElem?_modify, hi]

end Store

/-- Routines of the library that can be called under a name. -/
inductive Builtin
  | assert | error | pcall | xpcall | type | tostring | tonumber
  | rawget | rawset | rawequal | rawlen | setmetatable | getmetatable
  | next | pairs | ipairs | select | print
  | coCreate | coResume | coYield | coStatus | coClose | coWrap | coIsYieldable | coRunning
  | debugBreak | debugTraceback | debugGetMetatable | debugSetMetatable
  | exit
  deriving DecidableEq, Repr, Inhabited

/-- What a native function does. -/
inductive Routine
  | builtin (b : Builtin)
  /-- The step of a traversal by integers. -/
  | ipairsStep
  /-- Resume a coroutine. -/
  | wrapped (co : Ref .coroutine)
  /-- A function of the host, by name. -/
  | host (name : String)
  deriving DecidableEq, Repr, Inhabited

structure Native where
  name : String
  routine : Routine
  /-- The arguments that must be there. -/
  minArgs : Nat := 0
  deriving DecidableEq, Repr, Inhabited

namespace Native

/-- The name without what stands before its last dot. -/
def shortNameOf (name : String) : String :=
  String.ofList (name.toList.reverse.takeWhile (· != '.')).reverse

/-- What stands before the last dot of a name. -/
def libraryOf? (name : String) : Option String :=
  match name.toList.reverse.dropWhile (· != '.') with
  | _ :: rest => some (String.ofList rest.reverse)
  | [] => none

end Native

structure File where
  name : String
  isClosed : Bool := false
  deriving DecidableEq, Repr, Inhabited

/-- A cancellation token: it counts as cancelled when it or a token above it was cancelled. -/
structure Token where
  wasCancelled : Bool := false
  parent : Option (Ref .token) := none
  deriving DecidableEq, Repr, Inhabited

structure Heap where
  tables : Store .table Table := {}
  closures : Store .closure Closure := {}
  natives : Store .native Native := {}
  coroutines : Store .coroutine Coroutine := {}
  files : Store .file File := {}
  brokers : Store .broker Broker := {}
  arenas : Store .arena Arena := {}
  tokens : Store .token Token := {}
  /-- The metatable of all strings. -/
  stringMetatable : Option (Ref .table) := none
  deriving Inhabited

/-- Whether a token or one above it was cancelled. Tokens are made after their parents, so the index
bounds the way up. -/
def Store.isCancelledAt (st : Store .token Token) : Nat → Ref .token → Bool
  | 0, _ => false
  | n + 1, r =>
    match st.get? r with
    | none => false
    | some t => t.wasCancelled || match t.parent with
      | some p => st.isCancelledAt n p
      | none => false

def Store.isCancelled (st : Store .token Token) (r : Ref .token) : Bool :=
  st.isCancelledAt (r.index + 1) r

def Store.cancel (st : Store .token Token) (r : Ref .token) : Store .token Token :=
  st.modify r fun t => { t with wasCancelled := true }

namespace Heap

def table (h : Heap) (r : Ref .table) : Table := h.tables.getD r {}

def closure (h : Heap) (r : Ref .closure) : Closure := h.closures.getD r default

def native (h : Heap) (r : Ref .native) : Native := h.natives.getD r default

def coroutine? (h : Heap) (r : Ref .coroutine) : Option Coroutine := h.coroutines.get? r

def status (h : Heap) (r : Ref .coroutine) : Status :=
  match h.coroutines.get? r with
  | some c => c.status
  | none => .dead

def file (h : Heap) (r : Ref .file) : File := h.files.getD r default

def arena (h : Heap) (r : Ref .arena) : Arena := h.arenas.getD r default

@[inline] def modifyTable (h : Heap) (r : Ref .table) (f : Table → Table) : Heap :=
  { h with tables := h.tables.modify r f }

@[inline] def modifyArena (h : Heap) (r : Ref .arena) (f : Arena → Arena) : Heap :=
  { h with arenas := h.arenas.modify r f }

@[inline] def modifyCoroutine (h : Heap) (r : Ref .coroutine) (f : Coroutine → Coroutine) : Heap :=
  { h with coroutines := h.coroutines.modify r f }

def newTable (h : Heap) (t : Table) : Ref .table × Heap :=
  let (r, tables) := h.tables.alloc t
  (r, { h with tables })

def newClosure (h : Heap) (c : Closure) : Ref .closure × Heap :=
  let (r, closures) := h.closures.alloc c
  (r, { h with closures })

def newNative (h : Heap) (n : Native) : Ref .native × Heap :=
  let (r, natives) := h.natives.alloc n
  (r, { h with natives })

def newCoroutine (h : Heap) (c : Coroutine) : Ref .coroutine × Heap :=
  let (r, coroutines) := h.coroutines.alloc c
  (r, { h with coroutines })

def newFile (h : Heap) (f : File) : Ref .file × Heap :=
  let (r, files) := h.files.alloc f
  (r, { h with files })

def newBroker (h : Heap) (b : Broker) : Ref .broker × Heap :=
  let (r, brokers) := h.brokers.alloc b
  (r, { h with brokers })

def newArena (h : Heap) (a : Arena) : Ref .arena × Heap :=
  let (r, arenas) := h.arenas.alloc a
  (r, { h with arenas })

def newToken (h : Heap) (t : Token) : Ref .token × Heap :=
  let (r, tokens) := h.tokens.alloc t
  (r, { h with tokens })

/-- The value of a captured variable. -/
def brokerValue (h : Heap) (r : Ref .broker) : Value :=
  match h.brokers.get? r with
  | some (.live arena slot) => (h.arena arena).get slot
  | some (.closed v) => v
  | none => .nil

def closeBroker (h : Heap) (r : Ref .broker) : Heap :=
  let v := h.brokerValue r
  { h with brokers := h.brokers.modify r fun _ => .closed v }

def closeBrokers (h : Heap) : List (Ref .broker) → Heap
  | [] => h
  | r :: rs => (h.closeBroker r).closeBrokers rs

def metatable? (h : Heap) : Value → Option (Ref .table)
  | .table r => (h.table r).metatable
  | .str _ => h.stringMetatable
  | .coroutine r => (h.coroutines.get? r).bind Coroutine.metatable
  | _ => none

/-- The handler of a value for an event, nil when there is none. -/
def metamethod (h : Heap) (v : Value) (event : String) : Value :=
  match h.metatable? v with
  | some r => (h.table r).getStr event
  | none => .nil

def functionName (h : Heap) : Callee → String
  | .closure r => (h.closure r).prototype.name
  | .native r => (h.native r).name

def addressText (v : Value) : String := "0x" ++ Text.paddedHex 8 v.address

/-- The text of a value without metamethods. -/
def display (h : Heap) : Value → String
  | .nil => "nil"
  | .bool true => "true"
  | .bool false => "false"
  | .int i => toString i.toInt
  | .float x => x.toText
  | .str s => s
  | .table r => "table: " ++ addressText (.table r)
  | .closure r => "function: " ++ addressText (.closure r)
  | .native r => "function: builtin: " ++ addressText (.native r)
  | .coroutine r => "thread: " ++ addressText (.coroutine r)
  | .file r =>
    if (h.file r).isClosed then "file (closed)" else "file (" ++ addressText (.file r) ++ ")"

def describe (h : Heap) : Value → String
  | .str s => Text.quote s
  | .closure r => "function<" ++ h.functionName (.closure r) ++ ">"
  | .native r => "function<" ++ h.functionName (.native r) ++ ">"
  | v => h.display v

end Heap
end RegisterMachine
