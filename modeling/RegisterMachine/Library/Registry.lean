import RegisterMachine.Machine.Basic

/-! The registry: native functions under qualified names, in the order in which they are installed. -/
namespace RegisterMachine

structure Registry where
  entries : List Native := []
  deriving DecidableEq, Repr, Inhabited

namespace Registry

def empty : Registry := {}

def size (g : Registry) : Nat := g.entries.length

def isEmpty (g : Registry) : Bool := g.entries.isEmpty

def get? (g : Registry) (name : String) : Option Native := g.entries.find? fun n => n.name == name

def contains (g : Registry) (name : String) : Bool := (g.get? name).isSome

inductive Refusal
  | taken (name : String)
  deriving DecidableEq, Repr, Inhabited

def Refusal.message : Refusal → String
  | .taken name => "Built-in function '" ++ name ++ "' already registered"

def register (g : Registry) (n : Native) : Except Refusal Registry :=
  if g.contains n.name then .error (.taken n.name) else .ok ⟨g.entries ++ [n]⟩

/-- Puts a function where its name says: among the globals, or in the table of its library, which is
made when its first function comes. -/
def installOne (state : List (String × Ref .table) × Machine) (n : Native) :
    List (String × Ref .table) × Machine :=
  let (libraries, m) := state
  let (r, h) := m.heap.newNative n
  let m := { m with heap := h }
  match Native.libraryOf? n.name with
  | none => (libraries, m.setGlobal n.name (.native r))
  | some library =>
    let put (t : Ref .table) (m : Machine) : Machine :=
      m.modifyHeap (·.modifyTable t (·.setStr (Native.shortNameOf n.name) (.native r)))
    match libraries.lookup library with
    | some t => (libraries, put t m)
    | none =>
      let (t, h) := m.heap.newTable {}
      let m := ({ m with heap := h } : Machine).setGlobal library (.table t)
      ((library, t) :: libraries, put t m)

def install (g : Registry) (m : Machine) : Machine := (g.entries.foldl installOne ([], m)).2

/-- The functions of the standard library with the arguments they cannot do without. -/
def standard : Registry where
  entries := [
    ⟨"assert", .builtin .assert, 1⟩,
    ⟨"error", .builtin .error, 0⟩,
    ⟨"pcall", .builtin .pcall, 1⟩,
    ⟨"xpcall", .builtin .xpcall, 2⟩,
    ⟨"type", .builtin .type, 1⟩,
    ⟨"tostring", .builtin .tostring, 1⟩,
    ⟨"tonumber", .builtin .tonumber, 1⟩,
    ⟨"rawget", .builtin .rawget, 2⟩,
    ⟨"rawset", .builtin .rawset, 3⟩,
    ⟨"rawequal", .builtin .rawequal, 2⟩,
    ⟨"rawlen", .builtin .rawlen, 1⟩,
    ⟨"setmetatable", .builtin .setmetatable, 1⟩,
    ⟨"getmetatable", .builtin .getmetatable, 1⟩,
    ⟨"next", .builtin .next, 1⟩,
    ⟨"pairs", .builtin .pairs, 1⟩,
    ⟨"ipairs", .builtin .ipairs, 1⟩,
    ⟨"select", .builtin .select, 1⟩,
    ⟨"print", .builtin .print, 0⟩,
    ⟨"coroutine.create", .builtin .coCreate, 1⟩,
    ⟨"coroutine.resume", .builtin .coResume, 1⟩,
    ⟨"coroutine.yield", .builtin .coYield, 0⟩,
    ⟨"coroutine.status", .builtin .coStatus, 1⟩,
    ⟨"coroutine.close", .builtin .coClose, 1⟩,
    ⟨"coroutine.wrap", .builtin .coWrap, 1⟩,
    ⟨"coroutine.isyieldable", .builtin .coIsYieldable, 0⟩,
    ⟨"coroutine.running", .builtin .coRunning, 0⟩,
    ⟨"debug.debug", .builtin .debugBreak, 0⟩,
    ⟨"debug.traceback", .builtin .debugTraceback, 0⟩,
    ⟨"debug.getmetatable", .builtin .debugGetMetatable, 1⟩,
    ⟨"debug.setmetatable", .builtin .debugSetMetatable, 2⟩,
    ⟨"os.exit", .builtin .exit, 0⟩]

end Registry

def Machine.create (limits : Limits) : Machine := Registry.standard.install (.bare limits)

end RegisterMachine
