import RegisterMachine.Table.Entries
import RegisterMachine.Text.Quoted

/-! Tables: a dense part for the keys 1, 2, … and entries in insertion order for all others. -/
namespace RegisterMachine

structure Table where
  /-- The values of the keys 1, 2, …, `items.size`. -/
  items : Array Value := #[]
  /-- All other keys, oldest first. -/
  entries : Entries := .empty
  metatable : Option (Ref .table) := none
  deriving Inhabited

inductive TraversalFault
  | badKey (f : KeyFault)
  | unknownKey
  deriving DecidableEq, Repr, Inhabited

namespace Table

def empty : Table := {}

/-- The place in `items` of an integer key. -/
def slot? (t : Table) (i : Int64) : Option Nat :=
  if 1 ≤ i.toInt && i.toInt ≤ t.items.size then some (i.toInt.toNat - 1) else none

def getInt (t : Table) (i : Int64) : Value :=
  match t.slot? i with
  | some n => t.items.getD n .nil
  | none => t.entries.get (.ofInt i)

def getKey (t : Table) (k : Key) : Value :=
  match k.value with
  | .int i => t.getInt i
  | _ => t.entries.get k

/-- Missing keys, and values that are no keys, read as nil. -/
def get (t : Table) (v : Value) : Value :=
  match Key.ofValue v with
  | .ok k => t.getKey k
  | .error _ => .nil

def getStr (t : Table) (s : String) : Value := t.entries.get (.ofString s)

/-- Whether every positive integer key has its place in `items`, so that none would extend it. -/
def isFull (t : Table) : Bool := Int64.maxValue.toInt ≤ t.items.size

/-- The integer key that would extend `items`, unless it is full. -/
def nextIndex (t : Table) : Int64 := Int64.ofInt (t.items.size + 1)

/-- Moves the entries that continue `items` into it, at most as many as the first argument says. -/
def migrate : Nat → Table → Table
  | 0, t => t
  | n + 1, t =>
    if t.isFull then t
    else
      match t.entries.remove (.ofInt t.nextIndex) with
      | (some v, entries) => migrate n { t with items := t.items.push v, entries }
      | (none, entries) => { t with entries }

def setInt (t : Table) (i : Int64) (v : Value) : Table :=
  match t.slot? i with
  | some n => { t with items := t.items.setIfInBounds n v }
  | none =>
    if i.toInt == t.items.size + 1 && !v.isNil then
      let t := { t with items := t.items.push v, entries := (t.entries.remove (.ofInt i)).2 }
      t.migrate t.entries.toArray.size
    else { t with entries := t.entries.set (.ofInt i) v }

def setKey (t : Table) (k : Key) (v : Value) : Table :=
  match k.value with
  | .int i => t.setInt i v
  | _ => { t with entries := t.entries.set k v }

/-- Assigning nil clears the key. -/
def set (t : Table) (k v : Value) : Except KeyFault Table :=
  match Key.ofValue k with
  | .ok k => .ok (t.setKey k v)
  | .error f => .error f

def setStr (t : Table) (s : String) (v : Value) : Table :=
  { t with entries := t.entries.set (.ofString s) v }

/-- Assigns consecutive integer keys. -/
def setFrom (t : Table) (first : Nat) : List Value → Table
  | [] => t
  | v :: vs => (t.setInt (Int64.ofInt first) v).setFrom (first + 1) vs

def ofList (vs : List Value) : Table := empty.setFrom 1 vs

/-- The last index up to `n` with a value in `items`. -/
def borderUpTo (t : Table) : Nat → Nat
  | 0 => 0
  | n + 1 => if (t.items.getD n .nil).isNil then t.borderUpTo n else n + 1

def border (t : Table) : Nat := t.borderUpTo t.items.size

def isEmpty (t : Table) : Bool := t.border == 0 && t.entries.liveCount == 0

def sequence (t : Table) : List Value := (t.items.extract 0 t.border).toList

/-- The first live item at or after a place, with its key. -/
def itemFrom (t : Table) (n : Nat) : Option (Value × Value) :=
  go (t.items.size - n) n
where
  go : Nat → Nat → Option (Value × Value)
    | 0, _ => none
    | left + 1, n =>
      let v := t.items.getD n .nil
      if v.isNil then go left (n + 1) else some (.int (Int64.ofInt (n + 1)), v)

/-- The place behind a key, counting the items first and then the entries. -/
def placeAfter (t : Table) (v : Value) : Except TraversalFault Nat :=
  match Key.ofValue v with
  | .error f => .error (.badKey f)
  | .ok k =>
    let item := match k.value with
      | .int i => t.slot? i
      | _ => none
    match item with
    | some n => .ok (n + 1)
    | none =>
      match t.entries.position? k with
      | some n => .ok (t.items.size + n + 1)
      | none => .error .unknownKey

/-- The key and value that follow a key in a traversal, or the first ones after nil. -/
def next (t : Table) (v : Value) : Except TraversalFault (Option (Value × Value)) := do
  let start ← if v.isNil then pure 0 else t.placeAfter v
  match t.itemFrom start with
  | some pair => return some pair
  | none => return (t.entries.liveFrom (start - t.items.size)).map fun e => (e.key.value, e.value)

/-- The keys that hold a value, with it, in the order of a traversal. -/
def pairs (t : Table) : List (Value × Value) :=
  let items := (t.items.toList.zipIdx 1).map fun (v, n) => (Value.int (Int64.ofInt n), v)
  let entries := t.entries.toArray.toList.map fun e => (e.key.value, e.value)
  (items ++ entries).filter fun p => !p.2.isNil

/-- A description of the contents, given one for values. -/
def describe (t : Table) (showValue : Value → String) : String :=
  let items := ", ".intercalate (t.items.toList.map showValue)
  let live := t.entries.toArray.toList.filter fun e => !e.value.isNil
  let entries := ", ".intercalate
    (live.map fun e => "(" ++ showValue e.key.value ++ ", " ++ showValue e.value ++ ")")
  "Table \x7b array: [" ++ items ++ "], hash: [" ++ entries ++ "], has_metatable: "
    ++ (if t.metatable.isSome then "true" else "false") ++ " \x7d"

end Table
end RegisterMachine
