import RegisterMachine.Value

/-! Arenas: the memory of a fiber. Slots beyond the end read as nil; writing grows the arena by
doubling, up to its limit. -/
namespace RegisterMachine

structure Arena where
  slots : Array Value
  limit : Nat
  deriving Repr, Inhabited

namespace Arena

/-- A fresh arena; it has at least one slot, and beyond that no more than its limit. -/
def create (initial limit : Nat) : Arena :=
  ⟨Array.replicate (max 1 (min initial (max limit 1))) .nil, limit⟩

def capacity (a : Arena) : Nat := a.slots.size

def get (a : Arena) (i : Nat) : Value := a.slots.getD i .nil

def admits (a : Arena) (i : Nat) : Bool := i < a.slots.size || i < a.limit

def doubled (size i : Nat) : Nat := size <<< ((i / size).log2 + 1)

/-- The arena with an index covered, if it can be. -/
def grow (a : Arena) (i : Nat) : Arena :=
  if i < a.slots.size then a
  else
    let size := min (doubled (max a.slots.size 1) i) a.limit
    { a with slots := a.slots ++ Array.replicate (size - a.slots.size) .nil }

def put (a : Arena) (i : Nat) (v : Value) : Arena :=
  match a.grow i with
  | ⟨slots, limit⟩ => ⟨slots.setIfInBounds i v, limit⟩

/-- Writes consecutive slots that are there. -/
def putAll (slots : Array Value) (start : Nat) : List Value → Array Value
  | [] => slots
  | v :: vs => putAll (slots.setIfInBounds start v) (start + 1) vs

/-- Writes consecutive slots. -/
def putRange (a : Arena) (start : Nat) (vs : List Value) : Arena :=
  if vs.isEmpty then a
  else
    match a.grow (start + vs.length - 1) with
    | ⟨slots, limit⟩ => ⟨putAll slots start vs, limit⟩

/-- Sets as many slots as the last argument says to nil. -/
def wipe (slots : Array Value) (start : Nat) : Nat → Array Value
  | 0 => slots
  | n + 1 => wipe (slots.setIfInBounds start .nil) (start + 1) n

/-- Sets the slots from `start` up to `stop` to nil. -/
def clearRange (a : Arena) (start stop : Nat) : Arena :=
  if stop ≤ start then a
  else
    match a.grow (stop - 1) with
    | ⟨slots, limit⟩ => ⟨wipe slots start (stop - start), limit⟩

def lastSlot? (start count : Nat) : Option Nat := if count = 0 then none else some (start + count - 1)

/-- Whether consecutive slots can be written. -/
def admitsRange (a : Arena) (start count : Nat) : Bool :=
  match lastSlot? start count with
  | some i => a.admits i
  | none => true

def readRange (a : Arena) (start count : Nat) : List Value := (List.range' start count).map a.get

/-- A description of the size. -/
def describe (a : Arena) : String :=
  "ValueStack \x7b capacity: " ++ toString a.capacity ++ ", max_slots: " ++ toString a.limit
    ++ " \x7d"

end Arena
end RegisterMachine
