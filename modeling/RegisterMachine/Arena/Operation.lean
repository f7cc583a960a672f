import RegisterMachine.Arena
import RegisterMachine.Fault

/-! The ways of writing to an arena. They are also run with numbers of 64 bits, which wrap around, and with the loop
that doubles a size: such a run may not end, and it stops where a slot is missing. -/
namespace RegisterMachine
namespace Arena

inductive Op
  | put (i : Nat) (v : Value)
  | grow (i : Nat)
  | putRange (start : Nat) (vs : List Value)
  | clearRange (start stop : Nat)
  deriving DecidableEq, Repr

namespace Op

def apply : Op → Arena → Arena
  | .put i v, a => a.put i v
  | .grow i, a => a.grow i
  | .putRange start vs, a => a.putRange start vs
  | .clearRange start stop, a => a.clearRange start stop

/-- Whether all slots concerned can be written. -/
def fits : Op → Arena → Bool
  | .put i _, a => a.admits i
  | .grow i, a => a.admits i
  | .putRange start vs, a => a.admitsRange start vs.length
  | .clearRange start stop, a => a.admitsRange start (stop - start)

/-- Whether the end of what is written has a number of 64 bits. -/
def EndFits : Op → Prop
  | .putRange start vs => start + vs.length < UInt64.size
  | _ => True

instance : DecidablePred EndFits
  | .putRange start vs => inferInstanceAs (Decidable (start + vs.length < UInt64.size))
  | .put _ _ => .isTrue trivial
  | .grow _ => .isTrue trivial
  | .clearRange _ _ => .isTrue trivial

end Op

def wrap64 (n : Nat) : Nat := n % UInt64.size

/-- The loop that doubles a size until it covers an index. After 64 rounds the size is zero for good. -/
def double? : Nat → Nat → Nat → Option Nat
  | 0, _, _ => none
  | rounds + 1, i, size => if i < size then some size else double? rounds i (wrap64 (size * 2))

/-- The arena with as many slots, the new ones nil. -/
def resize (a : Arena) (size : Nat) : Arena :=
  { a with slots := a.slots.take size ++ Array.replicate (size - a.slots.size) .nil }

/-- Growth by the loop. -/
def grow? (a : Arena) (i : Nat) : Option (Except Fault Unit × Arena) :=
  if i < a.slots.size then some (.ok (), a)
  else if a.limit ≤ i then some (.error .stackOverflow, a)
  else (double? 64 i (max a.slots.size 1)).map fun size => (.ok (), a.resize (min size a.limit))

/-- Growth for an index, and then a change of consecutive slots, which have to be there. -/
def growThen? (a : Arena) (i start stop : Nat) (change : Array Value → Array Value) :
    Option (Except Fault Unit × Arena) :=
  (a.grow? i).bind fun
    | (.ok (), a) =>
      if start ≤ stop && stop ≤ a.slots.size then some (.ok (), { a with slots := change a.slots }) else none
    | (.error f, a) => some (.error f, a)

namespace Op

/-- What an operation comes to, and the arena it leaves. -/
def run? : Op → Arena → Option (Except Fault Unit × Arena)
  | .put i v, a => a.growThen? i i (i + 1) (·.setIfInBounds i v)
  | .grow i, a => a.grow? i
  | .putRange start vs, a =>
    if vs.isEmpty then some (.ok (), a)
    else
      a.growThen? (wrap64 (start + vs.length + (UInt64.size - 1))) start (wrap64 (start + vs.length))
        (putAll · start vs)
  | .clearRange start stop, a =>
    if stop ≤ start then some (.ok (), a)
    else a.growThen? (stop - 1) start stop (wipe · start (stop - start))

/-- Operations one after the other, whatever each comes to. -/
def runs? : List Op → Arena → Option (List (Except Fault Unit) × Arena)
  | [], a => some ([], a)
  | op :: ops, a => (op.run? a).bind fun (r, a) => (runs? ops a).map fun (rs, a) => (r :: rs, a)

end Op

end Arena
end RegisterMachine
