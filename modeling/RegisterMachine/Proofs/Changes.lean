import Mathlib.Logic.Relation
import RegisterMachine.Arena.Operation
import RegisterMachine.Run

/-! The elementary changes of a machine. Whatever a computation does between two of its questions is a
sequence of them: `Quiet` changes leave all frames as they are, the others act on the innermost one. -/
namespace RegisterMachine

/-- Yields are told apart from all other faults: they leave the frames for the resumption. -/
def Fault.isYield : Fault → Bool
  | .interrupt (.yield _) => true
  | _ => false

/-- A fault as it arises: it has no location yet, and is no transfer of control. -/
def Fault.isBare : Fault → Bool
  | .located _ _ _ => false
  | .interrupt _ => false
  | _ => true

theorem Fault.isYield_of_isBare {f : Fault} (h : f.isBare = true) : f.isYield = false := by
  cases f with
  | interrupt i => cases h
  | _ => rfl

theorem Fault.isYield_of_ne {f : Fault} (h : ∀ vs, f ≠ .interrupt (.yield vs)) : f.isYield = false := by
  unfold isYield
  split
  · rename_i vs
    exact absurd rfl (h vs)
  · rfl

theorem Fault.yield_or (f : Fault) : (∃ vs, f = .interrupt (.yield vs)) ∨ f.isYield = false := by
  by_cases h : ∃ vs, f = .interrupt (.yield vs)
  · exact .inl h
  · exact .inr (isYield_of_ne fun vs hf => h ⟨vs, hf⟩)

/-- What loading does to a heap: closures come, with captured variables that are closed. -/
structure Loaded (h h' : Heap) : Prop where
  others : h' = { h with brokers := h'.brokers, closures := h'.closures }
  size : h.brokers.items.size ≤ h'.brokers.items.size
  old : ∀ r, r.index < h.brokers.items.size → h'.brokers.get? r = h.brokers.get? r
  new : ∀ r a i, h.brokers.items.size ≤ r.index → h'.brokers.get? r ≠ some (.live a i)

namespace Loaded

variable {h h' : Heap}

theorem coroutines (hl : Loaded h h') : h'.coroutines = h.coroutines := by rw [hl.others]

theorem arenas (hl : Loaded h h') : h'.arenas = h.arenas := by rw [hl.others]

theorem tokens (hl : Loaded h h') : h'.tokens = h.tokens := by rw [hl.others]

theorem tables (hl : Loaded h h') : h'.tables = h.tables := by rw [hl.others]

theorem refl (h : Heap) : Loaded h h := by
  refine ⟨rfl, Nat.le_refl _, fun _ _ => rfl, fun r a i hr => ?_⟩
  rw [Store.get?, Array.getElem?_eq_none hr]
  intro h
  cases h

theorem trans {h₁ h₂ h₃ : Heap} (h : Loaded h₁ h₂) (h' : Loaded h₂ h₃) : Loaded h₁ h₃ := by
  refine ⟨?_, Nat.le_trans h.size h'.size, fun r hr => ?_, fun r a i hr => ?_⟩
  · rw [h'.others, h.others]
  · rw [h'.old r (Nat.lt_of_lt_of_le hr h.size), h.old r hr]
  · by_cases hr' : r.index < h₂.brokers.items.size
    · rw [h'.old r hr']
      exact h.new r a i hr
    · exact h'.new r a i (Nat.le_of_not_lt hr')

theorem newBroker (h : Heap) (v : Value) : Loaded h (h.newBroker (.closed v)).2 := by
  have hget : ∀ r, (h.newBroker (.closed v)).2.brokers.get? r =
      if r.index = h.brokers.items.size then some (.closed v) else h.brokers.get? r := fun r =>
    Array.getElem?_push
  refine ⟨rfl, ?_, fun r hr => ?_, fun r a i hr => ?_⟩
  · show _ ≤ (h.brokers.items.push _).size
    rw [Array.size_push]
    exact Nat.le_succ _
  · rw [hget, if_neg (Nat.ne_of_lt hr)]
  · rw [hget]
    split
    · intro h
      cases h
    · exact (refl h).new r a i hr

theorem load (m : Machine) (p : Prototype) : Loaded m.heap (m.load p).2.heap := by
  have hfold : ∀ {g : Array (Ref .broker) × Heap → Nat → Array (Ref .broker) × Heap},
      (∀ s n, Loaded s.2 (g s n).2) → ∀ (ns : List Nat) s, Loaded s.2 (ns.foldl g s).2 := by
    intro g hg ns
    induction ns with
    | nil => exact fun s => refl s.2
    | cons n ns ih => exact fun s => (hg s n).trans (ih (g s n))
  have hclosure : ∀ (h : Heap) (c : Closure), Loaded h (h.newClosure c).2 := by
    intro h c
    exact ⟨rfl, Nat.le_refl _, fun _ _ => rfl, (refl h).new⟩
  exact (hfold (fun s n => newBroker s.2 _) _ (#[], m.heap)).trans (hclosure _ _)

end Loaded

namespace Machine

/-- Changes that leave all frames as they are. -/
inductive Quiet : Machine → Machine → Prop
  | write {m : Machine} (op : Arena.Op) : op.fits m.arena → Quiet m (m.modifyArena op.apply)
  | top {m : Machine} (top : Nat) : Quiet m (m.setTop top)
  /-- Assigning to a live captured variable writes to the arena it lives in. -/
  | assign {m : Machine} {r : Ref .broker} {a : Ref .arena} {slot : Nat} (v : Value) :
      m.heap.brokers.get? r = some (.live a slot) → (m.heap.arena a).admits slot →
      Quiet m (m.modifyHeap (·.modifyArena a (·.put slot v)))
  | assignClosed {m : Machine} {r : Ref .broker} (v : Value) :
      (∀ a slot, m.heap.brokers.get? r ≠ some (.live a slot)) →
      Quiet m (m.modifyHeap fun h => { h with brokers := h.brokers.modify r fun _ => .closed v })
  | setFrom {m : Machine} (r : Ref .table) (first : Nat) (vs : List Value) :
      Quiet m (m.modifyHeap (·.modifyTable r (·.setFrom first vs)))
  | closure {m : Machine} (c : Closure) : Quiet m { m with heap := (m.heap.newClosure c).2 }
  | act {m : Machine} (a : Action) : Quiet m (a.apply m).2
  | snapshot {m : Machine} (s : Snapshot) : Quiet m { m with snapshots := m.snapshots.push s }

theorem Quiet.same {m m' : Machine} (h : Quiet m m') :
    m'.fiber = { m.fiber with top := m'.fiber.top } ∧ m'.waiting = m.waiting ∧
      m'.active = m.active ∧ m'.nativeDepth = m.nativeDepth ∧ m'.limits = m.limits := by
  cases h with
  | act a => cases a <;> exact ⟨rfl, rfl, rfl, rfl, rfl⟩
  | _ => exact ⟨rfl, rfl, rfl, rfl, rfl⟩

theorem Quiet.calls_eq {m m' : Machine} (h : Quiet m m') : m'.fiber.calls = m.fiber.calls := by
  rw [h.same.1]

theorem Quiet.callDepth_eq {m m' : Machine} (h : Quiet m m') : m'.callDepth = m.callDepth := by
  simp only [callDepth, h.calls_eq]

theorem Quiet.same_of_path {m m' : Machine} (h : Relation.ReflTransGen Quiet m m') :
    m'.callDepth = m.callDepth ∧ m'.limits = m.limits := by
  induction h with
  | refl => exact ⟨rfl, rfl⟩
  | tail _ hq ih => exact ⟨hq.callDepth_eq.trans ih.1, hq.same.2.2.2.2.trans ih.2⟩

def openBroker (m : Machine) (slot : Nat) : Machine :=
  let (r, h) := m.heap.newBroker (.live m.fiber.arena slot)
  ({ m with heap := h } : Machine).modifyFrame (·.addBroker slot r)

/-- The machine after the innermost frame gave up what it holds open at or above a slot. -/
def part (m : Machine) (f : Frame) (start : Nat) : Machine :=
  (m.modifyFrame fun _ => ((f.detachBrokers start).2.takeMarks start).2).modifyHeap
    (·.closeBrokers (f.detachBrokers start).1)

inductive Touch : Machine → Machine → Prop
  | goto {m : Machine} (g : Frame → Nat) : Touch m (m.modifyFrame fun f => { f with pc := g f })
  | mark {m : Machine} (slot : Nat) : Touch m (m.modifyFrame (·.mark slot))
  | capture {m : Machine} {f : Frame} {slot : Nat} :
      m.frame? = some f → f.broker? slot = none → Touch m (m.openBroker slot)
  | part {m : Machine} {f : Frame} (start : Nat) : m.frame? = some f → Touch m (m.part f start)

def enterFrame (m : Machine) (f : Frame) : Machine :=
  m.modifyFiber fun fiber => { fiber with calls := fiber.calls.push f }

/-- A new frame holds nothing open, and there is room for it. -/
inductive Enter : Machine → Machine → Prop
  | intro {m : Machine} (f : Frame) : f.live = [] → f.marks = #[] →
      m.callDepth < m.limits.maxCallDepth → Enter m (m.enterFrame f)

/-- The machine with the frames left after its innermost one, whose brokers are closed. -/
def dropFrame (m : Machine) (f : Frame) (calls : CallStack) : Machine :=
  (m.modifyFiber fun fiber => { fiber with calls }).modifyHeap (·.closeBrokers (f.live.map Prod.snd))

/-- The innermost frame goes, and all its brokers are closed. -/
inductive Drop : Machine → Machine → Prop
  | intro {m : Machine} {f : Frame} {calls : CallStack} : m.fiber.calls.pop? = some (f, calls) →
      Drop m (m.dropFrame f calls)

/-- The machine whose running fiber waits for values. -/
def await (m : Machine) (p : Pending) : Machine :=
  m.modifyFiber fun f => { f with pending := some p }

/-- What a computation may do between two questions. -/
inductive Change : Machine → Machine → Prop
  | quiet {m m' : Machine} : Quiet m m' → Change m m'
  | touch {m m' : Machine} : Touch m m' → Change m m'
  | enter {m m' : Machine} : Enter m m' → Change m m'
  | drop {m m' : Machine} : Drop m m' → Change m m'
  | await {m : Machine} (p : Pending) : m.fiber.isYieldable → Change m (m.await p)

abbrev Changes : Machine → Machine → Prop := Relation.ReflTransGen Change

end Machine
end RegisterMachine
