import RegisterMachine.Proofs.CallSites
import RegisterMachine.Proofs.Yields

/-! Placing values. Results and extra arguments are written from a slot on, as many as are wanted, and nothing
else changes; a call finds the function behind its callee, and hands over what is in the slots behind. -/
namespace RegisterMachine

open Machine Exec

namespace Arena

theorem readRange_append (a : Arena) (start k n : Nat) :
    a.readRange start (k + n) = a.readRange start k ++ a.readRange (start + k) n := by
  rw [readRange, readRange, readRange, ← List.map_append, List.range'_append_1]

end Arena

def cutTo (wanted : Option Nat) (vs : List Value) : List Value :=
  match wanted with
  | some n => adjust vs n
  | none => vs

/-- Values are in the slots from one on, and up to the top if all were wanted. Nothing else has changed. -/
structure Placed (slot : Nat) (wanted : Option Nat) (vs : List Value) (m m' : Machine) : Prop where
  values : m'.arena.readRange slot (cutTo wanted vs).length = cutTo wanted vs
  others : ∀ j, j < slot ∨ slot + (cutTo wanted vs).length ≤ j → m'.arena.get j = m.arena.get j
  top : wanted = none → m'.fiber.top = slot + vs.length
  only : m' = { m with
    fiber := { m.fiber with top := m'.fiber.top }
    heap := { m.heap with arenas := m'.heap.arenas } }

namespace Placed

variable {slot : Nat} {wanted : Option Nat} {vs : List Value} {m m' : Machine}

theorem of_fits (top : Nat) (hfit : (Arena.Op.putRange slot (cutTo wanted vs)).fits m.arena)
    (htop : wanted = none → top = slot + vs.length) :
    Placed slot wanted vs m ((m.modifyArena (·.putRange slot (cutTo wanted vs))).setTop top) := by
  have harena : ((m.modifyArena (·.putRange slot (cutTo wanted vs))).setTop top).arena =
      m.arena.putRange slot (cutTo wanted vs) := by
    have hput : (m.modifyArena (Arena.Op.putRange slot (cutTo wanted vs)).apply).arena = _ := arena_modifyArena hfit
    exact hput
  refine ⟨?_, fun j hj => ?_, htop, rfl⟩
  · rw [harena]
    exact Arena.readRange_putRange hfit
  · rw [harena, Arena.get_putRange hfit]
    split
    · rw [List.getD_eq_getElem?_getD, List.getElem?_eq_none (by omega)]
      rfl
    · rfl

theorem frame? (h : Placed slot wanted vs m m') : m'.frame? = m.frame? := by
  rw [h.only]
  rfl

theorem callDepth (h : Placed slot wanted vs m m') : m'.callDepth = m.callDepth := by
  rw [h.only]
  rfl

theorem readRange_top (h : Placed slot none vs m m') {start : Nat} (hs : start ≤ slot) :
    m'.arena.readRange start (listCount m' 0 start) = m'.arena.readRange start (slot - start) ++ vs := by
  have hcount : listCount m' 0 start = (slot - start) + vs.length := by
    rw [listCount, if_pos rfl, h.top rfl]
    omega
  have hslot : start + (slot - start) = slot := by omega
  rw [hcount, Arena.readRange_append, hslot]
  exact congrArg _ h.values

end Placed

namespace Exec

/-- The top when results were placed. -/
def topAfter (slot : Nat) (wanted : Option Nat) (vs : List Value) (m : Machine) : Nat :=
  match wanted with
  | some n =>
    match m.frame? with
    | some f => f.top
    | none => slot + n
  | none => slot + vs.length

theorem placeResults_eq (slot : Nat) (wanted : Option Nat) (vs : List Value) :
    placeResults slot wanted vs = (do
      write (.putRange slot (cutTo wanted vs))
      modify fun m => m.setTop (topAfter slot wanted vs m)) := by
  cases wanted <;> rfl

/-- Results are placed, unless there is no room for them. -/
theorem placeResults_cases (slot : Nat) (wanted : Option Nat) (vs : List Value) (m : Machine) :
    (¬m.arena.admitsRange slot (cutTo wanted vs).length ∧ placeResults slot wanted vs m = .raise .stackOverflow m) ∨
      m.arena.admitsRange slot (cutTo wanted vs).length ∧
        ∃ m', placeResults slot wanted vs m = .ret () m' ∧ Placed slot wanted vs m m' := by
  rw [placeResults_eq, bind_eq, write]
  split
  · rename_i hfit
    refine .inr ⟨hfit, _, rfl, .of_fits _ hfit fun hw => ?_⟩
    simp only [topAfter, hw]
  · rename_i hfull
    exact .inl ⟨hfull, rfl⟩

theorem varargs_cases {m : Machine} {f : Frame} (hf : m.frame? = some f) (w : Word) :
    let wanted := if w.b = 0 then none else some (w.b.toNat - 1)
    (¬m.arena.admitsRange (f.base + w.a.toNat) (cutTo wanted f.varargs).length ∧
      Instruction.varargs w m = .raise .stackOverflow m) ∨
    m.arena.admitsRange (f.base + w.a.toNat) (cutTo wanted f.varargs).length ∧
      ∃ m', Instruction.varargs w m = .ret () m' ∧ Placed (f.base + w.a.toNat) wanted f.varargs m m' := by
  have hstart : Instruction.varargs w m = (if w.b = 0 then do
      write (.putRange (f.base + w.a.toNat) f.varargs)
      setTop (f.base + w.a.toNat + f.varargs.length)
    else write (.putRange (f.base + w.a.toNat) (adjust f.varargs (w.b.toNat - 1)))) m := by
    unfold Instruction.varargs
    simp only [bind_eq, base, read, frame, hf, Step.bind, base_eq hf]
    rfl
  rw [hstart]
  split
  · rw [bind_eq, write]
    split
    · rename_i hfit
      exact .inr ⟨hfit, _, rfl, .of_fits _ hfit fun _ => rfl⟩
    · rename_i hfull
      exact .inl ⟨hfull, rfl⟩
  · rw [write]
    split
    · rename_i hfit
      exact .inr ⟨hfit, _, rfl, .of_fits m.fiber.top hfit (by simp)⟩
    · rename_i hfull
      exact .inl ⟨hfull, rfl⟩

end Exec

/-- The function that a value comes to as a callee, given the handler of each value, and the values that are
passed in front of the arguments: those whose handlers are taken on the way, the last one first. -/
inductive Value.Reaches (handler : Value → Value) : Value → List Value → Callee → Prop
  | function {v : Value} {callee : Callee} : v.callee? = some callee → Reaches handler v [] callee
  | handler {v : Value} {objects : List Value} {callee : Callee} : v.callee? = none → handler v ≠ .nil →
      Reaches handler (handler v) objects callee → Reaches handler v (objects ++ [v]) callee

def Heap.callHandler (h : Heap) (v : Value) : Value := h.metamethod v "__call"

namespace Exec

variable {m m' : Machine}

def OnlyArenas (m m' : Machine) : Prop := m' = { m with heap := { m.heap with arenas := m'.heap.arenas } }

theorem OnlyArenas.trans {m₁ m₂ m₃ : Machine} (h : OnlyArenas m₁ m₂) (h' : OnlyArenas m₂ m₃) :
    OnlyArenas m₁ m₃ := by
  unfold OnlyArenas at h h' ⊢
  rw [h', h]

theorem write_cases (op : Arena.Op) (m : Machine) :
    (¬op.fits m.arena ∧ write op m = .raise .stackOverflow m) ∨
      ∃ m', write op m = .ret () m' ∧ op.fits m.arena ∧ m'.arena = op.apply m.arena ∧ OnlyArenas m m' := by
  unfold write
  split
  · rename_i hfit
    exact .inr ⟨_, rfl, hfit, arena_modifyArena hfit, rfl⟩
  · rename_i hfit
    exact .inl ⟨hfit, rfl⟩

/-- A callee and its arguments are in the slots from one on, and only slots from there on have changed. -/
structure Laid (start : Nat) (v : Value) (args : List Value) (m m' : Machine) : Prop where
  callee : m'.arena.get start = v
  args : m'.arena.readRange (start + 1) args.length = args
  below : ∀ j, j < start → m'.arena.get j = m.arena.get j
  room : ∀ j, m'.arena.admits j = true ↔ m.arena.admits j = true
  only : OnlyArenas m m'

/-- There was no room for something that was to be written from a slot on, and the slots below have not changed. -/
def Overflows {α : Type} (start : Nat) (s : Step α) (m : Machine) : Prop :=
  ∃ m', s = .raise .stackOverflow m' ∧ ∀ j, j < start → m'.arena.get j = m.arena.get j

theorem Overflows.bind {α β : Type} {start : Nat} {s : Step α} (h : Overflows start s m)
    (k : α → Machine → Step β) : Overflows start (s.bind k) m := by
  obtain ⟨m', rfl, hbelow⟩ := h
  exact ⟨m', rfl, hbelow⟩

theorem Laid.trans {start : Nat} {v v' : Value} {args args' : List Value} {m₁ m₂ m₃ : Machine}
    (h : Laid start v args m₁ m₂) (h' : Laid start v' args' m₂ m₃) : Laid start v' args' m₁ m₃ where
  callee := h'.callee
  args := h'.args
  below j hj := (h'.below j hj).trans (h.below j hj)
  room j := (h'.room j).trans (h.room j)
  only := h.only.trans h'.only

theorem Laid.overflows {α : Type} {start : Nat} {v : Value} {args : List Value} {s : Step α}
    (h : Laid start v args m m') (hs : Overflows start s m') : Overflows start s m := by
  obtain ⟨m₁, hs, hbelow⟩ := hs
  exact ⟨m₁, hs, fun j hj => (hbelow j hj).trans (h.below j hj)⟩

/-- Writes a callee and its arguments. -/
def place (start : Nat) (v : Value) (args : List Value) : Exec Unit := do
  write (.put start v)
  write (.putRange (start + 1) args)

/-- That needs room up to the last argument. -/
theorem place_cases (start : Nat) (v : Value) (args : List Value) (m : Machine) :
    (¬m.arena.admits (start + args.length) ∧ Overflows start (place start v args m) m) ∨
      m.arena.admits (start + args.length) ∧ ∃ m', place start v args m = .ret () m' ∧ Laid start v args m m' := by
  unfold place
  obtain ⟨hfull, h₁⟩ | ⟨m₁, h₁, hfit₁, ha₁, ho₁⟩ := write_cases (.put start v) m
  · exact .inl ⟨fun h => hfull (Arena.admits_of_le h (by omega)), m, by rw [bind_eq, h₁]; rfl, fun _ _ => rfl⟩
  have hroom₁ (j : Nat) : m₁.arena.admits j ↔ m.arena.admits j := ha₁ ▸ Arena.admits_apply hfit₁ j
  have hbelow₁ (j : Nat) (hj : j < start) : m₁.arena.get j = m.arena.get j := by
    rw [ha₁]
    exact Arena.get_put_of_ne _ (Nat.ne_of_gt hj) v
  have hlast : start + 1 + args.length - 1 = start + args.length := by omega
  obtain ⟨hfull, h₂⟩ | ⟨m₂, h₂, hfit₂, ha₂, ho₂⟩ := write_cases (.putRange (start + 1) args) m₁
  · refine .inl ⟨fun h => hfull (Arena.admitsRange_iff.2 (.inr ?_)), m₁, by simp only [bind_eq, h₁, h₂, Step.bind],
      hbelow₁⟩
    rw [hlast]
    exact (hroom₁ _).2 h
  have hroom : m.arena.admits (start + args.length) := by
    obtain hnone | hfit := Arena.admitsRange_iff.1 hfit₂
    · rw [hnone]
      exact hfit₁
    · rw [hlast] at hfit
      exact (hroom₁ _).1 hfit
  have hget₂ (j : Nat) (hj : j < start + 1) : m₂.arena.get j = m₁.arena.get j := by
    rw [ha₂]
    exact (Arena.get_putRange hfit₂ j).trans (if_neg (by omega))
  refine .inr ⟨hroom, m₂, by simp only [bind_eq, h₁, h₂, Step.bind], ?_, ?_, fun j hj => ?_,
    fun j => (ha₂ ▸ Arena.admits_apply hfit₂ j).trans (hroom₁ j), ho₁.trans ho₂⟩
  · rw [hget₂ start (Nat.lt_succ_self start), ha₁]
    exact Arena.get_put hfit₁ v
  · rw [ha₂]
    exact Arena.readRange_putRange hfit₂
  · exact (hget₂ j (Nat.lt_succ_of_lt hj)).trans (hbelow₁ j hj)

/-- A handler takes the place of a value, which goes in front of the arguments. -/
def displace (start : Nat) (handler v : Value) (args : List Value) : Exec Unit := do
  write (.put start handler)
  write (.put (start + 1) v)
  write (.putRange (start + 2) args)

theorem displace_eq (start : Nat) (handler v : Value) (args : List Value) :
    displace start handler v args = (write (.put start handler) >>= fun _ => place (start + 1) v args) := rfl

/-- Putting a handler in front of a call needs room up to the last argument, which moves by one slot. -/
theorem displace_cases (start : Nat) (handler v : Value) (args : List Value) (m : Machine) :
    (¬m.arena.admits (start + 1 + args.length) ∧ Overflows start (displace start handler v args m) m) ∨
      m.arena.admits (start + 1 + args.length) ∧ ∃ m', displace start handler v args m = .ret () m' ∧
        Laid start handler (v :: args) m m' := by
  rw [displace_eq, bind_eq]
  obtain ⟨hfull, h₁⟩ | ⟨m₁, h₁, hfit₁, ha₁, ho₁⟩ := write_cases (.put start handler) m <;> rw [h₁]
  · exact .inl ⟨fun h => hfull (Arena.admits_of_le h (by omega)), m, rfl, fun _ _ => rfl⟩
  have hroom₁ (j : Nat) : m₁.arena.admits j ↔ m.arena.admits j := ha₁ ▸ Arena.admits_apply hfit₁ j
  have hbelow₁ (j : Nat) (hj : j < start) : m₁.arena.get j = m.arena.get j := by
    rw [ha₁]
    exact Arena.get_put_of_ne _ (Nat.ne_of_gt hj) handler
  obtain ⟨hfull, m₂, h₂, hbelow⟩ | ⟨hfit, m₂, h₂, laid⟩ := place_cases (start + 1) v args m₁
  · exact .inl ⟨fun h => hfull ((hroom₁ _).2 h), m₂, h₂,
      fun j hj => (hbelow j (Nat.lt_succ_of_lt hj)).trans (hbelow₁ j hj)⟩
  · refine .inr ⟨(hroom₁ _).1 hfit, m₂, h₂, ?_, ?_,
      fun j hj => (laid.below j (Nat.lt_succ_of_lt hj)).trans (hbelow₁ j hj),
      fun j => (laid.room j).trans (hroom₁ j), ho₁.trans laid.only⟩
    · rw [laid.below start (Nat.lt_succ_self start), ha₁]
      exact Arena.get_put hfit₁ handler
    · rw [List.length_cons, Nat.add_comm args.length 1, Arena.readRange_append, laid.args]
      exact congrArg (· :: args) laid.callee

theorem resolveAlong_handler {start : Nat} (links count : Nat) {v : Value} (hv : m.arena.get start = v)
    (hc : v.callee? = none) (hne : m.heap.callHandler v ≠ .nil) :
    resolveAlong (links + 1) start count m =
      (displace start (m.heap.callHandler v) v (m.arena.readRange (start + 1) count) >>= fun _ =>
        resolveAlong links start (count + 1)) m := by
  unfold Heap.callHandler at hne ⊢
  rw [resolveAlong, displace, bind_eq]
  simp only [slot, read, Step.bind, hv, hc, bind_assoc]
  obtain ⟨handler, hh⟩ : ∃ handler, m.heap.metamethod v "__call" = handler := ⟨_, rfl⟩
  have hread : Exec.read (fun m => m.heap.metamethod v "__call") m = .ret handler m :=
    congrArg (Step.ret · m) hh
  rw [hh] at hne ⊢
  rw [bind_eq, hread]
  cases handler <;> first | exact absurd rfl hne | rfl

/-- A function is what it stands for. -/
theorem resolveAlong_callee {start : Nat} (links count : Nat) {callee : Callee}
    (h : (m.arena.get start).callee? = some callee) :
    resolveAlong (links + 1) start count m = .ret (callee, count) m := by
  simp only [resolveAlong, bind_eq, slot, read, Step.bind, h]
  rfl

def RoomFor (r : Ref .closure) (slot : Nat) (m : Machine) : Prop :=
  m.callDepth < m.limits.maxCallDepth ∧
    m.arena.admits (slot + 1 + (m.heap.closure r).prototype.window.toNat) = true

theorem openWindow_cases (f : Frame) (count : Nat) (m : Machine) :
    (¬m.arena.admits f.top ∧ ∃ m', openWindow f count m = .raise .stackOverflow m') ∨
      ∃ m', openWindow f count m = .ret () m' := by
  obtain ⟨hfull, h₁⟩ | ⟨m₁, h₁, hfit₁, ha₁, -⟩ := write_cases (.grow f.top) m
  · refine .inl ⟨hfull, m, ?_⟩
    show (write (.grow f.top) >>= _ : Exec Unit) m = _
    rw [bind_eq, h₁]
    rfl
  obtain ⟨hfull, h₂⟩ | ⟨m₂, h₂, -⟩ :=
    write_cases (.clearRange (f.base + min count f.prototype.params.toNat) f.top) m₁
  · refine .inl ⟨fun h => hfull (Arena.admitsRange_iff.2 (Nat.eq_zero_or_pos _ |>.imp_right fun _ => ?_)), m₁, ?_⟩
    · rw [ha₁]
      exact (Arena.admits_apply hfit₁ _).2 (Arena.admits_of_le h (by omega))
    · show (write (.grow f.top) >>= fun _ => write (.clearRange _ f.top) >>= _ : Exec Unit) m = _
      simp only [bind_eq, h₁, h₂, Step.bind]
  · refine .inr ⟨m₂.setTop f.top, ?_⟩
    show (write (.grow f.top) >>= fun _ => write (.clearRange _ f.top) >>= _ : Exec Unit) m = _
    simp only [bind_eq, h₁, h₂, Step.bind]
    rfl

/-- A frame for a closure is opened on its arguments, unless there is no room for it. -/
theorem pushFrame_receives (r : Ref .closure) (slot count : Nat) (wanted : Option Nat) (m : Machine) :
    (¬RoomFor r slot m ∧ ∃ m', pushFrame r slot count wanted m = .raise .stackOverflow m') ∨
      ∃ m' f, pushFrame r slot count wanted m = .ret () m' ∧ m'.frame? = some f ∧
        f.closure = m.heap.closure r ∧ f.target = (slot, wanted) ∧
        f.Receives (m.arena.readRange (slot + 1) count) m.arena m'.arena := by
  have heq := pushFrame_eq r slot count wanted m
  split at heq
  · rename_i hdepth
    exact .inl ⟨fun h => Nat.not_lt.2 hdepth h.1, m, heq⟩
  · obtain ⟨hfull, m₁, h₁⟩ | ⟨m₁, h₁⟩ := openWindow_cases (newFrame m r slot count wanted) count m <;>
      rw [bind_eq, h₁] at heq
    · exact .inl ⟨fun h => hfull h.2, m₁, heq⟩
    · exact .inr ⟨_, newFrame m r slot count wanted, heq, rfl, rfl, rfl, receives_of_pushFrame heq⟩

variable {host : Host} {f : Frame} {w : Word}

structure Due (m : Machine) (f : Frame) (w : Word) : Prop where
  frame : m.frame? = some f
  word : f.word? = some w
  alive : m.isCancelled m.fiber.token = false

theorem Due.fetch_eq (h : Due m f w) : fetch m = .ret (some w) (m.modifyFrame Frame.skip) := by
  simp only [fetch, h.frame, h.word]

theorem Due.advance_eq (h : Due m f w) : advance host m = execute host w (m.modifyFrame Frame.skip) := by
  simp only [advance, bind_eq, read, Step.bind, h.alive, Bool.false_eq_true, if_false, h.fetch_eq]

theorem Due.frame?_skip (h : Due m f w) : (m.modifyFrame Frame.skip).frame? = some f.skip :=
  frame?_modifyFrame Frame.skip h.frame

/-- An instruction other than a return is all of its step. -/
theorem Due.step_eq (host : Host) (stop : Nat) {op : Opcode} (h : Due m f w) (hop : w.opcode? = some op)
    (hret : op ≠ .ret) :
    step host stop m = (op.run host w (m.modifyFrame Frame.skip)).bind fun _ m => .ret none m := by
  rw [Exec.step_eq, bind_eq, h.advance_eq]
  generalize hx : execute host w = x
  unfold execute at hx
  split at hx <;> subst hx
  · rename_i hnone
    rw [hop] at hnone
    cases hnone
  · rename_i hop'
    rw [hop] at hop'
    cases hop'
    exact absurd rfl hret
  · rename_i op' _ hop'
    rw [hop] at hop'
    cases hop'
    rw [bind_eq]
    exact Step.bind_assoc _ _ _

end Exec
end RegisterMachine
