import RegisterMachine.Machine.Basic

/-! Computations on a machine that may ask for calls, resumptions and closings. A step is the result
of a computation up to the first such question, and how it goes on from the answer; what answers is
left open. -/
namespace RegisterMachine

/-- What a computation may ask for. -/
inductive Query
  | call (f : Value) (args : List Value)
  | resume (co : Ref .coroutine) (args : List Value)
  | close (co : Ref .coroutine)
  deriving DecidableEq, Repr, Inhabited

/-- The results, and whether a resumed coroutine can be resumed again. -/
structure Reply where
  values : List Value := []
  isAlive : Bool := false
  deriving DecidableEq, Repr, Inhabited

inductive Step (α : Type) where
  | ret (a : α) (m : Machine)
  | raise (f : Fault) (m : Machine)
  | ask (q : Query) (m : Machine) (k : Except Fault Reply → Machine → Step α)

/-- What a run comes to; nothing when its time is not enough. -/
abbrev Outcome (α : Type) : Type := Option (Except Fault α × Machine)

namespace Outcome

variable {α β : Type}

/-- Goes on with a result. -/
@[inline] def andThen (x : Outcome α) (k : α → Machine → Outcome β) : Outcome β :=
  match x with
  | none => none
  | some (.error f, m) => some (.error f, m)
  | some (.ok a, m) => k a m

/-- Goes on with a result or a fault. -/
@[inline] def afterwards (x : Outcome α) (k : Except Fault α → Machine → Except Fault β × Machine) :
    Outcome β :=
  match x with
  | none => none
  | some (r, m) => some (k r m)

end Outcome

/-- What answers questions. -/
abbrev Server : Type := Query → Machine → Outcome Reply

namespace Step

variable {α β : Type}

/-- Goes on with a result. -/
def bind (s : Step α) (k : α → Machine → Step β) : Step β :=
  match s with
  | .ret a m => k a m
  | .raise f m => .raise f m
  | .ask q m k' => .ask q m fun r m => (k' r m).bind k

/-- Goes on with a result or a fault. -/
def handle (s : Step α) (k : Except Fault α → Machine → Step β) : Step β :=
  match s with
  | .ret a m => k (.ok a) m
  | .raise f m => k (.error f) m
  | .ask q m k' => .ask q m fun r m => (k' r m).handle k

def run (serve : Server) : Step α → Outcome α
  | .ret a m => some (.ok a, m)
  | .raise f m => some (.error f, m)
  | .ask q m k =>
    match serve q m with
    | none => none
    | some (r, m) => (k r m).run serve

@[simp] theorem bind_ret (s : Step α) : s.bind .ret = s := by
  induction s with
  | ret a m => rfl
  | raise f m => rfl
  | ask q m k ih => simp [bind, ih]

theorem bind_assoc {γ : Type} (s : Step α) (k : α → Machine → Step β) (l : β → Machine → Step γ) :
    (s.bind k).bind l = s.bind fun a m => (k a m).bind l := by
  induction s with
  | ret a m => rfl
  | raise f m => rfl
  | ask q m k' ih => simp [bind, ih]

theorem run_bind (serve : Server) (s : Step α) (k : α → Machine → Step β) :
    (s.bind k).run serve = (s.run serve).andThen fun a m => (k a m).run serve := by
  induction s with
  | ret a m => rfl
  | raise f m => rfl
  | ask q m k' ih =>
    simp only [bind, run]
    cases serve q m with
    | none => rfl
    | some p => exact ih p.1 p.2

theorem run_handle (serve : Server) (s : Step α) (k : Except Fault α → Machine → Step β) :
    (s.handle k).run serve = (s.run serve).bind fun p => (k p.1 p.2).run serve := by
  induction s with
  | ret a m => rfl
  | raise f m => rfl
  | ask q m k' ih =>
    simp only [handle, run]
    cases serve q m with
    | none => rfl
    | some p => exact ih p.1 p.2

end Step

def Exec (α : Type) : Type := Machine → Step α

namespace Exec

variable {α β : Type}

@[always_inline, inline] protected def pure (a : α) : Exec α := fun m => .ret a m

@[always_inline, inline] protected def bind (x : Exec α) (f : α → Exec β) : Exec β := fun m =>
  match x m with
  | .ret a m => f a m
  | .raise e m => .raise e m
  | .ask q m k => .ask q m fun r m => (k r m).bind f

instance : Monad Exec where
  pure := Exec.pure
  bind := Exec.bind

theorem bind_eq (x : Exec α) (f : α → Exec β) (m : Machine) : (x >>= f) m = (x m).bind f := by
  show Exec.bind x f m = (x m).bind f
  unfold Exec.bind
  cases x m <;> rfl

instance : LawfulMonad Exec := LawfulMonad.mk' Exec
  (by
    intro α x
    funext m
    show (x >>= fun a => pure a) m = x m
    rw [bind_eq]
    exact Step.bind_ret (x m))
  (by intro α β a f; rfl)
  (by
    intro α β γ x f g
    funext m
    rw [bind_eq, bind_eq, bind_eq]
    exact (Step.bind_assoc (x m) f g).trans
      (congrArg (Step.bind (x m)) (funext fun a => funext fun m => (bind_eq (f a) g m).symm)))

@[inline] def fail (f : Fault) : Exec α := fun m => .raise f m

@[inline] def failWith (c : Cause) : Exec α := fail (.runtime c)

@[always_inline, inline] def read (f : Machine → α) : Exec α := fun m => .ret (f m) m

@[always_inline, inline] def modify (f : Machine → Machine) : Exec Unit := fun m => .ret () (f m)

def attempt (x : Exec α) : Exec (Except Fault α) := fun m =>
  (x m).handle fun r m => .ret r m

def frame : Exec Frame := fun m =>
  match m.frame? with
  | some f => .ret f m
  | none => .raise (.runtime .noFrame) m

/-- Changes the innermost frame. -/
@[inline] def modifyFrame (g : Frame → Frame) : Exec Unit := fun m =>
  match m.frame? with
  | some _ => .ret () (m.modifyFrame g)
  | none => .raise (.runtime .noFrame) m

@[inline] def base : Exec Nat := read Machine.base

@[inline] def slot (i : Nat) : Exec Value := read fun m => m.arena.get i

def setSlot (i : Nat) (v : Value) : Exec Unit := fun m =>
  if m.arena.admits i then .ret () (m.modifyArena (·.put i v)) else .raise .stackOverflow m

def ensureSlot (i : Nat) : Exec Unit := fun m =>
  if m.arena.admits i then .ret () (m.modifyArena (·.grow i)) else .raise .stackOverflow m

@[inline] def readRange (start count : Nat) : Exec (List Value) :=
  read fun m => m.arena.readRange start count

/-- The values of a list are written from a slot of a frame on: the end is counted without a bound. -/
def writeRange (start : Nat) (vs : List Value) : Exec Unit := fun m =>
  if m.arena.admitsRange start vs.length then .ret () (m.modifyArena (·.putRange start vs))
  else .raise .stackOverflow m

def clearRange (start stop : Nat) : Exec Unit := fun m =>
  if m.arena.admitsRange start (stop - start) then .ret () (m.modifyArena (·.clearRange start stop))
  else .raise .stackOverflow m

@[inline] def setTop (top : Nat) : Exec Unit := modify (·.setTop top)

@[inline] def register (a : UInt8) : Exec Value := read fun m => m.arena.get (m.base + a.toNat)

@[inline] def setRegister (a : UInt8) (v : Value) : Exec Unit := do
  setSlot ((← base) + a.toNat) v

/-- A constant of the running closure. -/
def constant (n : Nat) : Exec Value := do
  match (← frame).prototype.constants[n]? with
  | some v => pure v
  | none => failWith (.badConstant n)

def operand : Operand → Exec Value
  | .register i => register i
  | .constant i => constant i.toNat

/-- A captured variable of the running closure. -/
def upvalue (n : Nat) : Exec (Ref .broker) := do
  match (← frame).closure.brokers[n]? with
  | some r => pure r
  | none => failWith (.badUpvalue n)

/-- Assigns to a captured variable, wherever it lives. -/
def setBroker (r : Ref .broker) (v : Value) : Exec Unit := fun m =>
  match m.heap.brokers.get? r with
  | some (.live arena slot) =>
    if (m.heap.arena arena).admits slot then
      .ret () (m.modifyHeap (·.modifyArena arena (·.put slot v)))
    else .raise .stackOverflow m
  | _ => .ret () (m.modifyHeap fun h =>
      { h with brokers := h.brokers.modify r fun _ => .closed v })

/-- The next code word. -/
def fetch : Exec (Option Word) := fun m =>
  match m.frame? with
  | none => .raise (.runtime .noFrame) m
  | some f =>
    match f.word? with
    | some w => .ret (some w) (m.modifyFrame Frame.skip)
    | none => .ret none m

/-- The raw word that belongs to the instruction. -/
def extraWord : Exec Word := do
  match ← fetch with
  | some w => pure w
  | none => failWith .missingWord

def jump (offset : Int) : Exec Unit := fun m =>
  match m.frame? with
  | none => .raise (.runtime .noFrame) m
  | some f =>
    match f.jump? offset with
    | some f => let pc := f.pc; .ret () (m.modifyFrame fun f => { f with pc })
    | none => .raise (.runtime .jumpOutOfRange) m

@[inline] def skipIf (b : Bool) : Exec Unit := if b then modifyFrame Frame.skip else pure ()

/-- Takes the innermost frame off. -/
def popFrame : Exec Frame := fun m =>
  match m.fiber.calls.pop? with
  | some (f, calls) => .ret f (m.modifyFiber fun fiber => { fiber with calls })
  | none => .raise (.runtime .noFrame) m

end Exec
end RegisterMachine
