import RegisterMachine.Exec

/-! Scripts: what a function outside the bytecode may do. A script looks at the machine, acts on it in
a few ways, and asks for calls, resumptions and closings; the frames and arenas are out of its reach. -/
namespace RegisterMachine

/-- The ways in which a script changes the machine; some give a value. -/
inductive Action
  | newTable
  | newNative (n : Native)
  | newCoroutine (entry : Callee)
  | newFile (name : String)
  | load (p : Prototype)
  | closeFile (r : Ref .file)
  | setField (r : Ref .table) (k : Key) (v : Value)
  | setTableMetatable (r : Ref .table) (metatable : Option (Ref .table))
  | setCoroutineMetatable (r : Ref .coroutine) (metatable : Option (Ref .table))
  | setStringMetatable (metatable : Option (Ref .table))
  | cancel (r : Ref .token)
  | print (line : String)
  | warn (text : String)
  | note (values : List Value)

namespace Action

def apply (m : Machine) : Action → Value × Machine
  | .newTable =>
    let (r, h) := m.heap.newTable {}
    (.table r, { m with heap := h })
  | .newNative n =>
    let (r, h) := m.heap.newNative n
    (.native r, { m with heap := h })
  | .newCoroutine entry =>
    let (r, m) := m.newCoroutine entry
    (.coroutine r, m)
  | .newFile name =>
    let (r, h) := m.heap.newFile { name }
    (.file r, { m with heap := h })
  | .load p => m.load p
  | .closeFile r =>
    (.nil, m.modifyHeap fun h =>
      { h with files := h.files.modify r fun f => { f with isClosed := true } })
  | .setField r k v => (.nil, m.modifyHeap (·.modifyTable r (·.setKey k v)))
  | .setTableMetatable r metatable =>
    (.nil, m.modifyHeap (·.modifyTable r fun t => { t with metatable }))
  | .setCoroutineMetatable r metatable =>
    (.nil, m.modifyHeap (·.modifyCoroutine r fun c => { c with metatable }))
  | .setStringMetatable metatable =>
    (.nil, m.modifyHeap fun h => { h with stringMetatable := metatable })
  | .cancel r => (.nil, m.modifyHeap fun h => { h with tokens := h.tokens.cancel r })
  | .print line => (.nil, { m with printed := m.printed.push line })
  | .warn text => (.nil, { m with warnings := m.warnings.push text })
  | .note values => (.nil, { m with notes := m.notes.push values })

end Action

inductive Script (α : Type) where
  | done (a : α)
  | fail (f : Fault)
  | look (k : Machine → Script α)
  | act (a : Action) (k : Value → Script α)
  | ask (q : Query) (k : Except Fault Reply → Script α)

abbrev Host := String → List Value → Script (List Value)

namespace Script

variable {α β : Type}

protected def bind (s : Script α) (f : α → Script β) : Script β :=
  match s with
  | .done a => f a
  | .fail e => .fail e
  | .look k => .look fun m => (k m).bind f
  | .act a k => .act a fun v => (k v).bind f
  | .ask q k => .ask q fun r => (k r).bind f

instance : Monad Script where
  pure := Script.done
  bind := Script.bind

theorem bind_done (s : Script α) : s.bind .done = s := by
  induction s with
  | done a => rfl
  | fail f => rfl
  | look k ih => simp [Script.bind, ih]
  | act a k ih => simp [Script.bind, ih]
  | ask q k ih => simp [Script.bind, ih]

theorem bind_assoc {γ : Type} (s : Script α) (f : α → Script β) (g : β → Script γ) :
    (s.bind f).bind g = s.bind fun a => (f a).bind g := by
  induction s with
  | done a => rfl
  | fail f => rfl
  | look k ih => simp [Script.bind, ih]
  | act a k ih => simp [Script.bind, ih]
  | ask q k ih => simp [Script.bind, ih]

instance : LawfulMonad Script := LawfulMonad.mk' Script
  (by intro α s; exact bind_done s)
  (by intro α β a f; rfl)
  (by intro α β γ s f g; exact bind_assoc s f g)

def failWith (c : Cause) : Script α := .fail (.runtime c)

def read (f : Machine → α) : Script α := .look fun m => .done (f m)

def perform (a : Action) : Script Unit := .act a fun _ => .done ()

def make (a : Action) : Script Value := .act a .done

/-- Answers a question, or fails as the answer does. -/
def question (q : Query) : Script Reply :=
  .ask q fun
    | .ok r => .done r
    | .error f => .fail f

def call (f : Value) (args : List Value) : Script (List Value) := do
  return (← question (.call f args)).values

/-- The first result of a call, nil when there is none. -/
def callOne (f : Value) (args : List Value) : Script Value := do
  return (← call f args).headD .nil

def tryCall (f : Value) (args : List Value) : Script (Except Fault (List Value)) :=
  .ask (.call f args) fun
    | .ok r => .done (.ok r.values)
    | .error e => .done (.error e)

def metamethod (v : Value) (event : String) : Script Value := read fun m => m.heap.metamethod v event

/-- A coroutine that will run a function. -/
def coroutineOf (v : Value) : Script Value :=
  match v.callee? with
  | some entry => make (.newCoroutine entry)
  | none => .fail (.typeError "create a coroutine from" v)

def exec : Script α → Exec α
  | .done a, m => .ret a m
  | .fail f, m => .raise f m
  | .look k, m => (k m).exec m
  | .act a k, m =>
    let (v, m) := a.apply m
    (k v).exec m
  | .ask q k, m => .ask q m fun r m => (k r).exec m

theorem exec_bind (s : Script α) (f : α → Script β) (m : Machine) :
    (s.bind f).exec m = (s.exec m).bind fun a m => (f a).exec m := by
  induction s generalizing m with
  | done a => rfl
  | fail e => rfl
  | look k ih => simp [Script.bind, exec, ih]
  | act a k ih => simp [Script.bind, exec, ih]
  | ask q k ih => simp [Script.bind, exec, ih, Step.bind]

end Script
end RegisterMachine
