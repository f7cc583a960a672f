import RegisterMachine.Proofs.Contracts

/-! What holds of every instruction. A property of computations that is kept by sequencing and holds of
the primitives holds of all instructions; the instructions are gone through here once for all such
properties, and for those that hold only of writing at or above a given slot. -/
namespace RegisterMachine
namespace Exec

/-- A property of computations that holds of the primitives that leave the frames alone, and is kept by
sequencing. -/
structure Closed (P : (α : Type) → Exec α → Prop) : Prop where
  pure {α : Type} (a : α) : P α (pure a)
  bind {α β : Type} {x : Exec α} {f : α → Exec β} : P α x → (∀ a, P β (f a)) → P β (x >>= f)
  fail {α : Type} {f : Fault} : f.isBare = true → P α (fail f)
  read {α : Type} (g : Machine → α) : P α (read g)
  frame : P Frame frame
  setSlot (i : Nat) (v : Value) : P Unit (setSlot i v)
  writeRange (start : Nat) (vs : List Value) : P Unit (writeRange start vs)
  clearRange (start stop : Nat) : P Unit (clearRange start stop)
  modifyTop (g : Machine → Nat) : P Unit (modify fun m => m.setTop (g m))
  setFrom (r : Ref .table) (first : Nat) (vs : List Value) :
    P Unit (modify (·.modifyHeap (·.modifyTable r (·.setFrom first vs))))
  newClosure (c : Closure) : P Value fun m =>
    let (r, h) := m.heap.newClosure c
    .ret (.closure r) { m with heap := h }
  script {α : Type} {s : Script α} : s.Plain → P α s.exec

/-- A property that holds moreover of what instructions do with the innermost frame, and of calls. -/
structure ClosedInFrame (host : Host) (P : (α : Type) → Exec α → Prop) : Prop extends Closed P where
  setBroker (r : Ref .broker) (v : Value) : P Unit (setBroker r v)
  fetch : P (Option Word) fetch
  skip : P Unit (modifyFrame Frame.skip)
  jump (offset : Int) : P Unit (jump offset)
  mark (slot : Nat) : P Unit (modifyFrame (·.mark slot))
  capture (slot : Nat) : P (Ref .broker) (capture slot)
  closeFrom (start : Nat) : P Unit (closeFrom start)
  callAt (start count : Nat) (wanted : Option Nat) : P Unit (callAt host start count wanted)
  tailCall (r : Ref .closure) (start count : Nat) : P Unit (tailCall r start count)

structure ClosedAbove (low : Nat) (P : (α : Type) → Exec α → Prop) : Prop where
  pure {α : Type} (a : α) : P α (pure a)
  bind {α β : Type} {x : Exec α} {f : α → Exec β} : P α x → (∀ a, P β (f a)) → P β (x >>= f)
  fail {α : Type} {f : Fault} : f.isBare = true → P α (fail f)
  read {α : Type} (g : Machine → α) : P α (read g)
  setSlot {i : Nat} (v : Value) : low ≤ i → P Unit (setSlot i v)
  writeRange {start : Nat} (vs : List Value) : low ≤ start → P Unit (writeRange start vs)
  clearRange {start : Nat} (stop : Nat) : low ≤ start → P Unit (clearRange start stop)
  setTop {top : Nat} : low ≤ top → P Unit (setTop top)
  setFrom (r : Ref .table) (first : Nat) (vs : List Value) :
    P Unit (modify (·.modifyHeap (·.modifyTable r (·.setFrom first vs))))
  newClosure (c : Closure) : P Value fun m =>
    let (r, h) := m.heap.newClosure c
    .ret (.closure r) { m with heap := h }
  script {α : Type} {s : Script α} : s.Plain → P α s.exec

/-- A property that holds moreover of what instructions do with the window of the innermost frame, which is
at or above the slot. -/
structure ClosedInWindow (low : Nat) (P : (α : Type) → Exec α → Prop) : Prop extends ClosedAbove low P where
  base {β : Type} {k : Nat → Exec β} : (∀ n, low ≤ n → P β (k n)) → P β (base >>= k)
  frame {β : Type} {k : Frame → Exec β} : (∀ f, low ≤ f.base → P β (k f)) → P β (frame >>= k)
  /-- Bringing the top back to the end of the window. -/
  closeList (other : Nat) : P Unit (modify fun m => m.setTop (match m.frame? with
    | some f => f.top
    | none => other))
  capture {slot : Nat} : low ≤ slot → P (Ref .broker) (capture slot)

/-- A property that holds moreover of moving in the code of the innermost frame. -/
structure ClosedWithin (low : Nat) (P : (α : Type) → Exec α → Prop) : Prop extends ClosedInWindow low P where
  fetch : P (Option Word) fetch
  skip : P Unit (modifyFrame Frame.skip)
  jump (offset : Int) : P Unit (jump offset)

/-- A property that holds moreover of calls. -/
structure ClosedInside (host : Host) (low : Nat) (P : (α : Type) → Exec α → Prop) : Prop
    extends ClosedWithin low P where
  callAt {start : Nat} (count : Nat) (wanted : Option Nat) : low ≤ start →
    P Unit (callAt host start count wanted)

namespace ClosedAbove

variable {low : Nat} {P : (α : Type) → Exec α → Prop} (h : ClosedAbove low P)

include h

theorem weaken {Q : (α : Type) → Exec α → Prop} (hq : ∀ {α : Type} {x : Exec α}, P α x → Q α x)
    (hb : ∀ {α β : Type} {x : Exec α} {f : α → Exec β}, Q α x → (∀ a, Q β (f a)) → Q β (x >>= f)) :
    ClosedAbove low Q where
  pure a := hq (h.pure a)
  bind := hb
  fail hf := hq (h.fail hf)
  read g := hq (h.read g)
  setSlot v hs := hq (h.setSlot v hs)
  writeRange vs hs := hq (h.writeRange vs hs)
  clearRange stop hs := hq (h.clearRange stop hs)
  setTop ht := hq (h.setTop ht)
  setFrom r first vs := hq (h.setFrom r first vs)
  newClosure c := hq (h.newClosure c)
  script hs := hq (h.script hs)

theorem failWith {α : Type} (c : Cause) : P α (Exec.failWith c) := h.fail rfl

theorem resolveAlong {start : Nat} (hs : low ≤ start) (links count : Nat) :
    P (Callee × Nat) (Exec.resolveAlong links start count) := by
  induction links generalizing count with
  | zero => exact h.failWith _
  | succ links ih =>
    refine h.bind (h.read _) fun v => ?_
    split
    · exact h.pure _
    · refine h.bind (h.read _) fun handler => ?_
      split
      · exact h.fail rfl
      · refine h.bind (h.read _) fun args => ?_
        refine h.bind (h.setSlot _ hs) fun _ => ?_
        refine h.bind (h.setSlot _ (by omega)) fun _ => ?_
        exact h.bind (h.writeRange _ (by omega)) fun _ => ih _

end ClosedAbove

namespace Closed

variable {P : (α : Type) → Exec α → Prop} (h : Closed P)

include h

/-- What follows from such a property, and is kept by sequencing too, is one. -/
theorem weaken {Q : (α : Type) → Exec α → Prop} (hq : ∀ {α : Type} {x : Exec α}, P α x → Q α x)
    (hb : ∀ {α β : Type} {x : Exec α} {f : α → Exec β}, Q α x → (∀ a, Q β (f a)) → Q β (x >>= f)) :
    Closed Q where
  pure a := hq (h.pure a)
  bind := hb
  fail hf := hq (h.fail hf)
  read g := hq (h.read g)
  frame := hq h.frame
  setSlot i v := hq (h.setSlot i v)
  writeRange start vs := hq (h.writeRange start vs)
  clearRange start stop := hq (h.clearRange start stop)
  modifyTop g := hq (h.modifyTop g)
  setFrom r first vs := hq (h.setFrom r first vs)
  newClosure c := hq (h.newClosure c)
  script hs := hq (h.script hs)

theorem failWith {α : Type} (c : Cause) : P α (Exec.failWith c) := h.fail rfl

theorem setTop (top : Nat) : P Unit (Exec.setTop top) := h.modifyTop fun _ => top

theorem above (low : Nat) : ClosedAbove low P where
  pure := h.pure
  bind := h.bind
  fail := h.fail
  read := h.read
  setSlot v _ := h.setSlot _ v
  writeRange vs _ := h.writeRange _ vs
  clearRange stop _ := h.clearRange _ stop
  setTop _ := h.setTop _
  setFrom := h.setFrom
  newClosure := h.newClosure
  script := h.script

theorem resolveAlong (links start count : Nat) :
    P (Callee × Nat) (Exec.resolveAlong links start count) :=
  (h.above 0).resolveAlong (Nat.zero_le _) _ _

theorem placeResults (start : Nat) (wanted : Option Nat) (vs : List Value) :
    P Unit (Exec.placeResults start wanted vs) := by
  cases wanted with
  | some n => exact h.bind (h.writeRange _ _) fun _ => h.modifyTop _
  | none => exact h.bind (h.writeRange _ _) fun _ => h.setTop _

end Closed

theorem ClosedInFrame.inside {host : Host} {P : (α : Type) → Exec α → Prop} (h : ClosedInFrame host P) :
    ClosedInside host 0 P where
  toClosedAbove := h.above 0
  base hk := h.bind (h.read _) fun n => hk n (Nat.zero_le _)
  frame hk := h.bind h.frame fun f => hk f (Nat.zero_le _)
  closeList _ := h.modifyTop _
  fetch := h.fetch
  skip := h.skip
  jump := h.jump
  capture _ := h.capture _
  callAt count wanted _ := h.callAt _ count wanted

namespace ClosedInWindow

variable {low : Nat} {P : (α : Type) → Exec α → Prop} (h : ClosedInWindow low P)

include h

theorem setRegister (a : UInt8) (v : Value) : P Unit (Exec.setRegister a v) :=
  h.base fun _ hn => h.setSlot _ (by omega)

theorem constant (n : Nat) : P Value (Exec.constant n) := by
  refine h.frame fun f _ => ?_
  split
  · exact h.pure _
  · exact h.failWith _

theorem operand (o : Operand) : P Value (Exec.operand o) := by
  cases o with
  | register i => exact h.read _
  | constant i => exact h.constant _

theorem upvalue (n : Nat) : P (Ref .broker) (Exec.upvalue n) := by
  refine h.frame fun f _ => ?_
  split
  · exact h.pure _
  · exact h.failWith _

theorem placeResults {start : Nat} (hs : low ≤ start) (wanted : Option Nat) (vs : List Value) :
    P Unit (Exec.placeResults start wanted vs) := by
  cases wanted with
  | some n => exact h.bind (h.writeRange _ hs) fun _ => h.closeList _
  | none => exact h.bind (h.writeRange _ hs) fun _ => h.setTop (by omega)

theorem captureAll (cs : List Capture) : P (List (Ref .broker)) (Exec.captureAll cs) := by
  induction cs with
  | nil => exact h.pure _
  | cons c cs ih =>
    have hrest : ∀ r : Ref .broker, P _ (do return r :: (← Exec.captureAll cs)) :=
      fun r => h.bind ih fun rs => h.pure _
    unfold Exec.captureAll
    dsimp only
    split
    · exact h.base fun _ hn => h.bind (h.capture (by omega)) hrest
    · exact h.bind (h.upvalue _) hrest

theorem makeClosure (n : Nat) : P Value (Exec.makeClosure n) := by
  refine h.frame fun f _ => ?_
  split
  · exact h.failWith _
  · exact h.bind (h.captureAll _) fun _ => h.newClosure _

end ClosedInWindow

namespace ClosedWithin

variable {low : Nat} {P : (α : Type) → Exec α → Prop} (h : ClosedWithin low P)

include h

theorem skipIf (b : Bool) : P Unit (Exec.skipIf b) := by
  cases b with
  | false => exact h.pure _
  | true => exact h.skip

theorem extraWord : P Word Exec.extraWord := by
  refine h.bind h.fetch fun w => ?_
  cases w with
  | some w => exact h.pure _
  | none => exact h.failWith _

end ClosedWithin
end Exec

namespace Instruction

open Exec

variable {host : Host} {low : Nat} {P : (α : Type) → Exec α → Prop}

theorem closed_listLength (h : ClosedAbove low P) (b : UInt8) (start : Nat) :
    P Nat (listLength b start) := by
  unfold listLength
  split
  · exact h.read _
  · exact h.pure _

section

variable (h : ClosedInWindow low P) (w : Word)

include h

/-- A script on two operands whose value goes into register A. -/
theorem closed_ofOperands {f : Value → Value → Script Value}
    (hf : ∀ left right, (f left right).Plain) : P Unit (do
      let left ← operand w.operandB
      let right ← operand w.operandC
      setRegister w.a (← (f left right).exec)) := by
  refine h.bind (h.operand _) fun left => ?_
  refine h.bind (h.operand _) fun right => ?_
  exact h.bind (h.script (hf left right)) fun v => h.setRegister _ _

theorem closed_unary {f : Value → Script Value} (hf : ∀ v, (f v).Plain) : P Unit (unary f w) := by
  refine h.bind (h.read _) fun v => ?_
  exact h.bind (h.script (hf v)) fun _ => h.setRegister _ _

theorem closed_concat : P Unit (concat w) := by
  refine h.base fun _ _ => h.bind (h.read _) fun vs => ?_
  exact h.bind (h.script (Script.plain_concat vs)) fun _ => h.setRegister _ _

theorem closed_getUpvalue : P Unit (getUpvalue w) := by
  refine h.bind (h.upvalue _) fun r => ?_
  exact h.bind (h.read _) fun _ => h.setRegister _ _

theorem closed_upvalueValue (n : UInt8) : P Value (upvalueValue n) :=
  h.bind (h.upvalue _) fun _ => h.read _

theorem closed_getUpvalueField : P Unit (getUpvalueField w) := by
  refine h.bind (closed_upvalueValue h _) fun object => ?_
  refine h.bind (h.operand _) fun key => ?_
  exact h.bind (h.script (Script.plain_index object key)) fun _ => h.setRegister _ _

theorem closed_getField : P Unit (getField w) := by
  refine h.bind (h.read _) fun object => ?_
  refine h.bind (h.operand _) fun key => ?_
  exact h.bind (h.script (Script.plain_index object key)) fun _ => h.setRegister _ _

theorem closed_setUpvalueField : P Unit (setUpvalueField w) := by
  refine h.bind (closed_upvalueValue h _) fun object => ?_
  refine h.bind (h.operand _) fun key => h.bind (h.operand _) fun v => ?_
  exact h.script (Script.plain_setIndex object key v)

theorem closed_setField : P Unit (setField w) := by
  refine h.bind (h.read _) fun object => ?_
  refine h.bind (h.operand _) fun key => h.bind (h.operand _) fun v => ?_
  exact h.script (Script.plain_setIndex object key v)

theorem closed_method : P Unit (method w) := by
  refine h.bind (h.read _) fun object => ?_
  refine h.bind (h.operand _) fun key => h.bind (h.setRegister _ _) fun _ => ?_
  exact h.bind (h.script (Script.plain_index object key)) fun _ => h.setRegister _ _

theorem closed_varargs : P Unit (varargs w) := by
  refine h.base fun _ hn => h.frame fun f _ => ?_
  dsimp only
  split
  · exact h.bind (h.writeRange _ (by omega)) fun _ => h.setTop (by omega)
  · exact h.writeRange _ (by omega)

/-- The values behind register A go into the table in it. -/
theorem closed_setBatch (start count batch : Nat) : P Unit (do
    let vs ← readRange (start + 1) count
    match ← slot start with
    | .table r => modify (·.modifyHeap (·.modifyTable r (·.setFrom ((max batch 1 - 1) * batchSize + 1) vs)))
    | v => fail (.typeError "index" v)
    if w.b = 0 then setTop (← Exec.frame).top) := by
  have htop : P Unit (do if w.b = 0 then setTop (← Exec.frame).top) := by
    split
    · exact h.frame fun f hf => h.setTop (Nat.le_trans hf (Nat.le_add_right _ _))
    · exact h.pure _
  refine h.bind (h.read _) fun vs => h.bind (h.read _) fun v => ?_
  dsimp only
  split
  · exact h.bind (h.setFrom _ _ _) fun _ => htop
  · exact h.bind (h.fail rfl) fun _ => htop

end

section

variable (h : ClosedWithin low P) (w : Word)

include h

theorem closed_setList : P Unit (setList w) := by
  refine h.base fun base _ => h.bind (h.read _) fun top => ?_
  dsimp only
  split
  -- only in the first case the batch is yet to be read
  · exact h.bind h.extraWord fun _ => h.bind (h.pure _) fun _ => closed_setBatch h.toClosedInWindow w _ _ _
  · exact h.bind (h.pure _) fun _ => closed_setBatch h.toClosedInWindow w _ _ _

theorem closed_compare {f : Value → Value → Script Bool}
    (hf : ∀ left right, (f left right).Plain) : P Unit (compare f w) := by
  refine h.bind (h.operand _) fun left => h.bind (h.operand _) fun right => ?_
  exact h.bind (h.script (hf left right)) fun _ => h.skipIf _

theorem closed_testSet : P Unit (testSet w) := by
  refine h.bind (h.read _) fun v => ?_
  split
  · exact h.setRegister _ _
  · exact h.skipIf _

omit h in
theorem closed_call (h : ClosedInside host low P) : P Unit (call host w) := by
  refine h.base fun _ hn => ?_
  exact h.bind (closed_listLength h.toClosedAbove _ _) fun _ => h.callAt _ _ (by omega)

omit h in
theorem closed_loopNumber (h : ClosedAbove low P) (v : Value) (what : String) :
    P Number (loopNumber v what) := by
  unfold loopNumber
  split
  · exact h.pure _
  · exact h.fail rfl

theorem closed_forPrep : P Unit (forPrep w) := by
  have hn := closed_loopNumber h.toClosedAbove
  refine h.base fun base hb => h.bind (h.read _) fun _ => h.bind (hn _ _) fun i => ?_
  refine h.bind (h.read _) fun _ => h.bind (hn _ _) fun l => ?_
  refine h.bind (h.read _) fun _ => h.bind (hn _ _) fun s => ?_
  have hstart : ∀ (c : Counter) (start : Nat), low ≤ start → P Unit (do
      if c.goesOn then setSlot (start + 3) (← slot start) else Exec.jump (w.sbx.toInt + 1)) := by
    intro c start hs
    split
    · exact h.bind (h.read _) fun _ => h.setSlot _ (by omega)
    · exact h.jump _
  have hbase : low ≤ base + w.a.toNat := by omega
  dsimp only
  split
  · refine h.bind (h.fail rfl) fun _ => ?_
    split
    · exact h.bind (h.writeRange _ hbase) fun _ => hstart _ _ hbase
    · exact hstart _ _ hbase
  · split
    · exact h.bind (h.writeRange _ hbase) fun _ => hstart _ _ hbase
    · exact hstart _ _ hbase

theorem closed_forLoop : P Unit (forLoop w) := by
  refine h.base fun base hb => h.bind (h.read _) fun _ => ?_
  refine h.bind (h.read _) fun _ => h.bind (h.read _) fun _ => ?_
  have hbase : low ≤ base + w.a.toNat := by omega
  dsimp only
  split
  · refine h.bind (h.setSlot _ hbase) fun _ => ?_
    exact h.bind (h.setSlot _ (by omega)) fun _ => h.jump _
  · exact h.pure _

omit h in
theorem closed_genericCall (h : ClosedInside host low P) : P Unit (genericCall host w) := by
  refine h.base fun _ hn => h.bind (h.read _) fun _ => ?_
  exact h.bind (h.writeRange _ (by omega)) fun _ => h.callAt _ _ (by omega)

theorem closed_genericLoop : P Unit (genericLoop w) := by
  refine h.base fun _ hn => h.bind (h.read _) fun v => ?_
  split
  · exact h.pure _
  · exact h.bind (h.setSlot _ (by omega)) fun _ => h.jump _

theorem closed_jumpTo (hc : w.a ≠ 0 → ∀ start, P Unit (closeFrom start)) : P Unit (jumpTo w) := by
  unfold jumpTo
  dsimp only
  split
  · rename_i ha
    exact h.base fun _ _ => h.bind (hc (by simpa using ha) _) fun _ => h.jump _
  · exact h.jump _

omit h in
theorem closed_tailCall (h : ClosedInside host low P)
    (hc : ∀ r start count, P Unit (Exec.tailCall r start count)) :
    P Unit (tailCall host w) := by
  refine h.base fun _ hn => ?_
  refine h.bind (closed_listLength h.toClosedAbove _ _) fun _ => h.bind (h.read _) fun v => ?_
  split
  · exact hc _ _ _
  · exact h.callAt _ _ (by omega)

end
end Instruction

namespace Opcode

open Exec

variable {host : Host} {low : Nat} {P : (α : Type) → Exec α → Prop}

/-- The operations that may mark a slot, or give up what the innermost frame holds open. -/
def handlesMarks : Opcode → Bool
  | .jmp | .close | .tbc | .tailCall => true
  | _ => false

theorem cases_of_handlesMarks {op : Opcode} (h : op.handlesMarks) :
    op = .jmp ∨ op = .close ∨ op = .tbc ∨ op = .tailCall := by
  revert h
  cases op <;> decide

/-- The operations that may call a function by themselves. -/
def calls : Opcode → Bool
  | .call | .tailCall | .tforCall => true
  | _ => false

theorem cases_of_calls {op : Opcode} (h : op.calls) : op = .call ∨ op = .tailCall ∨ op = .tforCall := by
  revert h
  cases op <;> decide

/-- The operations that may skip the next code word. -/
def skips : Opcode → Bool
  | .loadBool | .eq | .lt | .le | .test | .testSet => true
  | _ => false

def jumps : Opcode → Bool
  | .jmp | .forLoop | .forPrep | .tforLoop => true
  | _ => false

/-- The operations behind which a frame may go on elsewhere than at the next code word. -/
def moves (op : Opcode) : Bool := op.takesExtraWord || op.skips || op.jumps

/-- A property that holds of the primitives, and of assigning to captured variables if the operation does
that, holds of every operation that leaves the marks alone, does not call and goes on with the next code word. -/
theorem closed_run_straight (h : ClosedInWindow low P) {op : Opcode} (hop : op.handlesMarks = false)
    (hc : op.calls = false) (hm : op.moves = false) (assign : op = .setUpval → ∀ r v, P Unit (setBroker r v))
    (w : Word) : P Unit (op.run host w) := by
  cases op <;> unfold Opcode.run
  case move => exact h.bind (h.read _) fun _ => h.setRegister _ _
  case loadK => exact h.bind (h.constant _) fun _ => h.setRegister _ _
  case loadKX => cases hm
  case loadI => exact h.setRegister _ _
  case loadF => exact h.setRegister _ _
  case loadBool => cases hm
  case loadNil => exact h.base fun _ hn => h.clearRange _ (by omega)
  case getUpval => exact Instruction.closed_getUpvalue h w
  case getTabUp => exact Instruction.closed_getUpvalueField h w
  case getTable => exact Instruction.closed_getField h w
  case setTabUp => exact Instruction.closed_setUpvalueField h w
  case setUpval =>
    exact h.bind (h.read _) fun _ => h.bind (h.upvalue _) fun _ => assign rfl _ _
  case setTable => exact Instruction.closed_setField h w
  case newTable => exact h.bind (h.script (Script.plain_make _)) fun _ => h.setRegister _ _
  case method => exact Instruction.closed_method h w
  case unm => exact Instruction.closed_unary h w Script.plain_negate
  case bnot => exact Instruction.closed_unary h w Script.plain_complement
  case not => exact h.bind (h.read _) fun _ => h.setRegister _ _
  case len => exact Instruction.closed_unary h w Script.plain_length
  case concat => exact Instruction.closed_concat h w
  case jmp => cases hop
  case eq => cases hm
  case lt => cases hm
  case le => cases hm
  case test => cases hm
  case testSet => cases hm
  case call => cases hc
  case tailCall => cases hop
  case ret => exact h.pure _
  case forLoop => cases hm
  case forPrep => cases hm
  case tforCall => cases hc
  case tforLoop => cases hm
  case setList => cases hm
  case closure => exact h.bind (h.makeClosure _) fun _ => h.setRegister _ _
  case varArg => exact Instruction.closed_varargs h w
  case close => cases hop
  case tbc => cases hop
  all_goals exact Instruction.closed_ofOperands h w (Script.plain_arith _)

/-- A property that holds moreover of moving in the code holds of every operation that leaves the marks alone and
does not call. -/
theorem closed_run_within (h : ClosedWithin low P) {op : Opcode} (hop : op.handlesMarks = false)
    (hc : op.calls = false) (assign : op = .setUpval → ∀ r v, P Unit (setBroker r v)) (w : Word) :
    P Unit (op.run host w) := by
  cases hm : op.moves with
  | false => exact closed_run_straight h.toClosedInWindow hop hc hm assign w
  | true =>
    cases op
    case loadKX => exact h.bind h.extraWord fun _ => h.bind (h.constant _) fun _ => h.setRegister _ _
    case loadBool => exact h.bind (h.setRegister _ _) fun _ => h.skipIf _
    case jmp => cases hop
    case eq => exact Instruction.closed_compare h w Script.plain_equals
    case lt => exact Instruction.closed_compare h w Script.plain_lessThan
    case le => exact Instruction.closed_compare h w Script.plain_lessEqual
    case test => exact h.bind (h.read _) fun _ => h.skipIf _
    case testSet => exact Instruction.closed_testSet h w
    case forLoop => exact Instruction.closed_forLoop h w
    case forPrep => exact Instruction.closed_forPrep h w
    case tforLoop => exact Instruction.closed_genericLoop h w
    case setList => exact Instruction.closed_setList h w
    all_goals cases hm

theorem closed_run_inside (h : ClosedInside host low P) {op : Opcode} (hop : op.handlesMarks = false)
    (assign : op = .setUpval → ∀ r v, P Unit (setBroker r v)) (w : Word) : P Unit (op.run host w) := by
  cases hc : op.calls with
  | false => exact closed_run_within h.toClosedWithin hop hc assign w
  | true =>
    obtain rfl | rfl | rfl := cases_of_calls hc
    · exact Instruction.closed_call w h
    · cases hop
    · exact Instruction.closed_genericCall w h

/-- A property that holds moreover of marking and closing holds of every operation that does not call. -/
theorem closed_run_apart (h : ClosedWithin low P) (mark : ∀ slot, P Unit (modifyFrame (·.mark slot)))
    (closeFrom : ∀ start, P Unit (closeFrom start)) {op : Opcode} (hc : op.calls = false)
    (assign : op = .setUpval → ∀ r v, P Unit (setBroker r v)) (w : Word) : P Unit (op.run host w) := by
  cases hop : op.handlesMarks with
  | false => exact closed_run_within h hop hc assign w
  | true =>
    obtain rfl | rfl | rfl | rfl := cases_of_handlesMarks hop
    · exact Instruction.closed_jumpTo h w fun _ => closeFrom
    · exact h.base fun _ _ => closeFrom _
    · exact h.base fun _ _ => mark _
    · cases hc

/-- A property that holds moreover of marking and closing holds of every operation. -/
theorem closed_run_above (h : ClosedInside host low P)
    (mark : ∀ slot, P Unit (modifyFrame (·.mark slot))) (closeFrom : ∀ start, P Unit (closeFrom start))
    (tailCall : ∀ r start count, P Unit (Exec.tailCall r start count)) (op : Opcode)
    (assign : op = .setUpval → ∀ r v, P Unit (setBroker r v)) (w : Word) : P Unit (op.run host w) := by
  cases hop : op.handlesMarks with
  | false => exact closed_run_inside h hop assign w
  | true =>
    obtain rfl | rfl | rfl | rfl := cases_of_handlesMarks hop
    · exact Instruction.closed_jumpTo h.toClosedWithin w fun _ => closeFrom
    · exact h.base fun _ _ => closeFrom _
    · exact h.base fun _ _ => mark _
    · exact Instruction.closed_tailCall w h tailCall

theorem closed_run (h : ClosedInFrame host P) (op : Opcode) (w : Word) : P Unit (op.run host w) :=
  closed_run_above h.inside h.mark h.closeFrom h.tailCall op (fun _ => h.setBroker) w

end Opcode

namespace Exec

/-- A property that holds moreover of whatever is done with frames. It holds of whole steps. -/
structure ClosedOnFrames (host : Host) (P : (α : Type) → Exec α → Prop) : Prop extends Closed P where
  setBroker (r : Ref .broker) (v : Value) : P Unit (setBroker r v)
  modifyFrame (g : Frame → Frame) : P Unit (modifyFrame g)
  fetch : P (Option Word) fetch
  jump (offset : Int) : P Unit (jump offset)
  capture (slot : Nat) : P (Ref .broker) (capture slot)
  closeBrokers (rs : List (Ref .broker)) : P Unit (closeBrokers rs)
  closeSlots (slots : List Nat) (error : Value) : P Unit (closeSlots slots error)
  popFrame : P Frame popFrame
  pushFrame (r : Ref .closure) (start count : Nat) (wanted : Option Nat) :
    P Unit (pushFrame r start count wanted)
  callAt (start count : Nat) (wanted : Option Nat) : P Unit (callAt host start count wanted)

namespace ClosedOnFrames

variable {host : Host} {P : (α : Type) → Exec α → Prop} (h : ClosedOnFrames host P)

include h

theorem cleanup (f : Frame) (fault : Option Fault) : P Unit (Exec.cleanup f fault) :=
  h.bind (h.closeBrokers _) fun _ => h.closeSlots _ _

theorem closeFrom (start : Nat) : P Unit (Exec.closeFrom start) :=
  h.bind h.frame fun _ => h.bind (h.modifyFrame _) fun _ => h.bind (h.closeBrokers _) fun _ =>
    h.closeSlots _ _

theorem leave (vs : List Value) : P Exit (Exec.leave vs) :=
  h.bind h.popFrame fun _ => h.bind (h.cleanup _ _) fun _ => h.pure _

theorem tailCall (r : Ref .closure) (start count : Nat) : P Unit (Exec.tailCall r start count) := by
  refine h.bind (h.read _) fun args => h.bind h.popFrame fun f => h.bind (h.cleanup f none) fun _ => ?_
  exact h.bind (h.setSlot _ _) fun _ => h.bind (h.writeRange _ _) fun _ => h.pushFrame _ _ _ _

/-- A closure in the first slot, with its arguments, and a frame for it. -/
theorem enter (r : Ref .closure) (args : List Value) : P Unit (do
    setSlot 0 (.closure r)
    writeRange 1 args
    Exec.pushFrame r 0 args.length none) :=
  h.bind (h.setSlot _ _) fun _ => h.bind (h.writeRange _ _) fun _ => h.pushFrame _ _ _ _

theorem inFrame : ClosedInFrame host P where
  toClosed := h.toClosed
  setBroker := h.setBroker
  fetch := h.fetch
  skip := h.modifyFrame _
  jump := h.jump
  mark _ := h.modifyFrame _
  capture := h.capture
  closeFrom := h.closeFrom
  callAt := h.callAt
  tailCall := h.tailCall

theorem execute (w : Word) : P (Option Exit) (Exec.execute host w) := by
  unfold Exec.execute
  split
  · exact h.fail rfl
  · rw [map_eq_pure_bind]
    refine h.bind (h.bind (h.read _) fun _ => ?_) fun _ => h.pure _
    refine h.bind (Instruction.closed_listLength (h.above 0) _ _) fun _ => ?_
    exact h.bind (h.read _) fun _ => h.leave _
  · rename_i op _ _
    exact h.bind (op.closed_run h.inFrame w) fun _ => h.pure _

theorem deliver (stop : Nat) (e : Exit) : P (Option (List Value)) (Exec.deliver stop e) := by
  refine h.bind (h.read _) fun out => ?_
  split
  · exact h.pure _
  · exact h.bind (h.placeResults _ _ _) fun _ => h.pure _

theorem step (stop : Nat) : P (Option (List Value)) (Exec.step host stop) := by
  refine h.bind (h.read _) fun cancelled => ?_
  dsimp only
  split
  focus refine h.bind (h.fail rfl) fun _ => ?_
  all_goals
    refine h.bind h.fetch fun w => ?_
    cases w with
    | none => exact h.bind (h.leave []) fun e => h.deliver stop e
    | some w =>
      refine h.bind (h.execute w) fun e => ?_
      cases e with
      | some e => exact h.deliver stop e
      | none => exact h.pure _

end ClosedOnFrames
end Exec
end RegisterMachine
