import RegisterMachine.Proofs.Marks

/-! Telling computations. They do what the machine does, and tell of every slot that they mark and of
every list of slots that they hand to the handlers. Each is shown to be the computation of the machine
with what is told left out, and to keep the tally: the marks that were held and made are those handed and
held. -/
namespace RegisterMachine

/-- Slots that are handed to their handlers: those that a frame gives up from a slot on. -/
structure Handing where
  /-- The frame before it gave them up. -/
  frame : Frame
  /-- The number of frames below it. -/
  height : Nat
  start : Nat
  /-- The machine at which the first handler is looked for. -/
  machine : Machine

namespace Handing

def slots (h : Handing) : List Nat := (h.frame.takeMarks h.start).1

def brokers (h : Handing) : List (Ref .broker) := (h.frame.detachBrokers h.start).1

def marks (h : Handing) : List Mark := h.slots.map fun slot => ⟨h.machine.fiber.arena, h.height, slot⟩

/-- The handlers are called. -/
def run (h : Handing) (error : Value) : Step Unit := Exec.closeSlots h.slots error h.machine

end Handing

/-- What is told. -/
inductive Event
  | made (k : Mark)
  | handed (h : Handing)

def madeIn (es : List Event) : List Mark := es.flatMap fun
  | .made k => [k]
  | .handed _ => []

def handedIn (es : List Event) : List Mark := es.flatMap fun
  | .made _ => []
  | .handed h => h.marks

theorem madeIn_append (es es' : List Event) : madeIn (es ++ es') = madeIn es ++ madeIn es' :=
  List.flatMap_append

theorem handedIn_append (es es' : List Event) : handedIn (es ++ es') = handedIn es ++ handedIn es' :=
  List.flatMap_append

def Machine.Executes (m : Machine) (f : Frame) (w : Word) : Prop :=
  m.frame? = some f ∧ f.prototype.code[f.pc - 1]? = some w

/-- Slots are marked by the instruction for that, and handed over by the two instructions that close
slots of the innermost frame, which keeps the rest, or when the frame was taken off. -/
inductive Event.Proper : Event → Prop
  | mark {m : Machine} {f : Frame} {w : Word} : m.Executes f w → w.opcode? = some .tbc →
      Proper (.made ⟨m.fiber.arena, m.callDepth - 1, f.base + w.a.toNat⟩)
  | part {m : Machine} {f : Frame} {w : Word} (start : Nat) : m.Executes f w →
      w.opcode? = some .close ∨ w.opcode? = some .jmp →
      Proper (.handed ⟨f, m.callDepth - 1, start, m.part f start⟩)
  | drop {m : Machine} {f : Frame} {calls : CallStack} : m.fiber.calls.pop? = some (f, calls) →
      Proper (.handed ⟨f, calls.depth, 0, m.dropFrame f calls⟩)

/-- What was held and made is what was handed and is held; at no time was more handed than there was, and
all that was done properly. -/
structure Tally (m : Machine) (es : List Event) (m' : Machine) : Prop where
  count : ∀ k, m.marks.count k + (madeIn es).count k = (handedIn es).count k + m'.marks.count k
  upTo : ∀ past, past <+: es → ∀ k,
    (handedIn past).count k ≤ m.marks.count k + (madeIn past).count k
  proper : ∀ e ∈ es, e.Proper

namespace Tally

variable {m m' m'' : Machine} {es es' : List Event}

theorem of_perm (h : m'.marks.Perm m.marks) : Tally m [] m' := by
  refine ⟨fun k => ?_, fun past hp k => ?_, fun _ hm => nomatch hm⟩
  · simp [madeIn, handedIn, h.count_eq k]
  · rw [List.prefix_nil.1 hp]
    exact Nat.zero_le _

/-- Where only one thing happened, it is enough to count before and after. -/
theorem single {e : Event} (hp : e.Proper)
    (h : ∀ k, m.marks.count k + (madeIn [e]).count k = (handedIn [e]).count k + m'.marks.count k) :
    Tally m [e] m' := by
  refine ⟨h, fun past hpast k => ?_, fun e' he => ?_⟩
  · obtain rfl | ⟨past, rfl, hnil⟩ := List.prefix_cons_iff.1 hpast
    · exact Nat.zero_le _
    · rw [List.prefix_nil.1 hnil]
      have hk := h k
      omega
  · rw [List.mem_singleton.1 he]
    exact hp

theorem trans (h : Tally m es m') (h' : Tally m' es' m'') : Tally m (es ++ es') m'' := by
  refine ⟨fun k => ?_, fun past hpast k => ?_, fun g hm => ?_⟩
  · have hk := h.count k
    have hk' := h'.count k
    rw [madeIn_append, handedIn_append, List.count_append, List.count_append]
    omega
  · obtain ⟨later, hall⟩ := hpast
    obtain ⟨rest, hes, -⟩ | ⟨rest, rfl, hes⟩ := List.append_eq_append_iff.1 hall
    · exact h.upTo past ⟨rest, hes.symm⟩ k
    · have hk := h.count k
      have hk' := h'.upTo rest ⟨later, hes.symm⟩ k
      rw [madeIn_append, handedIn_append, List.count_append, List.count_append]
      omega
  · obtain hm | hm := List.mem_append.1 hm
    · exact h.proper g hm
    · exact h'.proper g hm

end Tally

/-- A computation up to its first question, with what it told so far. -/
inductive Telling (α : Type) where
  | ret (es : List Event) (a : α) (m : Machine)
  | raise (es : List Event) (f : Fault) (m : Machine)
  | ask (es : List Event) (q : Query) (m : Machine) (k : Except Fault Reply → Machine → Telling α)

namespace Telling

variable {α β : Type}

/-- The computation with what it tells left out. -/
def erase : Telling α → Step α
  | .ret _ a m => .ret a m
  | .raise _ f m => .raise f m
  | .ask _ q m k => .ask q m fun r m => (k r m).erase

def events : Telling α → List Event
  | .ret es _ _ => es
  | .raise es _ _ => es
  | .ask es _ _ _ => es

def silent : Step α → Telling α
  | .ret a m => .ret [] a m
  | .raise f m => .raise [] f m
  | .ask q m k => .ask [] q m fun r m => silent (k r m)

/-- Tells something first. -/
def tell (es : List Event) : Telling α → Telling α
  | .ret es' a m => .ret (es ++ es') a m
  | .raise es' f m => .raise (es ++ es') f m
  | .ask es' q m k => .ask (es ++ es') q m k

/-- Goes on with a result or a fault. -/
def handle (t : Telling α) (k : Except Fault α → Machine → Telling β) : Telling β :=
  match t with
  | .ret es a m => (k (.ok a) m).tell es
  | .raise es f m => (k (.error f) m).tell es
  | .ask es q m k' => .ask es q m fun r m => (k' r m).handle k

/-- Goes on with a result. -/
def bind (t : Telling α) (k : α → Machine → Telling β) : Telling β :=
  match t with
  | .ret es a m => (k a m).tell es
  | .raise es f m => .raise es f m
  | .ask es q m k' => .ask es q m fun r m => (k' r m).bind k

/-- The handlers of slots are called; this is told of. -/
def hand (h : Handing) (error : Value) : Telling Unit := (silent (h.run error)).tell [.handed h]

@[simp] theorem erase_silent (s : Step α) : (silent s).erase = s := by
  induction s with
  | ret a m => rfl
  | raise f m => rfl
  | ask q m k ih => simp only [silent, erase, ih]

@[simp] theorem erase_tell (es : List Event) (t : Telling α) : (t.tell es).erase = t.erase := by
  cases t <;> rfl

theorem erase_handle (t : Telling α) (k : Except Fault α → Machine → Telling β) :
    (t.handle k).erase = t.erase.handle fun r m => (k r m).erase := by
  induction t with
  | ret es a m => exact erase_tell es _
  | raise es f m => exact erase_tell es _
  | ask es q m k' ih => simp only [handle, erase, Step.handle, ih]

theorem erase_bind (t : Telling α) (k : α → Machine → Telling β) :
    (t.bind k).erase = t.erase.bind fun a m => (k a m).erase := by
  induction t with
  | ret es a m => exact erase_tell es _
  | raise es f m => rfl
  | ask es q m k' ih => simp only [bind, erase, Step.bind, ih]

@[simp] theorem erase_hand (h : Handing) (error : Value) : (hand h error).erase = h.run error := by
  rw [hand, erase_tell, erase_silent]

/-- From a machine on, the tally is kept up to every question, and from every answer on. -/
def Counts (m : Machine) : Telling α → Prop
  | .ret es _ m' => Tally m es m'
  | .raise es _ m' => Tally m es m'
  | .ask es _ m' k => Tally m es m' ∧ ∀ r m'', (k r m'').Counts m''

variable {m m' : Machine}

theorem counts_tell {es : List Event} {t : Telling α} (h : Tally m es m') (ht : t.Counts m') :
    (t.tell es).Counts m := by
  cases t with
  | ret es' a m₁ => exact h.trans ht
  | raise es' f m₁ => exact h.trans ht
  | ask es' q m₁ k => exact ⟨h.trans ht.1, ht.2⟩

theorem counts_silent {ends : Except Fault α → Machine → Prop} {s : Step α}
    (h : s.Follows still ends m) : (silent s).Counts m := by
  induction s generalizing m with
  | ret a m' => exact .of_perm (.of_eq h.1)
  | raise f m' => exact .of_perm (.of_eq h.1)
  | ask q m' k ih => exact ⟨.of_perm (.of_eq h.1), fun r m'' => ih r m'' (h.2.2 r m'' trivial)⟩

theorem counts_handle {t : Telling α} {k : Except Fault α → Machine → Telling β} (ht : t.Counts m)
    (hk : ∀ r m', (k r m').Counts m') : (t.handle k).Counts m := by
  induction t generalizing m with
  | ret es a m' => exact counts_tell ht (hk _ _)
  | raise es f m' => exact counts_tell ht (hk _ _)
  | ask es q m' k' ih => exact ⟨ht.1, fun r m'' => ih r m'' (ht.2 r m'')⟩

theorem counts_bind {t : Telling α} {k : α → Machine → Telling β} (ht : t.Counts m)
    (hk : ∀ a m', (k a m').Counts m') : (t.bind k).Counts m := by
  induction t generalizing m with
  | ret es a m' => exact counts_tell ht (hk _ _)
  | raise es f m' => exact ht
  | ask es q m' k' ih => exact ⟨ht.1, fun r m'' => ih r m'' (ht.2 r m'')⟩

theorem counts_hand {h : Handing} (error : Value) (ht : Tally m [.handed h] h.machine) :
    (hand h error).Counts m :=
  counts_tell ht (counts_silent (Exec.Along.closeSlots bears_sameMarks.toActs _ _ _))

end Telling

def Teller (α : Type) : Type := Machine → Telling α

namespace Teller

variable {α β : Type}

instance : Monad Teller where
  pure a := fun m => .ret [] a m
  bind t f := fun m => (t m).bind f

/-- A computation of which there is nothing to tell. -/
def lift (x : Exec α) : Teller α := fun m => .silent (x m)

def Reads (t : Teller α) (x : Exec α) : Prop := ∀ m, (t m).erase = x m

def Counts (t : Teller α) : Prop := ∀ m, (t m).Counts m

theorem reads_lift (x : Exec α) : Reads (lift x) x := fun m => Telling.erase_silent (x m)

theorem reads_pure (a : α) : Reads (pure a) (pure a) := fun _ => rfl

theorem reads_bind {t : Teller α} {x : Exec α} {f : α → Teller β} {g : α → Exec β} (ht : Reads t x)
    (hf : ∀ a, Reads (f a) (g a)) : Reads (t >>= f) (x >>= g) := by
  intro m
  have hk : (fun a m => (f a m).erase) = g := funext fun a => funext fun m => hf a m
  refine (Telling.erase_bind (t m) f).trans ?_
  rw [ht m, Exec.bind_eq]
  exact congrArg (Step.bind (x m)) hk

theorem counts_lift {x : Exec α} (hx : Exec.Still α x) : Counts (lift x) :=
  fun m => Telling.counts_silent (hx m)

theorem counts_pure (a : α) : Counts (pure a) := fun _ => .of_perm (.refl _)

theorem counts_bind {t : Teller α} {f : α → Teller β} (ht : Counts t) (hf : ∀ a, Counts (f a)) :
    Counts (t >>= f) := fun m => Telling.counts_bind (ht m) fun a m' => hf a m'

def mark (slot : Nat) : Teller Unit := fun m =>
  match m.frame? with
  | some _ => .ret [.made ⟨m.fiber.arena, m.callDepth - 1, slot⟩] () (m.modifyFrame (·.mark slot))
  | none => .raise [] (.runtime .noFrame) m

/-- Closes all that a frame that was taken off still holds open. -/
def cleanup (f : Frame) (fault : Option Fault) : Teller Unit := fun m =>
  .hand ⟨f, m.callDepth, 0, m.modifyHeap (·.closeBrokers (f.detachBrokers 0).1)⟩
    ((fault.map Fault.payload).getD .nil)

/-- Closes what the innermost frame holds open at or above a slot. -/
def closeFrom (start : Nat) : Teller Unit := fun m =>
  match m.frame? with
  | some f => .hand ⟨f, m.callDepth - 1, start, m.part f start⟩ .nil
  | none => .raise [] (.runtime .noFrame) m

/-- Takes the innermost frame off, with its cleanup. -/
def leave (vs : List Value) : Teller Exit := do
  let f ← lift Exec.popFrame
  cleanup f none
  return ⟨vs, f.returnSlot, f.wanted⟩

/-- Replaces the innermost frame by a call of a closure in a slot of it. -/
def tailCall (r : Ref .closure) (start count : Nat) : Teller Unit := do
  let args ← lift (Exec.readRange (start + 1) count)
  let f ← lift Exec.popFrame
  cleanup f none
  lift (Exec.setSlot f.returnSlot (.closure r))
  lift (Exec.writeRange (f.returnSlot + 1) args)
  lift (Exec.pushFrame r f.returnSlot count f.wanted)

theorem reads_mark (slot : Nat) : Reads (mark slot) (Exec.modifyFrame (·.mark slot)) := by
  intro m
  unfold mark Exec.modifyFrame
  split <;> simp_all [Telling.erase]

theorem reads_cleanup (f : Frame) (fault : Option Fault) :
    Reads (cleanup f fault) (Exec.cleanup f fault) := fun _ => Telling.erase_hand _ _

theorem reads_closeFrom (start : Nat) : Reads (closeFrom start) (Exec.closeFrom start) := by
  intro m
  rw [Exec.closeFrom_eq, closeFrom]
  cases m.frame? with
  | none => rfl
  | some f => exact Telling.erase_hand _ _

theorem reads_leave (vs : List Value) : Reads (leave vs) (Exec.leave vs) :=
  reads_bind (reads_lift _) fun f => reads_bind (reads_cleanup f none) fun _ => reads_pure _

theorem reads_tailCall (r : Ref .closure) (start count : Nat) :
    Reads (tailCall r start count) (Exec.tailCall r start count) := by
  refine reads_bind (reads_lift _) fun args => reads_bind (reads_lift _) fun f => ?_
  refine reads_bind (reads_cleanup f none) fun _ => reads_bind (reads_lift _) fun _ => ?_
  exact reads_bind (reads_lift _) fun _ => reads_lift _

def jumpTo (w : Word) : Teller Unit := do
  if w.a != 0 then closeFrom ((← lift Exec.base) + w.a.toNat - 1)
  lift (Exec.jump w.sbx.toInt)

def close (w : Word) : Teller Unit := do closeFrom ((← lift Exec.base) + w.a.toNat)

def markForClosing (w : Word) : Teller Unit := do
  let start := (← lift Exec.base) + w.a.toNat
  mark start

def ret (w : Word) : Teller Exit := do
  let start := (← lift Exec.base) + w.a.toNat
  let vs ← lift (Exec.readRange start (← lift (Instruction.listLength w.b start)))
  leave vs

def tailCallOf (host : Host) (w : Word) : Teller Unit := do
  let start := (← lift Exec.base) + w.a.toNat
  let count ← lift (Instruction.listLength w.b (start + 1))
  match ← lift (Exec.slot start) with
  | .closure r => tailCall r start count
  | _ => lift (Exec.callAt host start count none)

/-- What an operation does within its frame. Only four have something to tell. -/
def run (host : Host) (op : Opcode) (w : Word) : Teller Unit :=
  match op with
  | .jmp => jumpTo w
  | .close => close w
  | .tbc => markForClosing w
  | .tailCall => tailCallOf host w
  | op => lift (op.run host w)

def execute (host : Host) (w : Word) : Teller (Option Exit) :=
  match w.opcode? with
  | none => lift (Exec.fail (.badOpcode w.code))
  | some .ret => do
    let e ← ret w
    pure (some e)
  | some op => do
    run host op w
    pure none

/-- One step of the innermost frame. -/
def step (host : Host) (stop : Nat) : Teller (Option (List Value)) := do
  if ← lift (Exec.read fun m => m.isCancelled m.fiber.token) then lift (Exec.fail .cancelled)
  match ← lift Exec.fetch with
  | none => lift (Exec.deliver stop (← leave []))
  | some w =>
    match ← execute host w with
    | some e => lift (Exec.deliver stop e)
    | none => pure none

theorem reads_jumpTo (w : Word) : Reads (jumpTo w) (Instruction.jumpTo w) := by
  unfold jumpTo Instruction.jumpTo
  dsimp only
  split
  · refine reads_bind (reads_lift _) fun n => ?_
    exact reads_bind (reads_closeFrom _) fun _ => reads_lift _
  · exact reads_lift _

theorem reads_tailCallOf (host : Host) (w : Word) :
    Reads (tailCallOf host w) (Instruction.tailCall host w) := by
  refine reads_bind (reads_lift _) fun n => reads_bind (reads_lift _) fun count => ?_
  refine reads_bind (reads_lift _) fun v => ?_
  cases v with
  | closure r => exact reads_tailCall r _ _
  | _ => exact reads_lift _

theorem reads_ret (w : Word) : Reads (ret w) (Instruction.ret w) := by
  refine reads_bind (reads_lift _) fun n => reads_bind (reads_lift _) fun count => ?_
  exact reads_bind (reads_lift _) fun vs => reads_leave vs

theorem reads_run (host : Host) (op : Opcode) (w : Word) : Reads (run host op w) (op.run host w) := by
  unfold run
  split
  · exact reads_jumpTo w
  · exact reads_bind (reads_lift _) fun _ => reads_closeFrom _
  · exact reads_bind (reads_lift _) fun _ => reads_mark _
  · exact reads_tailCallOf host w
  · exact reads_lift _

theorem reads_execute (host : Host) (w : Word) : Reads (execute host w) (Exec.execute host w) := by
  unfold execute Exec.execute
  cases w.opcode? with
  | none => exact reads_lift _
  | some op =>
    have hret : Reads (do
        let e ← ret w
        pure (some e)) (some <$> Instruction.ret w) := by
      rw [map_eq_pure_bind]
      exact reads_bind (reads_ret w) fun _ => reads_pure _
    have hrun : Reads (α := Option Exit) (do
        run host op w
        pure none) (do
        op.run host w
        pure none) := reads_bind (reads_run host op w) fun _ => reads_pure none
    cases op with
    | ret => exact hret
    | _ => exact hrun

theorem reads_step (host : Host) (stop : Nat) : Reads (step host stop) (Exec.step host stop) := by
  have hgo : Reads (do
      match ← lift Exec.fetch with
      | none => lift (Exec.deliver stop (← leave []))
      | some w =>
        match ← execute host w with
        | some e => lift (Exec.deliver stop e)
        | none => pure none) (do
      match ← Exec.fetch with
      | none => Exec.deliver stop (← Exec.leave [])
      | some w =>
        match ← Exec.execute host w with
        | some e => Exec.deliver stop e
        | none => pure none) := by
    refine reads_bind (reads_lift _) fun w => ?_
    cases w with
    | none => exact reads_bind (reads_leave []) fun _ => reads_lift _
    | some w =>
      refine reads_bind (reads_execute host w) fun e => ?_
      cases e with
      | none => exact reads_pure _
      | some e => exact reads_lift _
  refine reads_bind (reads_lift _) fun b => ?_
  cases b with
  | true => exact reads_bind (reads_lift _) fun _ => hgo
  | false => exact hgo

/-- Takes frames off with their cleanup. A fault in it takes the place of the one before. -/
def unwindFrames : Nat → Fault → Teller Fault
  | 0, f => pure f
  | n + 1, f => do
    let frame ← lift Exec.popFrame
    fun m => (cleanup frame (some f) m).handle fun
      | .ok () => unwindFrames n f
      | .error e => fun m => unwindFrames n (m.locate e) m

/-- Brings the frames down to a depth after a fault. -/
def unwind (stop : Nat) (f : Fault) : Teller Fault := fun m =>
  if f.isYield then .ret [] f m else unwindFrames (m.callDepth - stop) (m.locate f) m

/-- Takes frames off with their cleanup, for no fault. -/
def closeFrames (failure : Option Fault) : Nat → Teller (Option Fault)
  | 0 => pure failure
  | n + 1 => do
    let frame ← lift Exec.popFrame
    fun m => (cleanup frame none m).handle fun
      | .ok () => closeFrames failure n
      | .error e => closeFrames (some e) n

/-- Handling what a teller comes to is an attempt at what it does. -/
theorem reads_handle {t : Teller α} {x : Exec α} {k : Except Fault α → Teller β}
    {l : Except Fault α → Exec β} (ht : Reads t x) (hk : ∀ r, Reads (k r) (l r)) :
    Reads (fun m => (t m).handle k) (Exec.attempt x >>= l) := by
  intro m
  have hl : (fun r m => (k r m).erase) = l := funext fun r => funext fun m => hk r m
  refine (Telling.erase_handle (t m) k).trans ?_
  rw [ht m, Exec.attempt_bind_eq]
  exact congrArg (Step.handle (x m)) hl

theorem reads_unwindFrames (n : Nat) (f : Fault) :
    Reads (unwindFrames n f) (Exec.unwindFrames n f) := by
  induction n generalizing f with
  | zero => exact reads_pure f
  | succ n ih =>
    refine reads_bind (reads_lift _) fun frame => reads_handle (reads_cleanup frame (some f)) fun r => ?_
    cases r with
    | ok _ => exact ih f
    | error e => exact fun m => ih (m.locate e) m

theorem reads_unwind (stop : Nat) (f : Fault) : Reads (unwind stop f) (Exec.unwind stop f) := by
  intro m
  unfold unwind Exec.unwind
  split
  · rename_i hf
    obtain ⟨vs, rfl⟩ | hn := f.yield_or
    · rfl
    · rw [hn] at hf
      cases hf
  · rename_i hf
    split
    · exact absurd rfl hf
    · exact reads_unwindFrames _ _ m

theorem reads_closeFrames (failure : Option Fault) (n : Nat) :
    Reads (closeFrames failure n) (Exec.closeFrames failure n) := by
  induction n generalizing failure with
  | zero => exact reads_pure failure
  | succ n ih =>
    refine reads_bind (reads_lift _) fun frame => reads_handle (reads_cleanup frame none) fun r => ?_
    cases r with
    | ok _ => exact ih failure
    | error e => exact ih (some e)

section

variable {m : Machine} {f : Frame}

/-- The marks of a frame are those it gives up and those it keeps. -/
theorem count_takeMarks (f : Frame) (start : Nat) (arena : Ref .arena) (height : Nat) (k : Mark) :
    (f.marksAt arena height).count k =
      ((f.takeMarks start).1.map fun slot => (⟨arena, height, slot⟩ : Mark)).count k +
        ((f.takeMarks start).2.marksAt arena height).count k := by
  have hsplit : f.marks.toList =
      f.marks.toList.takeWhile (· < start) ++ f.marks.toList.dropWhile (· < start) :=
    List.takeWhile_append_dropWhile.symm
  have hall : f.marksAt arena height = (f.takeMarks start).2.marksAt arena height ++
      ((f.takeMarks start).1.map fun slot => (⟨arena, height, slot⟩ : Mark)).reverse := by
    simp only [Frame.marksAt, Frame.takeMarks, ← List.map_reverse, List.reverse_reverse,
      ← List.map_append]
    rw [← hsplit]
  rw [hall, List.count_append, List.count_reverse, Nat.add_comm]

theorem tally_mark {w : Word} (hf : m.Executes f w) (hw : w.opcode? = some .tbc) :
    Tally m [.made ⟨m.fiber.arena, m.callDepth - 1, f.base + w.a.toNat⟩]
      (m.modifyFrame (·.mark (f.base + w.a.toNat))) := by
  refine .single (.mark hf hw) fun k => ?_
  obtain ⟨rest, hm, hm'⟩ := Machine.marks_modifyFrame (·.mark (f.base + w.a.toNat)) hf.1
  rw [hm, hm']
  simp only [madeIn, handedIn, Frame.marksAt, Frame.mark, List.flatMap_cons, List.flatMap_nil,
    List.count_append, Array.toList_push, List.map_append, List.map_cons, List.map_nil,
    List.append_nil, List.count_nil]
  omega

theorem tally_handed {h : Handing} (hp : (Event.handed h).Proper)
    (hc : ∀ k, m.marks.count k = h.marks.count k + h.machine.marks.count k) :
    Tally m [.handed h] h.machine := by
  refine .single hp fun k => ?_
  simp only [madeIn, handedIn, List.flatMap_cons, List.flatMap_nil, List.append_nil, List.count_nil]
  exact hc k

theorem tally_part {w : Word} (start : Nat) (hf : m.Executes f w)
    (hw : w.opcode? = some .close ∨ w.opcode? = some .jmp) :
    Tally m [.handed ⟨f, m.callDepth - 1, start, m.part f start⟩] (m.part f start) := by
  refine tally_handed (.part start hf hw) fun k => ?_
  let f' := ((f.detachBrokers start).2.takeMarks start).2
  obtain ⟨rest, hm, hm'⟩ := Machine.marks_modifyFrame (fun _ => f') hf.1
  have hpart : (m.part f start).marks = f'.marksAt m.fiber.arena (m.callDepth - 1) ++ rest :=
    (Machine.marks_closeBrokers _ _).trans hm'
  have hcount := count_takeMarks f start m.fiber.arena (m.callDepth - 1) k
  rw [hm, hpart, List.count_append, List.count_append, hcount]
  exact Nat.add_assoc _ _ _

theorem tally_drop {calls : CallStack} (hp : m.fiber.calls.pop? = some (f, calls)) :
    Tally m [.handed ⟨f, calls.depth, 0, m.dropFrame f calls⟩] (m.dropFrame f calls) := by
  refine tally_handed (.drop hp) fun k => ?_
  have hm := Machine.marks_of_frames (Machine.frames_of_pop hp)
  have hdrop : (m.dropFrame f calls).marks = marksOf m.fiber.arena calls.frames ++ m.otherMarks :=
    Machine.marks_closeBrokers (m.modifyFiber fun fiber => { fiber with calls }) _
  have hcount := count_takeMarks f 0 m.fiber.arena calls.frames.length k
  have hkept : (f.takeMarks 0).2.marksAt m.fiber.arena calls.frames.length = [] := by
    cases hl : f.marks.toList <;> simp [Frame.marksAt, Frame.takeMarks, hl]
  rw [hkept] at hcount
  rw [hm, hdrop, List.count_append, hcount, ← calls.depth_eq]
  rfl

theorem counts_read {g : Machine → β} {k : β → Teller α} (h : (k (g m) m).Counts m) :
    ((lift (Exec.read g) >>= k) m).Counts m := Telling.counts_tell (.of_perm (.refl _)) h

theorem counts_fetch {k : Option Word → Teller α} (hn : Counts (k none))
    (hs : ∀ m f w, m.Executes f w → (k (some w) m).Counts m) : Counts (lift Exec.fetch >>= k) := by
  intro m
  show Telling.Counts m (Telling.bind (.silent (Exec.fetch m)) k)
  unfold Exec.fetch
  split
  · exact .of_perm (.refl _)
  · rename_i f hf
    split
    · rename_i w hw
      obtain ⟨fs, hframes⟩ := Machine.frames_of_frame? hf
      have hskip : (m.modifyFrame Frame.skip).Executes f.skip w := by
        refine ⟨?_, hw⟩
        show (m.fiber.calls.modifyTop Frame.skip).frames.head? = _
        rw [Machine.frames_modifyTop _ hframes]
        rfl
      have hmarks : (m.modifyFrame Frame.skip).marks = m.marks :=
        Machine.marks_modifyFrame_of_eq hf rfl
      exact Telling.counts_tell (.of_perm (.of_eq hmarks)) (hs _ _ _ hskip)
    · exact Telling.counts_tell (.of_perm (.refl _)) (hn m)

theorem counts_mark {w : Word} (hf : m.Executes f w) (hw : w.opcode? = some .tbc) :
    (mark (m.base + w.a.toNat) m).Counts m := by
  have hbase : m.base = f.base := by simp only [Machine.base, hf.1]
  simp only [mark, hf.1, hbase]
  exact tally_mark hf hw

theorem counts_closeFrom {w : Word} (start : Nat) (hf : m.Executes f w)
    (hw : w.opcode? = some .close ∨ w.opcode? = some .jmp) : (closeFrom start m).Counts m := by
  simp only [closeFrom, hf.1]
  exact Telling.counts_hand _ (tally_part start hf hw)

/-- A frame that was taken off is handed over as a whole. -/
theorem cleanup_eq_hand (f : Frame) (fault : Option Fault) (calls : CallStack) (m : Machine) :
    cleanup f fault (m.modifyFiber fun fiber => { fiber with calls }) =
      .hand ⟨f, calls.depth, 0, m.dropFrame f calls⟩ ((fault.map Fault.payload).getD .nil) := by
  have hall : (f.detachBrokers 0).1 = f.live.map Prod.snd := by simp [Frame.detachBrokers]
  unfold cleanup
  rw [hall]
  rfl

theorem counts_pop {k : Frame → Teller α}
    (hk : ∀ {m f calls}, m.fiber.calls.pop? = some (f, calls) →
      (k f (m.modifyFiber fun fiber => { fiber with calls })).Counts m) :
    Counts (lift Exec.popFrame >>= k) := by
  intro m
  show Telling.Counts m (Telling.bind (.silent (Exec.popFrame m)) k)
  unfold Exec.popFrame
  cases hp : m.fiber.calls.pop? with
  | none => exact .of_perm (.refl _)
  | some p => exact Telling.counts_tell (.of_perm (.refl _)) (hk hp)

theorem counts_cleanup {calls : CallStack} (fault : Option Fault)
    (hp : m.fiber.calls.pop? = some (f, calls)) :
    (cleanup f fault (m.modifyFiber fun fiber => { fiber with calls })).Counts m := by
  rw [cleanup_eq_hand]
  exact Telling.counts_hand _ (tally_drop hp)

theorem counts_leave (vs : List Value) : Counts (leave vs) :=
  counts_pop fun hp => Telling.counts_bind (counts_cleanup none hp) fun _ m' => counts_pure _ m'

theorem counts_tailCall (r : Ref .closure) (start count : Nat) : Counts (tailCall r start count) := by
  refine counts_bind (counts_lift (.read bears_sameMarks.toActs _)) fun args => counts_pop fun hp => ?_
  refine Telling.counts_bind (counts_cleanup none hp) fun _ m' => ?_
  refine counts_bind (counts_lift (.write bears_sameMarks.toQuiets (.put _ _))) (fun _ => ?_) m'
  refine counts_bind (counts_lift (.write bears_sameMarks.toQuiets (.putRange _ _))) fun _ => ?_
  exact counts_lift (.pushFrame bears_sameMarks _ _ _ _)

theorem counts_tailCallOf (host : Host) (w : Word) : Counts (tailCallOf host w) := by
  have hlength := Instruction.closed_listLength ((Exec.Along.closed bears_sameMarks.toQuiets).above 0)
  refine counts_bind (counts_lift (.read bears_sameMarks.toActs _)) fun n => ?_
  refine counts_bind (counts_lift (hlength _ _)) fun count => ?_
  refine counts_bind (counts_lift (.read bears_sameMarks.toActs _)) fun v => ?_
  cases v with
  | closure r => exact counts_tailCall r _ _
  | _ => exact counts_lift (.callAt bears_sameMarks _ _ _ _)

theorem counts_ret (w : Word) : Counts (ret w) := by
  have hlength := Instruction.closed_listLength ((Exec.Along.closed bears_sameMarks.toQuiets).above 0)
  refine counts_bind (counts_lift (.read bears_sameMarks.toActs _)) fun n => ?_
  refine counts_bind (counts_lift (hlength _ _)) fun count => ?_
  exact counts_bind (counts_lift (.read bears_sameMarks.toActs _)) fun vs => counts_leave vs

theorem counts_jumpTo {w : Word} (hf : m.Executes f w) (hw : w.opcode? = some .jmp) :
    (jumpTo w m).Counts m := by
  unfold jumpTo
  dsimp only
  split
  · refine counts_read (Telling.counts_bind (counts_closeFrom _ hf (.inr hw)) fun _ m' => ?_)
    exact counts_lift (.jump bears_sameMarks _) m'
  · exact counts_lift (.jump bears_sameMarks _) m

theorem counts_run (host : Host) {op : Opcode} {w : Word} (hf : m.Executes f w)
    (hw : w.opcode? = some op) : (run host op w m).Counts m := by
  unfold run
  split
  · exact counts_jumpTo hf hw
  · exact counts_read (counts_closeFrom _ hf (.inl hw))
  · exact counts_read (counts_mark hf hw)
  · exact counts_tailCallOf host w m
  · rename_i h₁ h₂ h₃ h₄
    have hop : op.handlesMarks = false := by
      cases hop : op.handlesMarks with
      | false => rfl
      | true =>
        obtain rfl | rfl | rfl | rfl := Opcode.cases_of_handlesMarks hop
        · exact absurd rfl h₁
        · exact absurd rfl h₂
        · exact absurd rfl h₃
        · exact absurd rfl h₄
    exact counts_lift (Opcode.closed_run_inside (Exec.Along.closedInside bears_sameMarks host) hop
      (fun _ => Exec.Still.setBroker) w) m

theorem counts_execute (host : Host) {w : Word} (hf : m.Executes f w) :
    (execute host w m).Counts m := by
  unfold execute
  cases hw : w.opcode? with
  | none => exact counts_lift (.raise bears_sameMarks.toActs _) m
  | some op =>
    have hrun : Telling.Counts m ((run host op w m).bind fun _ m' => .ret [] (none : Option Exit) m') :=
      Telling.counts_bind (counts_run host hf hw) fun _ m' => counts_pure _ m'
    cases op with
    | ret => exact counts_bind (counts_ret w) (fun _ => counts_pure _) m
    | _ => exact hrun

theorem counts_step (host : Host) (stop : Nat) : Counts (step host stop) := by
  have hgo : Counts (do
      match ← lift Exec.fetch with
      | none => lift (Exec.deliver stop (← leave []))
      | some w =>
        match ← execute host w with
        | some e => lift (Exec.deliver stop e)
        | none => pure none) := by
    refine counts_fetch ?_ fun m f w hf => ?_
    · exact counts_bind (counts_leave []) fun _ => counts_lift (.deliver bears_sameMarks.toQuiets _ _)
    · refine Telling.counts_bind (counts_execute host hf) fun e m' => ?_
      cases e with
      | none => exact counts_pure _ m'
      | some e => exact counts_lift (.deliver bears_sameMarks.toQuiets _ _) m'
  refine counts_bind (counts_lift (.read bears_sameMarks.toActs _)) fun b => ?_
  cases b with
  | true => exact counts_bind (counts_lift (.raise bears_sameMarks.toActs _)) fun _ => hgo
  | false => exact hgo

theorem counts_unwindFrames (n : Nat) (f : Fault) : Counts (unwindFrames n f) := by
  induction n generalizing f with
  | zero => exact counts_pure f
  | succ n ih =>
    refine counts_pop fun hp => Telling.counts_handle (counts_cleanup (some f) hp) fun r m' => ?_
    cases r with
    | ok _ => exact ih f m'
    | error e => exact ih (m'.locate e) m'

theorem counts_unwind (stop : Nat) (f : Fault) : Counts (unwind stop f) := by
  intro m
  unfold unwind
  split
  · exact counts_pure f m
  · exact counts_unwindFrames _ _ m

theorem counts_closeFrames (failure : Option Fault) (n : Nat) : Counts (closeFrames failure n) := by
  induction n generalizing failure with
  | zero => exact counts_pure failure
  | succ n ih =>
    refine counts_pop fun hp => Telling.counts_handle (counts_cleanup none hp) fun r m' => ?_
    cases r with
    | ok _ => exact ih failure m'
    | error e => exact ih (some e) m'

end

end Teller
end RegisterMachine
