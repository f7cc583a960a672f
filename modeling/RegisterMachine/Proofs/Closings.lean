import RegisterMachine.Proofs.Depths
import RegisterMachine.Proofs.TailCalls

/-! Closings. The values that a frame held for closing are handed to their handlers with the latest error
so far: the one that unwinds the frames, one that an inner frame left behind, or one that an earlier
handler of the same frame raised. -/
namespace RegisterMachine

open Machine

section

variable {α : Type}

/-- Every entry of a log is as it must be after the entries before it. -/
def EachAfter (P : List α → α → Prop) (log : List α) : Prop :=
  ∀ past x, past ++ [x] <+: log → P past x

theorem eachAfter_nil (P : List α → α → Prop) : EachAfter P [] := by
  intro past x h
  have hlen := h.length_le
  rw [List.length_append, List.length_singleton, List.length_nil] at hlen
  omega

theorem eachAfter_cons {P : List α → α → Prop} {x : α} {log : List α} :
    EachAfter P (x :: log) ↔ P [] x ∧ EachAfter (fun past => P (x :: past)) log := by
  constructor
  · refine fun h => ⟨h [] x ?_, fun past y hy => h (x :: past) y ?_⟩
    · exact (List.cons_prefix_cons).2 ⟨rfl, List.nil_prefix⟩
    · exact (List.cons_prefix_cons).2 ⟨rfl, hy⟩
  · rintro ⟨hx, hlog⟩ past y hy
    cases past with
    | nil =>
      obtain ⟨rfl, -⟩ := List.cons_prefix_cons.1 hy
      exact hx
    | cons z past =>
      obtain ⟨rfl, hpast⟩ := List.cons_prefix_cons.1 hy
      exact hlog past y hpast

def machineAfter (after : α → Machine) (m : Machine) (log : List α) : Machine :=
  (log.getLast?.map after).getD m

theorem machineAfter_cons (after : α → Machine) (m : Machine) (x : α) (log : List α) :
    machineAfter after m (x :: log) = machineAfter after (after x) log := by
  unfold machineAfter
  rw [List.getLast?_cons]
  cases log.getLast? <;> rfl

def latest (failure? : α → Option Fault) (log : List α) : Option Fault :=
  (log.filterMap failure?).getLast?

theorem latest_cons (failure? : α → Option Fault) (x : α) (log : List α) :
    latest failure? (x :: log) = (latest failure? log).or (failure? x) := by
  unfold latest
  cases hx : failure? x with
  | none => rw [List.filterMap_cons_none hx, Option.or_none]
  | some f =>
    rw [List.filterMap_cons_some hx, List.getLast?_cons]
    cases (log.filterMap failure?).getLast? <;> rfl

end

/-- What becomes of a value that is to be closed: it is passed over, the host is warned of it, or its
handler is called with an error and gives an answer. -/
inductive Fate
  | passed
  | warned
  | called (error : Value) (answer : Except Fault Reply)

/-- What the host is told of a value without a handler. -/
def warningOf (v : Value) : String :=
  "to-be-closed " ++ v.typeName ++ " value has no '__close' metamethod"

/-- A value that was closed, with the machines before and after that. -/
structure Disposal where
  value : Value
  fate : Fate
  before : Machine
  after : Machine

namespace Disposal

/-- The failure of the handler, if it was called and failed. -/
def failure? (d : Disposal) : Option Fault :=
  match d.fate with
  | .called _ (.error f) => some f
  | _ => none

/-- A value is closed after an error, or none. Its handler is called once, unless the value is falsy or
has none, and given the payload of the error. -/
inductive Proper (server : Server) (e : Option Fault) : Disposal → Prop
  | passed {v : Value} {m : Machine} : v.isTruthy = false → Proper server e ⟨v, .passed, m, m⟩
  | warned {v : Value} {m : Machine} : v.isTruthy = true → m.heap.metamethod v "__close" = .nil →
      Proper server e ⟨v, .warned, m, { m with warnings := m.warnings.push (warningOf v) }⟩
  | called {v : Value} {m m' : Machine} {answer : Except Fault Reply} : v.isTruthy = true →
      m.heap.metamethod v "__close" ≠ .nil →
      server (.call (m.heap.metamethod v "__close") [v, (e.map Fault.payload).getD .nil]) m =
        some (answer, m') →
      Proper server e ⟨v, .called ((e.map Fault.payload).getD .nil) answer, m, m'⟩

end Disposal

/-- Values are closed one after the other, from one machine to another, and each after the latest failure,
or else after the error that there was before. -/
structure Threaded (server : Server) (e : Option Fault) (m : Machine) (vs : List Value)
    (log : List Disposal) (m' : Machine) : Prop where
  values : log.map Disposal.value = vs
  each : EachAfter (fun past d => d.before = machineAfter Disposal.after m past ∧
    d.Proper server ((latest Disposal.failure? past).or e)) log
  ends : machineAfter Disposal.after m log = m'

/-- The outcome of closing values is the latest failure. -/
def outcomeOf : Option Fault → Except Fault Unit
  | some f => .error f
  | none => .ok ()

section

variable {server : Server} {e failure : Option Fault} {v : Value} {vs : List Value} {m m' : Machine}
  {r : Except Fault Unit} {d : Disposal} {log : List Disposal}

theorem threaded_nil : Threaded server e m [] log m' ↔ log = [] ∧ m' = m := by
  constructor
  · rintro ⟨hvalues, -, rfl⟩
    obtain rfl := List.map_eq_nil_iff.1 hvalues
    exact ⟨rfl, rfl⟩
  · rintro ⟨rfl, rfl⟩
    exact ⟨rfl, eachAfter_nil _, rfl⟩

/-- The first value is closed after the error that there was before, and the others follow. -/
theorem threaded_cons : Threaded server e m (v :: vs) (d :: log) m' ↔
    (d.value = v ∧ d.before = m ∧ d.Proper server e) ∧
      Threaded server (d.failure?.or e) d.after vs log m' := by
  have hpast : (fun past x => x.before = machineAfter Disposal.after m (d :: past) ∧
        Disposal.Proper server ((latest Disposal.failure? (d :: past)).or e) x) =
      fun past x => x.before = machineAfter Disposal.after d.after past ∧
        Disposal.Proper server ((latest Disposal.failure? past).or (d.failure?.or e)) x := by
    funext past x
    rw [machineAfter_cons, latest_cons, Option.or_assoc]
  constructor
  · rintro ⟨hvalues, heach, hends⟩
    obtain ⟨hv, hvs⟩ := List.cons.inj hvalues
    obtain ⟨⟨hbefore, hproper⟩, heach⟩ := eachAfter_cons.1 heach
    rw [hpast] at heach
    rw [machineAfter_cons] at hends
    exact ⟨⟨hv, hbefore, hproper⟩, hvs, heach, hends⟩
  · rintro ⟨⟨rfl, hbefore, hproper⟩, rfl, heach, hends⟩
    refine ⟨rfl, eachAfter_cons.2 ⟨⟨hbefore, hproper⟩, ?_⟩, ?_⟩
    · rw [hpast]
      exact heach
    · rw [machineAfter_cons]
      exact hends

theorem threaded_cons_iff : (∃ log, Threaded server e m (v :: vs) log m' ∧
      r = outcomeOf ((latest Disposal.failure? log).or failure)) ↔
    ∃ d : Disposal, (d.value = v ∧ d.before = m ∧ d.Proper server e) ∧
      ∃ log, Threaded server (d.failure?.or e) d.after vs log m' ∧
        r = outcomeOf ((latest Disposal.failure? log).or (d.failure?.or failure)) := by
  constructor
  · rintro ⟨log, h, rfl⟩
    cases log with
    | nil => cases h.values
    | cons d log =>
      obtain ⟨hd, hlog⟩ := threaded_cons.1 h
      exact ⟨d, hd, log, hlog, by rw [latest_cons, Option.or_assoc]⟩
  · rintro ⟨d, hd, log, hlog, rfl⟩
    exact ⟨d :: log, threaded_cons.2 ⟨hd, hlog⟩, by rw [latest_cons, Option.or_assoc]⟩

/-- What closing the first value comes to. -/
theorem run_closeValues_cons (error : Value) : ((Script.closeValues error failure (v :: vs)).exec m).run
      server =
    if v.isTruthy then
      if m.heap.metamethod v "__close" = .nil then
        ((Script.closeValues error failure vs).exec
          { m with warnings := m.warnings.push (warningOf v) }).run server
      else
        (server (.call (m.heap.metamethod v "__close") [v, error]) m).bind fun p =>
          match p with
          | (.ok _, m) => ((Script.closeValues error failure vs).exec m).run server
          | (.error f, m) => ((Script.closeValues f.payload (some f) vs).exec m).run server
    else ((Script.closeValues error failure vs).exec m).run server := by
  have hlook : ∀ k : Value → Script Unit, (Script.metamethod v "__close" >>= k).exec m =
      (k (m.heap.metamethod v "__close")).exec m := fun _ => rfl
  rw [Script.closeValues]
  cases v.isTruthy with
  | false => rfl
  | true =>
    simp only [Bool.not_true, Bool.false_eq_true, if_false, if_true, hlook]
    split
    · rename_i hnil
      rw [if_pos hnil]
      rfl
    · rename_i hnil
      rw [if_neg hnil]
      show Step.run server (.ask _ _ _) = _
      rw [Step.run]
      cases server _ m with
      | none => rfl
      | some p => obtain ⟨f | _, m₁⟩ := p <;> rfl

/-- By induction on the values; what is generalized is the error so far and the failure so far. -/
theorem run_closeValues_iff :
    ((Script.closeValues ((e.map Fault.payload).getD .nil) failure vs).exec m).run server = some (r, m') ↔
      ∃ log, Threaded server e m vs log m' ∧
        r = outcomeOf ((latest Disposal.failure? log).or failure) := by
  induction vs generalizing e failure m with
  | nil =>
    simp only [threaded_nil]
    constructor
    · intro h
      refine ⟨[], ⟨rfl, ?_⟩, ?_⟩ <;> cases failure <;> cases h <;> rfl
    · rintro ⟨log, ⟨rfl, rfl⟩, rfl⟩
      cases failure <;> rfl
  | cons v vs ih =>
    rw [run_closeValues_cons, threaded_cons_iff]
    split
    · rename_i hv
      split
      · rename_i hnil
        rw [ih]
        constructor
        · exact fun h => ⟨_, ⟨rfl, rfl, .warned hv hnil⟩, h⟩
        · rintro ⟨d, ⟨rfl, rfl, hd⟩, h⟩
          cases hd with
          | passed hf => exact absurd (hf.symm.trans hv) Bool.false_ne_true
          | warned _ _ => exact h
          | called _ hn _ => exact absurd hnil hn
      · rename_i hnil
        constructor
        · intro h
          obtain ⟨⟨answer, m₁⟩, hs, h⟩ := Option.bind_eq_some_iff.1 h
          refine ⟨_, ⟨rfl, rfl, .called hv hnil hs⟩, ?_⟩
          cases answer with
          | ok _ => exact ih.1 h
          | error f => exact (ih (e := some f)).1 h
        · rintro ⟨d, ⟨rfl, rfl, hd⟩, h⟩
          cases hd with
          | passed hf => exact absurd (hf.symm.trans hv) Bool.false_ne_true
          | warned _ hn => exact absurd hn hnil
          | @called _ _ _ answer _ _ hs =>
            refine Option.bind_eq_some_iff.2 ⟨_, hs, ?_⟩
            cases answer with
            | ok _ => exact ih.2 h
            | error f => exact (ih (e := some f)).2 h
    · rename_i hv
      have hv : v.isTruthy = false := by simpa using hv
      rw [ih]
      constructor
      · exact fun h => ⟨_, ⟨rfl, rfl, .passed hv⟩, h⟩
      · rintro ⟨d, ⟨rfl, rfl, hd⟩, h⟩
        cases hd with
        | passed _ => exact h
        | warned ht _ => exact absurd (hv.symm.trans ht) Bool.false_ne_true
        | called ht _ _ => exact absurd (hv.symm.trans ht) Bool.false_ne_true

/-- The same for the slots that are handed over: their values are read before any handler is called. -/
theorem run_closeSlots_iff (slots : List Nat) :
    (Exec.closeSlots slots ((e.map Fault.payload).getD .nil) m).run server = some (r, m') ↔
      ∃ log, Threaded server e m (slots.map m.arena.get) log m' ∧
        r = outcomeOf (latest Disposal.failure? log) := by
  show ((Script.closeValues _ none (slots.map m.arena.get)).exec m).run server = _ ↔ _
  rw [run_closeValues_iff]
  simp only [Option.or_none]

/-- All that a frame holds is closed with it. -/
theorem run_cleanup_iff (f : Frame) (calls : CallStack) :
    (Exec.cleanup f e (m.modifyFiber fun fiber => { fiber with calls })).run server = some (r, m') ↔
      ∃ log, Threaded server e (m.dropFrame f calls) (f.marks.toList.reverse.map m.arena.get) log m' ∧
        r = outcomeOf (latest Disposal.failure? log) := by
  rw [Exec.cleanup_eq, run_closeSlots_iff, Exec.arena_dropFrame]

/-- An instruction closes what its frame holds from a slot on, after no error. -/
theorem run_closeFrom_iff {f : Frame} (hf : m.frame? = some f) (start : Nat) :
    (Exec.closeFrom start m).run server = some (r, m') ↔
      ∃ log, Threaded server none (m.part f start) ((f.takeMarks start).1.map m.arena.get) log m' ∧
        r = outcomeOf (latest Disposal.failure? log) := by
  have harena : (m.part f start).arena = m.arena := by
    show (Heap.closeBrokers _ _).arena _ = _
    rw [Heap.arena, arenas_closeBrokers]
    rfl
  rw [Exec.closeFrom_eq, hf]
  dsimp only
  rw [← harena]
  exact run_closeSlots_iff (e := none) _

end

/-- A frame that was taken off, with the closing of its values and the machines before and after that. -/
structure Departure where
  frame : Frame
  log : List Disposal
  before : Machine
  after : Machine

namespace Departure

def failure? (d : Departure) : Option Fault := (latest Disposal.failure? d.log).map d.after.locate

/-- A frame goes with an error: its brokers are closed, and its values after them, the last one first. -/
structure Proper (server : Server) (e : Fault) (d : Departure) (calls : CallStack) : Prop where
  pops : d.before.fiber.calls.pop? = some (d.frame, calls)
  threaded : Threaded server (some e) (d.before.dropFrame d.frame calls)
    (d.frame.marks.toList.reverse.map d.before.arena.get) d.log d.after

end Departure

/-- Frames are taken off one after the other, and each with the latest error that one of them left behind,
or else with the one that there was before. -/
structure Unwinding (server : Server) (e : Fault) (m : Machine) (log : List Departure) (m' : Machine) :
    Prop where
  each : EachAfter (fun past d => d.before = machineAfter Departure.after m past ∧
    ∃ calls, d.Proper server ((latest Departure.failure? past).getD e) calls) log
  ends : machineAfter Departure.after m log = m'

section

variable {server : Server} {e : Fault} {m m' : Machine} {d : Departure} {log : List Departure}

theorem unwinding_nil : Unwinding server e m [] m' ↔ m' = m :=
  ⟨fun h => h.ends.symm, fun h => ⟨eachAfter_nil _, h.symm⟩⟩

theorem unwinding_cons : Unwinding server e m (d :: log) m' ↔
    (d.before = m ∧ ∃ calls, d.Proper server e calls) ∧
      Unwinding server (d.failure?.getD e) d.after log m' := by
  have hpast : (fun past x => x.before = machineAfter Departure.after m (d :: past) ∧
        ∃ calls, Departure.Proper server ((latest Departure.failure? (d :: past)).getD e) x calls) =
      fun past x => x.before = machineAfter Departure.after d.after past ∧
        ∃ calls, Departure.Proper server ((latest Departure.failure? past).getD (d.failure?.getD e)) x
          calls := by
    funext past x
    rw [machineAfter_cons, latest_cons, Option.getD_or]
  constructor
  · rintro ⟨heach, hends⟩
    obtain ⟨hd, heach⟩ := eachAfter_cons.1 heach
    rw [hpast] at heach
    rw [machineAfter_cons] at hends
    exact ⟨hd, heach, hends⟩
  · rintro ⟨hd, heach, hends⟩
    refine ⟨eachAfter_cons.2 ⟨hd, ?_⟩, ?_⟩
    · rw [hpast]
      exact heach
    · rw [machineAfter_cons]
      exact hends

/-- The error after a frame: what its cleanup failed with, located once it is done. -/
def errorAfter (e : Fault) (r : Except Fault Unit) (m : Machine) : Fault :=
  match r with
  | .ok _ => e
  | .error f => m.locate f

theorem errorAfter_outcomeOf (e : Fault) (failure : Option Fault) (m : Machine) :
    errorAfter e (outcomeOf failure) m = (failure.map m.locate).getD e := by
  cases failure <;> rfl

/-- What taking off a frame comes to, and then those below it. -/
theorem run_unwindFrames_succ {f : Frame} {calls : CallStack}
    (hp : m.fiber.calls.pop? = some (f, calls)) (n : Nat) :
    (Exec.unwindFrames (n + 1) e m).run server =
      ((Exec.cleanup f (some e) (m.modifyFiber fun fiber => { fiber with calls })).run server).bind
        fun p => (Exec.unwindFrames n (errorAfter e p.1 p.2) p.2).run server := by
  rw [Exec.unwindFrames, Exec.popFrame_bind_eq, hp]
  dsimp only
  rw [Exec.attempt_bind_eq]
  refine (Step.run_handle server _ _).trans (congrArg (Option.bind _) (funext fun p => ?_))
  obtain ⟨f | _, m₁⟩ := p <;> rfl

/-- Frames that go as they must make up the run. -/
theorem run_of_unwinding (h : Unwinding server e m log m') :
    (Exec.unwindFrames log.length e m).run server =
      some (.ok ((latest Departure.failure? log).getD e), m') := by
  induction log generalizing e m with
  | nil =>
    obtain rfl := unwinding_nil.1 h
    rfl
  | cons d log ih =>
    obtain ⟨⟨rfl, calls, hd⟩, hlog⟩ := unwinding_cons.1 h
    have hrun := (run_cleanup_iff d.frame calls).2 ⟨d.log, hd.threaded, rfl⟩
    rw [List.length_cons, run_unwindFrames_succ hd.pops, hrun, latest_cons, Option.getD_or]
    show (Exec.unwindFrames log.length (errorAfter e (outcomeOf _) d.after) d.after).run server = _
    rw [errorAfter_outcomeOf]
    exact ih hlog

end

namespace Machine

variable {host : Host} {l : List (Ref .coroutine)} {m m' : Machine} {e : Fault}

/-- By induction on the number of frames: the handlers of one leave those below it as they are. -/
theorem unwinding_of_run {n time : Nat} {r : Except Fault Fault} (hs : Scheduled l m)
    (hn : n ≤ m.callDepth) (h : (Exec.unwindFrames n e m).run (serve host time) = some (r, m')) :
    ∃ log, Unwinding (serve host time) e m log m' ∧ r = .ok ((latest Departure.failure? log).getD e) ∧
      log.map Departure.frame = m.fiber.calls.frames.take n := by
  induction n generalizing e m with
  | zero =>
    cases h
    exact ⟨[], unwinding_nil.2 rfl, rfl, List.take_zero.symm⟩
  | succ n ih =>
    obtain ⟨f, calls, hp⟩ := pop?_of_lt (m := m) (by omega)
    rw [run_unwindFrames_succ hp] at h
    obtain ⟨⟨rc, m₁⟩, hc, h⟩ := Option.bind_eq_some_iff.1 h
    have hstable : Stable fun m => m.fiber.calls = calls :=
      ⟨fun hq h => hq.calls_eq.trans h, fun hb h => (congrArg Fiber.calls hb.fiber).trans h⟩
    have hfollows : (Exec.cleanup f (some e) (m.modifyFiber fun fiber => { fiber with calls })).Follows
        (floor fun m => m.fiber.calls = calls) (fun r m' => m'.fiber.calls = calls ∧ NoYield r) m := by
      rw [Exec.cleanup_eq]
      exact (Exec.holds_closeSlots hstable _ _ _ rfl).mono (.single (.drop (.intro hp)))
    obtain ⟨⟨hcalls, -⟩, hs₁⟩ := hfollows.run hs hc
    obtain ⟨closed, hthreaded, rfl⟩ := (run_cleanup_iff f calls).1 hc
    let d : Departure := ⟨f, closed, m, m₁⟩
    have hn₁ : n ≤ m₁.callDepth := by
      rw [callDepth, hcalls]
      have hd := callDepth_of_pop hp
      omega
    rw [errorAfter_outcomeOf] at h
    obtain ⟨log, hlog, hr, hframes⟩ := ih hs₁ hn₁ h
    refine ⟨d :: log, unwinding_cons.2 ⟨⟨rfl, calls, hp, hthreaded⟩, hlog⟩, ?_, ?_⟩
    · rw [latest_cons, Option.getD_or]
      exact hr
    · rw [List.map_cons, hframes, hcalls, frames_of_pop hp, List.take_succ_cons]

end Machine

theorem Fault.isInterrupt_or_located (m : Machine) (f : Fault) : (m.locate f).isInterrupt = true ∨
    ∃ g location trace, m.locate f = .located g location trace := by
  cases f with
  | interrupt i => exact .inl rfl
  | _ => exact .inr ⟨_, _, _, rfl⟩

/-- What frames leave behind is located. -/
theorem isInterrupt_or_located_latest (m : Machine) (f : Fault) (log : List Departure) :
    ((latest Departure.failure? log).getD (m.locate f)).isInterrupt = true ∨
      ∃ g location trace, (latest Departure.failure? log).getD (m.locate f) = .located g location trace := by
  cases hl : latest Departure.failure? log with
  | none => exact Fault.isInterrupt_or_located m f
  | some e =>
    obtain ⟨d, -, hd⟩ := List.mem_filterMap.1 (List.mem_of_getLast? hl)
    obtain ⟨f', -, rfl⟩ := Option.map_eq_some_iff.1 hd
    exact Fault.isInterrupt_or_located d.after f'

namespace Config

variable {host : Host} {c : Config}

/-- However values are closed, by an instruction, with their frame or as a fault unwinds frames, each handler is given
the latest error so far, and the last one comes out. -/
theorem errors_threaded (hc : Reachable host c) :
    (∀ server e vs (m : Machine) r m',
      ((Script.closeValues ((e.map Fault.payload).getD .nil) none vs).exec m).run server = some (r, m') ↔
        ∃ log, Threaded server e m vs log m' ∧ r = outcomeOf (latest Disposal.failure? log)) ∧
    (∀ server e f calls (m : Machine) r m',
      (Exec.cleanup f e (m.modifyFiber fun fiber => { fiber with calls })).run server = some (r, m') ↔
        ∃ log, Threaded server e (m.dropFrame f calls) (f.marks.toList.reverse.map m.arena.get) log m' ∧
          r = outcomeOf (latest Disposal.failure? log)) ∧
    (∀ server f start (m : Machine) r m', m.frame? = some f →
      ((Exec.closeFrom start m).run server = some (r, m') ↔
        ∃ log, Threaded server none (m.part f start) ((f.takeMarks start).1.map m.arena.get) log m' ∧
          r = outcomeOf (latest Disposal.failure? log))) ∧
    ∀ time stop f (r : Except Fault (List Value)) m', f.isYield = false →
      (unwound (serve host time) stop f c.machine = some (r, m') ↔
        ∃ log e, Unwinding (serve host time) (c.machine.locate f) c.machine log m' ∧
          log.map Departure.frame = c.machine.fiber.calls.frames.take (c.machine.callDepth - stop) ∧
          e = (latest Departure.failure? log).getD (c.machine.locate f) ∧
          (e.isInterrupt = true ∨ ∃ g location trace, e = .located g location trace) ∧ r = .error e) := by
  refine ⟨fun server e vs m r m' => ?_, fun server e f calls m r m' => run_cleanup_iff f calls,
    fun server f start m r m' hf => run_closeFrom_iff hf start, fun time stop f r m' hy => ?_⟩
  · rw [run_closeValues_iff]
    simp only [Option.or_none]
  · rw [unwound, Exec.unwind_eq stop hy]
    constructor
    · intro h
      have hcame {re : Except Fault Fault} {m₁ : Machine}
          (hr : (Exec.unwindFrames (c.machine.callDepth - stop) (c.machine.locate f) c.machine).run
            (serve host time) = some (re, m₁)) :=
        unwinding_of_run hc.scheduled (Nat.sub_le _ _) hr
      obtain ⟨e, m₁, hr, hp⟩ | ⟨e, m₁, hr, hp⟩ := Outcome.andThen_eq_some h
      · obtain ⟨log, -, he, -⟩ := hcame hr
        cases he
      · obtain ⟨log, hlog, he, hframes⟩ := hcame hr
        cases he
        cases hp
        exact ⟨log, _, hlog, hframes, rfl, isInterrupt_or_located_latest _ _ _, rfl⟩
    · rintro ⟨log, e, hlog, hframes, rfl, -, rfl⟩
      have hlen : log.length = c.machine.callDepth - stop := by
        have hlen := congrArg List.length hframes
        rw [List.length_map, List.length_take, ← callDepth_eq] at hlen
        omega
      rw [← hlen, run_of_unwinding hlog]
      rfl

def failMarked : Prototype where
  name := "fail"
  source := "fail"
  params := 1
  window := 2
  code := #[.abc .tbc 0 (.register 0) (.register 0), .abc .call 1 (.register 1) (.register 1)]

def raiseNine : Host := fun _ _ => .fail (.raised (.int 9))

/-- A machine with a table that has such a handler. -/
def closable : Machine :=
  let acts : List Action := [.newTable, .newTable, .newNative ⟨"close", .host "close", 0⟩,
    .setField ⟨2⟩ (.ofString "__close") (.native ⟨0⟩), .setTableMetatable ⟨1⟩ (some ⟨2⟩)]
  acts.foldl (fun m a => (a.apply m).2) (bare ⟨4, 64, 8, 8⟩)

/-- The handler is called in the course of the unwinding, and what it raised comes out. -/
theorem errors_threaded_raised :
    let c := steps raiseNine 5 (ask raiseNine (.call (.closure ⟨0⟩) [.table ⟨1⟩])
      (closable.load failMarked).2 [])
    let f : Fault := .notCallable "nil"
    Reachable raiseNine c ∧ f.isYield = false ∧
      ∃ e m' log, unwound (α := List Value) (serve raiseNine 4) 0 f c.machine = some (.error e, m') ∧
        e.payload = .int 9 ∧ Unwinding (serve raiseNine 4) (c.machine.locate f) c.machine log m' ∧
        log.map Departure.frame = c.machine.fiber.calls.frames := by
  intro c f
  have hclosable : Reachable raiseNine (.answer (.ok {}) closable []) := reachable_acted raiseNine ⟨4, 64, 8, 8⟩ _
  have hc : Reachable raiseNine c :=
    hclosable.trans (((leadsTo_of_runs (runs_steps 5 _)).head (.ask _)).head (.act (.load failMarked)))
  have hrun : (unwound (α := List Value) (serve raiseNine 4) 0 f c.machine).map
      (fun p => (failure? p.1).map Fault.payload) = some (some (.int 9)) := by
    decide +kernel
  obtain ⟨⟨r, m'⟩, h, hr⟩ := Option.map_eq_some_iff.1 hrun
  obtain ⟨log, e, hlog, hframes, -, -, rfl⟩ := ((errors_threaded hc).2.2.2 4 0 f r m' rfl).1 h
  rw [Nat.sub_zero, callDepth_eq, List.take_length] at hframes
  exact ⟨hc, rfl, e, m', log, h, Option.some.inj hr, hlog, hframes⟩

end Config
end RegisterMachine
