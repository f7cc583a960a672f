import RegisterMachine.Proofs.CallChains
import RegisterMachine.Proofs.Cancellation
import RegisterMachine.Proofs.Tables

/-! Open lists. Values of which there may be any number are placed in the registers from one on, up to the
top; the next instruction takes its operands from a register at or below that one, up to the top again, and
so gets the registers in between and then exactly these values. -/
namespace RegisterMachine

open Machine Exec

namespace Exec

variable {host : Host} {m m' : Machine} {f : Frame} {w : Word} {l : List (Ref .coroutine)} {time : Nat}

theorem scheduled_skip (hs : Scheduled l m) : Scheduled l (m.modifyFrame Frame.skip) :=
  hs.same (.change (.touch (.goto fun f => f.pc + 1)))

/-- What leaves a frame are the values with its target, and it is taken off. -/
theorem exit_of_leave_run {vs : List Value} {e : Exit} (hs : Scheduled l m)
    (h : (leave vs m).run (serve host time) = some (.ok e, m')) :
    ∃ f fs, m.fiber.calls.frames = f :: fs ∧ m'.fiber.calls.frames = fs ∧
      e = ⟨vs, f.returnSlot, f.wanted⟩ := by
  unfold leave at h
  rw [popFrame_bind_eq] at h
  cases hp : m.fiber.calls.pop? with
  | none =>
    rw [hp] at h
    cases h
  | some p =>
    obtain ⟨f, calls⟩ := p
    rw [hp] at h
    obtain ⟨_, m₁, hcleanup, h⟩ := ok_of_bind_run h
    cases h
    obtain ⟨⟨hcalls, -⟩, -⟩ := Config.moves_of_follows (drop_sites none hp) hs hcleanup
    exact ⟨f, calls.frames, frames_of_pop hp, by rw [hcalls], rfl⟩

theorem exit_of_map_run {server : Server} {x : Exec Exit} {e : Option Exit}
    (h : ((some <$> x) m).run server = some (.ok e, m')) :
    ∃ e', e = some e' ∧ (x m).run server = some (.ok e', m') := by
  rw [map_eq_pure_bind] at h
  obtain ⟨e', m₁, hx, he⟩ := ok_of_bind_run h
  cases he
  exact ⟨e', rfl, hx⟩

/-- Only a return, or the end of the code, makes values leave a frame. -/
theorem exit_of_advance_run {e : Exit} (hs : Scheduled l m)
    (h : (advance host m).run (serve host time) = some (.ok (some e), m')) :
    ∃ f fs, m.fiber.calls.frames = f :: fs ∧ m'.fiber.calls.frames = fs ∧ e.target = f.target := by
  unfold advance at h
  obtain ⟨cancelled, m₁, hread, h⟩ := ok_of_bind_run h
  cases hread
  split at h
  · cases h
  obtain ⟨w, m₁, hfetch, h⟩ := ok_of_bind_run h
  cases hf : m.frame? with
  | none =>
    rw [fetch, hf] at hfetch
    cases hfetch
  | some f =>
    obtain ⟨fs, hframes⟩ := frames_of_frame? hf
    rw [fetch, hf] at hfetch
    cases hw : f.word? with
    | none =>
      simp only [hw] at hfetch
      cases hfetch
      obtain ⟨e', he, h⟩ := exit_of_map_run h
      cases he
      obtain ⟨f', fs', hf', hfs, rfl⟩ := exit_of_leave_run hs h
      exact ⟨f', fs', hf', hfs, rfl⟩
    | some w =>
      simp only [hw] at hfetch
      cases hfetch
      have hskip : (m.modifyFrame Frame.skip).fiber.calls.frames = f.skip :: fs :=
        frames_modifyTop Frame.skip hframes
      change (execute host w (m.modifyFrame Frame.skip)).run _ = _ at h
      generalize hx : execute host w = x at h
      unfold execute at hx
      split at hx <;> subst hx
      · cases h
      · obtain ⟨e', he, h⟩ := exit_of_map_run h
        cases he
        rw [ret_eq (f := f.skip) w (frame?_modifyFrame Frame.skip hf)] at h
        obtain ⟨f', fs', hf', hfs, rfl⟩ := exit_of_leave_run (scheduled_skip hs) h
        rw [hskip] at hf'
        cases hf'
        exact ⟨f, fs, hframes, hfs, rfl⟩
      · obtain ⟨_, m₂, -, hnone⟩ := ok_of_bind_run h
        cases hnone

def batch? (f : Frame) (w : Word) : Option Nat :=
  if w.c = 0 then f.word?.map fun raw => raw.bits.toNat else some w.c.toNat

def firstKey (batch : Nat) : Nat := (max batch 1 - 1) * Instruction.batchSize + 1

theorem frame_eq (hf : m.frame? = some f) : frame m = .ret f m := by
  unfold frame
  rw [hf]

/-- Assigns the values behind a slot to consecutive keys of the table in it, and brings the top back. -/
def assignFrom (start first count : Nat) : Exec Unit := do
  let vs ← readRange (start + 1) count
  match ← slot start with
  | .table r => modify (·.modifyHeap (·.modifyTable r (·.setFrom first vs)))
  | v => fail (.typeError "index" v)
  setTop (← frame).top

theorem assignFrom_eq {start : Nat} {r : Ref .table} (first count : Nat) (hf : m.frame? = some f)
    (ht : m.arena.get start = .table r) : assignFrom start first count m = .ret () ((m.modifyHeap
      (·.modifyTable r (·.setFrom first (m.arena.readRange (start + 1) count)))).setTop f.top) := by
  unfold assignFrom
  simp only [bind_eq, readRange, slot, read, Step.bind, ht]
  simp only [modify, Step.bind]
  obtain ⟨m', hm'⟩ : ∃ m', m.modifyHeap
    (·.modifyTable r (·.setFrom first (m.arena.readRange (start + 1) count))) = m' := ⟨_, rfl⟩
  have hf' : m'.frame? = some f := by
    rw [← hm']
    exact hf
  rw [hm', bind_eq, frame_eq hf']
  rfl

/-- An open list is assigned to the keys of its batch. -/
theorem setList_eq {n : Nat} (hf : m.frame? = some f) (hb : w.b = 0) (hn : batch? f w = some n) :
    Instruction.setList w m = assignFrom (f.base + w.a.toNat) (firstKey n)
      (listCount m 0 (f.base + w.a.toNat + 1)) (if w.c = 0 then m.modifyFrame Frame.skip else m) := by
  unfold Instruction.setList
  simp only [bind_eq, base, read, Step.bind, base_eq hf, hb, if_true]
  unfold batch? at hn
  split
  · rename_i hc
    rw [if_pos hc] at hn
    obtain ⟨raw, hraw, rfl⟩ := Option.map_eq_some_iff.1 hn
    have hextra : extraWord m = .ret raw (m.modifyFrame Frame.skip) := by
      unfold extraWord
      rw [bind_eq, fetch, hf]
      simp only [hraw, Step.bind]
      rfl
    simp only [bind_eq, hextra, Step.bind]
    rfl
  · rename_i hc
    rw [if_neg hc] at hn
    cases hn
    rfl

end Exec

namespace Config

variable {host : Host} {p : Purpose} {below : List Level} {f : Frame} {w : Word} {m m' : Machine}

/-- A call passes arguments to a function: a native one is run on them, a closure has a frame that receives
them. -/
inductive Passed (host : Host) (p : Purpose) (m : Machine) (below : List Level) (target : Target)
    (args : List Value) : Callee → Prop
  | native {r : Ref .native} {m' : Machine} : Next host (.loop p m below)
      ((Site.instruction p target.1 target.2 fun _ m => .ret none m).calling (invokeNative host r args m') below) →
      Passed host p m below target args (.native r)
  | closure {r : Ref .closure} {m' : Machine} {f : Frame} {old : Arena} :
      Exec.step host p.stop m = .ret none m' → m'.frame? = some f → f.closure = m.heap.closure r →
      f.target = target → f.Receives args old m'.arena → Passed host p m below target args (.closure r)

/-- Values left a frame: they went out of the run, or they are the results of the call in the frame below. -/
def Returned (stop : Nat) (f : Frame) (values : List Value) (m : Machine) :
    Option (List Value) → Machine → Prop
  | some vs, m' => vs = values ∧ m'.fiber.calls.frames = m.fiber.calls.frames.tail ∧ m'.callDepth ≤ stop
  | none, m' => ∃ m₁, m₁.fiber.calls.frames = m.fiber.calls.frames.tail ∧ stop < m₁.callDepth ∧
      Placed f.returnSlot f.wanted values m₁ m'

/-- A table constructor has assigned values to consecutive keys of a table, and to no other keys. -/
structure Assigned (r : Ref .table) (first : Nat) (values : List Value) (f : Frame) (m m' : Machine) :
    Prop where
  heap : m'.heap = m.heap.modifyTable r (·.setFrom first values)
  top : m'.fiber.top = f.top
  keys : ∀ t, m.heap.tables.get? r = some t → first + values.length ≤ 2 ^ 63 →
    (∀ i v, values[i]? = some v →
      (m'.heap.table r).getKey (.ofInt (Int64.ofInt (first + i : Nat))) = v) ∧
    ∀ k, (∀ i < values.length, k ≠ .ofInt (Int64.ofInt (first + i : Nat))) →
      (m'.heap.table r).getKey k = t.getKey k

theorem next_loop {s : Step (Option (List Value))} (h : Exec.step host p.stop m = s) :
    Next host (.loop p m below) (.work (.run p true) s below) := by rw [Next, next, h]

theorem runs_loop (h : Exec.step host p.stop m = .ret none m') :
    Runs host (.loop p m below) (.loop p m' below) := .of_next (next_loop h) (.single rfl)

theorem leadsTo_loop (h : Exec.step host p.stop m = .ret none m') :
    LeadsTo host (.loop p m below) (.loop p m' below) := leadsTo_of_runs (runs_loop h)

/-- A call passes the arguments in the slots behind the callee, unless there is no room for that. -/
theorem passed_of_call {objects : List Value} {callee : Callee} (hd : Due m f w)
    (hop : w.opcode? = some .call)
    (h : (m.arena.get (f.base + w.a.toNat)).Reaches m.heap.callHandler objects callee)
    (hl : objects.length < maxCallLinks) :
    let args := m.arena.readRange (f.base + w.a.toNat + 1) (listCount m w.b (f.base + w.a.toNat + 1))
    (∃ m', Exec.step host p.stop m = .raise .stackOverflow m') ∨
      Passed host p m below (f.base + w.a.toNat, w.wanted) (objects ++ args) callee := by
  intro args
  have hstep := hd.step_eq host p.stop hop (by decide)
  have hcall : Opcode.run host .call w (m.modifyFrame Frame.skip) =
      callAt host (f.base + w.a.toNat) (listCount m w.b (f.base + w.a.toNat + 1)) w.wanted
        (m.modifyFrame Frame.skip) := call_eq (f := f.skip) host w hd.frame?_skip
  rw [hcall] at hstep
  obtain ⟨hr, hpassed⟩ := Heap.callsTo_of_reaches h hl
  have hcount : args.length = listCount m w.b (f.base + w.a.toNat + 1) := Arena.length_readRange ..
  have hlaid : Laid (f.base + w.a.toNat) (m.arena.get (f.base + w.a.toNat)) args (m.modifyFrame Frame.skip)
      (m.modifyFrame Frame.skip) := ⟨rfl, by rw [hcount]; rfl, fun _ _ => rfl, fun _ => Iff.rfl, rfl⟩
  rw [← hcount] at hstep
  obtain ⟨-, m₁, h₁, -⟩ | ⟨-, m₁, laid, h₁⟩ := callAt_of_callsTo host w.wanted hlaid hr
  · rw [h₁] at hstep
    exact .inl ⟨m₁, hstep⟩
  have hargs : (m.modifyFrame Frame.skip).heap.passed (m.arena.get (f.base + w.a.toNat)) objects.length ++ args =
    objects ++ args := congrArg (· ++ args) hpassed
  rw [hargs] at h₁
  generalize callAt host (f.base + w.a.toNat) args.length w.wanted (m.modifyFrame Frame.skip) = s at h₁ hstep
  cases h₁ with
  | native => exact .inr (.native (next_loop hstep))
  | closure hg hclosure ht hreceives =>
    refine .inr (.closure hstep hg (hclosure.trans ?_) ht hreceives)
    rw [laid.only]
    rfl
  | full => exact .inl ⟨_, hstep⟩

/-- A return hands over the values in the slots. -/
theorem returned_of_ret {l : List (Ref .coroutine)} {time : Nat} {e : Option (List Value)}
    (hs : Scheduled l m) (hd : Due m f w) (hop : w.opcode? = some .ret)
    (h : (Exec.step host p.stop m).run (serve host time) = some (.ok e, m')) :
    Returned p.stop f (m.arena.readRange (f.base + w.a.toNat) (listCount m w.b (f.base + w.a.toNat))) m e m' := by
  rw [Exec.step_eq] at h
  obtain ⟨left, m₁, hadvance, h⟩ := ok_of_bind_run h
  rw [hd.advance_eq, show execute host w = some <$> Instruction.ret w by unfold execute; rw [hop]]
    at hadvance
  obtain ⟨e', rfl, hret⟩ := exit_of_map_run hadvance
  rw [ret_eq (f := f.skip) w hd.frame?_skip] at hret
  obtain ⟨fs, hframes⟩ := frames_of_frame? hd.frame
  have hskip : (m.modifyFrame Frame.skip).fiber.calls.frames = f.skip :: fs :=
    frames_modifyTop Frame.skip hframes
  obtain ⟨f', fs', hf', hfs, rfl⟩ := exit_of_leave_run (scheduled_skip hs) hret
  rw [hskip] at hf'
  cases hf'
  have htail : m₁.fiber.calls.frames = m.fiber.calls.frames.tail := by rw [hfs, hframes]; rfl
  obtain ⟨values, hvalues⟩ : ∃ values, m.arena.readRange (f.base + w.a.toNat)
    (listCount m w.b (f.base + w.a.toNat)) = values := ⟨_, rfl⟩
  change (deliver p.stop ⟨m.arena.readRange (f.base + w.a.toNat)
    (listCount m w.b (f.base + w.a.toNat)), f.returnSlot, f.wanted⟩ m₁).run _ = _ at h
  rw [hvalues, deliver_eq] at h
  rw [hvalues]
  split at h
  · rename_i hdepth
    cases h
    exact ⟨rfl, htail, hdepth⟩
  · rename_i hdepth
    rw [bind_eq] at h
    obtain ⟨-, hp⟩ | ⟨-, m₂, hp, hplaced⟩ := placeResults_cases f.returnSlot f.wanted values m₁ <;>
      rw [hp] at h <;> cases h
    exact ⟨m₁, htail, Nat.lt_of_not_le hdepth, hplaced⟩

theorem assigned_of_heap {r : Ref .table} {first : Nat} {values : List Value} (hs : m.heap.Steady)
    (hpos : 0 < first) (hheap : m'.heap = m.heap.modifyTable r (·.setFrom first values)) (htop : m'.fiber.top = f.top) :
    Assigned r first values f m m' := by
  refine ⟨hheap, htop, fun t ht fits => ?_⟩
  have htable : m'.heap.table r = t.setFrom first values := by
    have hget : (m.heap.modifyTable r (·.setFrom first values)).tables.get? r = _ :=
      Store.get?_modify_self _ r _
    rw [ht, Option.map_some, Store.get?] at hget
    rw [hheap, Heap.table, Store.getD, Array.getD_eq_getD_getElem?, hget, Option.getD_some]
  rw [htable]
  exact (hs r t ht).neat.getKey_setFrom hpos fits

/-- A table constructor assigns the values in the slots behind the table. -/
theorem assigned_of_setList {r : Ref .table} {n : Nat} (hs : m.heap.Steady) (hd : Due m f w)
    (hop : w.opcode? = some .setList) (hb : w.b = 0) (ht : m.arena.get (f.base + w.a.toNat) = .table r)
    (hn : batch? f.skip w = some n) : ∃ m', Exec.step host p.stop m = .ret none m' ∧
      Assigned r (firstKey n) (m.arena.readRange (f.base + w.a.toNat + 1)
        (listCount m 0 (f.base + w.a.toNat + 1))) f m m' := by
  have hrun : Opcode.run host .setList w (m.modifyFrame Frame.skip) =
      assignFrom (f.base + w.a.toNat) (firstKey n) (listCount m 0 (f.base + w.a.toNat + 1))
        (if w.c = 0 then (m.modifyFrame Frame.skip).modifyFrame Frame.skip
          else m.modifyFrame Frame.skip) := setList_eq (f := f.skip) hd.frame?_skip hb hn
  obtain ⟨m₁, g, hm₁, hg, htop, hheap, hfiber⟩ : ∃ m₁ g, (if w.c = 0 then
      (m.modifyFrame Frame.skip).modifyFrame Frame.skip else m.modifyFrame Frame.skip) = m₁ ∧
      m₁.frame? = some g ∧ g.top = f.top ∧ m₁.heap = m.heap ∧ m₁.arena = m.arena := by
    split
    · exact ⟨_, _, rfl, frame?_modifyFrame Frame.skip hd.frame?_skip, rfl, rfl, rfl⟩
    · exact ⟨_, _, rfl, hd.frame?_skip, rfl, rfl, rfl⟩
  rw [← hfiber] at ht
  have hstep := hd.step_eq host p.stop hop (fun h => nomatch h)
  rw [hrun, hm₁, assignFrom_eq _ _ hg ht, hfiber] at hstep
  refine ⟨_, hstep, assigned_of_heap hs (Nat.succ_pos _) ?_ htop⟩
  show m₁.heap.modifyTable _ _ = _
  rw [hheap]

end Config

/-- The target of the values that an instruction comes to. -/
def Word.output? (w : Word) (base : Nat) : Option Target :=
  match w.opcode? with
  | some .varArg => some (base + w.a.toNat, if w.b = 0 then none else some (w.b.toNat - 1))
  | _ => w.target? base

theorem Word.output?_of_target? {w : Word} {base : Nat} {t : Target} (h : w.target? base = some t) :
    w.output? base = some t := by
  unfold output?
  split
  · rename_i hop
    rw [target?, hop] at h
    cases h
  · exact h

namespace Config

variable {host : Host} {p : Purpose} {below : List Level} {f : Frame} {w : Word} {vs : List Value}
  {m m' : Machine} {c c' : Config}

/-- Values are placed next for the innermost frame: results of a native function or of a closure, values of a resumption
after a yield, or extra arguments. The second configuration goes on by itself. -/
inductive Supplies (host : Host) :
    Config → Config → Purpose → List Level → Frame → Word → List Value → Machine → Prop
  | native {p : Purpose} {below : List Level} {f : Frame} {w : Word} {vs : List Value} {m m' : Machine}
      (time : Nat) (due : Due m f w) (opcode : w.opcode? = some .call)
      (run : (begin host (f.base + w.a.toNat) (listCount m w.b (f.base + w.a.toNat + 1)) w.wanted
        (m.modifyFrame Frame.skip)).run (serve host time) = some (.ok (some vs), m')) :
      Supplies host (.loop p m below) (.loop p m below) p below f.skip w vs m'
  | closure {p : Purpose} {below : List Level} {f : Frame} {w : Word} {e : Exit} {m m' : Machine}
      (time : Nat) (run : (advance host m).run (serve host time) = some (.ok (some e), m'))
      (depth : p.stop < m'.callDepth) (frame : m'.frame? = some f) (word : f.last? = some w) :
      Supplies host (.loop p m below) (.loop p m below) p below f w e.values m'
  | resumption {below : List Level} {f : Frame} {w : Word} {vs : List Value} {c : Config} {slot : Nat}
      {wanted : Option Nat} {co : Ref .coroutine} {k : Coroutine} {fiber : Fiber}
      (asked : Leads host c (ask host (.resume co vs) c.machine below))
      (coroutine : c.machine.heap.coroutine? co = some k) (status : k.status = .suspended)
      (alive : c.machine.isCancelled k.token = false)
      (depth : c.machine.nativeDepth < c.machine.limits.maxNativeDepth)
      (parked : k.parked = some fiber) (pending : fiber.pending = some (.call slot wanted))
      (frame : fiber.calls.top? = some f) (word : f.last? = some w) :
      Supplies host c (ask host (.resume co vs) c.machine below) (.resume co) below f w vs
        (c.machine.enterCoroutine co { fiber with pending := none })
  | extra {p : Purpose} {below : List Level} {f : Frame} {w : Word} {m : Machine} (due : Due m f w)
      (opcode : w.opcode? = some .varArg) :
      Supplies host (.loop p m below) (.loop p m below) p below f.skip w f.varargs (m.modifyFrame Frame.skip)

/-- The values are placed at the target of the word if there is room for as many as it wants; otherwise that is the
fault of the run. -/
def Settles (host : Host) (c : Config) (p : Purpose) (below : List Level) (f : Frame) (w : Word)
    (vs : List Value) (m : Machine) : Prop :=
  m.frame? = some f ∧ f.last? = some w ∧ ∃ slot wanted, w.output? f.base = some (slot, wanted) ∧
    (¬m.arena.admitsRange slot (cutTo wanted vs).length ∧
        Runs host c (finish host (.run p true) (.error .stackOverflow) m below) ∨
      m.arena.admitsRange slot (cutTo wanted vs).length ∧
        ∃ m', Runs host c (.loop p m' below) ∧ Placed slot wanted vs m m')

theorem runs_finish (time : Nat) {r : Except Fault (Option (List Value))}
    (h : (Exec.step host p.stop m).run (serve host time) = some (r, m')) :
    Runs host (.loop p m below) (finish host (.run p true) r m' below) :=
  .of_next rfl (runs_of_run (served_serve time) (.run p true) below h)

/-- What a step comes to that ends with values to be placed. -/
theorem settles_of_step {slot : Nat} {wanted : Option Nat} (time : Nat) (hf : m'.frame? = some f)
    (hw : f.last? = some w) (hout : w.output? f.base = some (slot, wanted))
    (hrun : (Exec.step host p.stop m).run (serve host time) =
      ((placeResults slot wanted vs m').bind fun _ m => .ret none m).run (serve host time)) :
    Settles host (.loop p m below) p below f w vs m' := by
  refine ⟨hf, hw, slot, wanted, hout, ?_⟩
  obtain ⟨hfull, hp⟩ | ⟨hfits, m₁, hp, hplaced⟩ := placeResults_cases slot wanted vs m' <;> rw [hp] at hrun
  · exact .inl ⟨hfull, runs_finish time hrun⟩
  · exact .inr ⟨hfits, m₁, runs_finish time hrun, hplaced⟩

theorem settles_native (hc : Reachable host (.loop p m below)) (time : Nat) (hd : Due m f w)
    (hop : w.opcode? = some .call)
    (h : (begin host (f.base + w.a.toNat) (listCount m w.b (f.base + w.a.toNat + 1)) w.wanted
      (m.modifyFrame Frame.skip)).run (serve host time) = some (.ok (some vs), m')) :
    Settles host (.loop p m below) p below f.skip w vs m' := by
  have hs : Scheduled _ m := hc.scheduled
  have hcalls : m'.fiber.calls = (m.modifyFrame Frame.skip).fiber.calls :=
    (moves_of_follows (begin_from (stable_calls (· = (m.modifyFrame Frame.skip).fiber.calls)) _ _ _ rfl)
      (scheduled_skip hs) h).1
  have hf : m'.frame? = some f.skip := by
    rw [Machine.frame?, hcalls]
    exact hd.frame?_skip
  have hout : w.output? f.skip.base = some (f.base + w.a.toNat, w.wanted) := by
    refine Word.output?_of_target? ?_
    rw [Word.target?, hop]
    rfl
  refine settles_of_step time hf ((Frame.last?_skip f).trans hd.word) hout ?_
  have hcall : Opcode.run host .call w (m.modifyFrame Frame.skip) =
      callAt host (f.base + w.a.toNat) (listCount m w.b (f.base + w.a.toNat + 1)) w.wanted
        (m.modifyFrame Frame.skip) := call_eq (f := f.skip) host w hd.frame?_skip
  have houtcome : (callOutcome host (f.base + w.a.toNat) (listCount m w.b (f.base + w.a.toNat + 1)) w.wanted
      (m.modifyFrame Frame.skip)).run (serve host time) =
        (placeResults (f.base + w.a.toNat) w.wanted vs m').run (serve host time) := by
    rw [callOutcome, run_bind, h]
    rfl
  rw [hd.step_eq host p.stop hop (by decide), hcall, callAt_eq, Step.run_bind, Step.run_handle, houtcome]
  -- an overflow is no yield, which the call would wait for
  obtain ⟨-, hp⟩ | ⟨-, m₁, hp, -⟩ := placeResults_cases (f.base + w.a.toNat) w.wanted vs m' <;> rw [hp] <;> rfl

theorem settles_closure (hc : Reachable host (.loop p m below)) {time : Nat} {e : Exit}
    (h : (advance host m).run (serve host time) = some (.ok (some e), m')) (hd : p.stop < m'.callDepth)
    (hf : m'.frame? = some f) (hw : f.last? = some w) :
    Settles host (.loop p m below) p below f w e.values m' := by
  obtain ⟨g, fs, hg, hfs, ht⟩ := exit_of_advance_run (show Scheduled _ m from hc.scheduled) h
  -- the frame below waits for the one that was left
  have hsited : Linked p.stop (g :: fs) := hg ▸ hc.ordered.1.1
  rw [callDepth_eq, hfs] at hd
  obtain ⟨⟨f', hf', hcalling⟩, -⟩ := hsited hd
  obtain rfl : f' = f := by
    rw [Machine.frame?, CallStack.top?, hfs, hf'] at hf
    exact Option.some.inj hf
  rw [Frame.calling?, hw, Option.bind_some, ← ht] at hcalling
  refine settles_of_step time hf hw (Word.output?_of_target? hcalling) ?_
  have hdeliver : (deliver p.stop e m').run (serve host time) =
      ((placeResults e.slot e.wanted e.values m').bind fun _ m => .ret none m).run (serve host time) := by
    rw [deliver_eq, if_neg]
    · rw [bind_eq]
      rfl
    · rw [callDepth_eq, hfs]
      exact Nat.not_le_of_lt hd
  rw [Exec.step_eq, run_bind, h]
  exact hdeliver

theorem settles_extra (hd : Due m f w) (hop : w.opcode? = some .varArg) :
    Settles host (.loop p m below) p below f.skip w f.varargs (m.modifyFrame Frame.skip) := by
  refine ⟨hd.frame?_skip, (Frame.last?_skip f).trans hd.word, f.base + w.a.toNat,
    if w.b = 0 then none else some (w.b.toNat - 1), by rw [Word.output?, hop]; rfl, ?_⟩
  have hstep := hd.step_eq host p.stop hop (fun h => nomatch h)
  obtain ⟨hfull, hp⟩ | ⟨hfits, m₁, hp, hplaced⟩ := varargs_cases hd.frame?_skip w
  · rw [show Opcode.run host .varArg w _ = _ from hp] at hstep
    exact .inl ⟨hfull, .of_next (next_loop hstep) (.single rfl)⟩
  · rw [show Opcode.run host .varArg w _ = _ from hp] at hstep
    exact .inr ⟨hfits, m₁, runs_loop hstep, hplaced⟩

/-- A coroutine that goes on is given the values first. -/
theorem ask_resume {co : Ref .coroutine} {k : Coroutine} {fiber : Fiber} {slot : Nat}
    {wanted : Option Nat} (hk : m.heap.coroutine? co = some k) (hst : k.status = .suspended)
    (ha : m.isCancelled k.token = false) (hroom : m.nativeDepth < m.limits.maxNativeDepth)
    (hp : k.parked = some fiber) (hpending : fiber.pending = some (.call slot wanted)) :
    ask host (.resume co vs) m below = .work (.run (.resume co) true)
      ((placeResults slot wanted vs (m.enterCoroutine co { fiber with pending := none })).bind
        fun () m => .ret none m) below := by
  simp only [ask, hk, hst, ha, hp, Nat.not_le_of_lt hroom, Bool.false_eq_true, if_false]
  unfold start
  rw [fiber_enterCoroutine, hpending]
  rfl

theorem settles_resumption {co : Ref .coroutine} {k : Coroutine} {fiber : Fiber} {slot : Nat}
    {wanted : Option Nat} (hc : Reachable host c) (hk : c.machine.heap.coroutine? co = some k)
    (hst : k.status = .suspended) (ha : c.machine.isCancelled k.token = false)
    (hroom : c.machine.nativeDepth < c.machine.limits.maxNativeDepth) (hp : k.parked = some fiber)
    (hpending : fiber.pending = some (.call slot wanted)) (hf : fiber.calls.top? = some f)
    (hw : f.last? = some w) : Settles host (ask host (.resume co vs) c.machine below) (.resume co) below f w vs
      (c.machine.enterCoroutine co { fiber with pending := none }) := by
  obtain ⟨f', hf', hcalling⟩ := (hc.ordered.2 co fiber ((Heap.held_eq_parked hk).trans hp)).2 slot wanted hpending
  obtain rfl : f' = f := Option.some.inj (hf'.symm.trans hf)
  rw [Frame.calling?, hw, Option.bind_some] at hcalling
  refine ⟨?_, hw, slot, wanted, Word.output?_of_target? hcalling, ?_⟩
  · rw [Machine.frame?, fiber_enterCoroutine]
    exact hf
  rw [ask_resume hk hst ha hroom hp hpending]
  obtain ⟨hfull, hplace⟩ | ⟨hfits, m₁, hplace, hplaced⟩ := placeResults_cases slot wanted vs
    (c.machine.enterCoroutine co { fiber with pending := none }) <;> rw [hplace]
  · exact .inl ⟨hfull, .single rfl⟩
  · exact .inr ⟨hfits, m₁, .single rfl, hplaced⟩

theorem Supplies.settles (hc : Reachable host c) (h : Supplies host c c' p below f w vs m) :
    Settles host c' p below f w vs m := by
  cases h with
  | native time due opcode run => exact settles_native hc time due opcode run
  | closure time run depth frame word => exact settles_closure hc run depth frame word
  | resumption asked coroutine status alive depth parked pending frame word =>
    exact settles_resumption hc coroutine status alive depth parked pending frame word
  | extra due opcode => exact settles_extra due opcode

theorem Supplies.leadsTo (h : Supplies host c c' p below f w vs m) : LeadsTo host c c' := by
  cases h with
  | resumption asked => exact .single asked
  | _ => exact .refl

/-- What an instruction takes that has a list from a register on, or from the one behind it, up to the top:
the registers up to a slot, and then exactly the values. -/
structure Takes (host : Host) (p : Purpose) (below : List Level) (f : Frame) (w : Word) (slot : Nat)
    (vs : List Value) (m : Machine) : Prop where
  call : w.opcode? = some .call → f.base + w.a.toNat < slot → ∀ objects callee,
    (m.arena.get (f.base + w.a.toNat)).Reaches m.heap.callHandler objects callee →
    objects.length < maxCallLinks →
    (∃ m', Exec.step host p.stop m = .raise .stackOverflow m') ∨
      Passed host p m below (f.base + w.a.toNat, w.wanted) (objects ++
        (m.arena.readRange (f.base + w.a.toNat + 1) (slot - (f.base + w.a.toNat + 1)) ++ vs)) callee
  ret : w.opcode? = some .ret → f.base + w.a.toNat ≤ slot → ∀ time e m',
    (Exec.step host p.stop m).run (serve host time) = some (.ok e, m') →
    Returned p.stop f
      (m.arena.readRange (f.base + w.a.toNat) (slot - (f.base + w.a.toNat)) ++ vs) m e m'
  setList : w.opcode? = some .setList → f.base + w.a.toNat < slot → ∀ r n,
    m.arena.get (f.base + w.a.toNat) = .table r → batch? f.skip w = some n →
    ∃ m', Exec.step host p.stop m = .ret none m' ∧ Assigned r (firstKey n)
      (m.arena.readRange (f.base + w.a.toNat + 1) (slot - (f.base + w.a.toNat + 1)) ++ vs) f m m'

theorem takes_of_placed {slot : Nat} (hc : Reachable host (.loop p m' below))
    (h : Placed slot none vs m m') (hd : Due m' f w) (hb : w.b = 0) :
    Takes host p below f w slot vs m' := by
  constructor
  · intro hop hlt objects callee hreach hl
    rw [← h.readRange_top hlt, ← hb]
    exact passed_of_call hd hop hreach hl
  · intro hop hle time e m'' hrun
    rw [← h.readRange_top hle, ← hb]
    exact returned_of_ret hc.scheduled hd hop hrun
  · intro hop hlt r n ht hn
    rw [← h.readRange_top hlt]
    exact assigned_of_setList hc.steady_heap hd hop hb ht hn

/-- Values that come to a call, or are extra arguments, are placed if there is room, as many as are wanted. When all
are, an open list of the next instruction, unless it is cancelled, is what is up to them and then exactly the values. -/
theorem open_list_transferred (hc : Reachable host c) (h : Supplies host c c' p below f w vs m) :
    m.frame? = some f ∧ f.last? = some w ∧ ∃ slot wanted, w.output? f.base = some (slot, wanted) ∧
      (¬m.arena.admitsRange slot (cutTo wanted vs).length ∧
          Runs host c' (finish host (.run p true) (.error .stackOverflow) m below) ∨
        m.arena.admitsRange slot (cutTo wanted vs).length ∧ ∃ m', Runs host c' (.loop p m' below) ∧
          m'.frame? = some f ∧ Placed slot wanted vs m m' ∧
          (wanted = none → ∀ w', Due m' f w' → w'.b = 0 → Takes host p below f w' slot vs m')) := by
  obtain ⟨hf, hw, slot, wanted, hout, hfull | ⟨hfits, m', hruns, hplaced⟩⟩ := h.settles hc
  · exact ⟨hf, hw, slot, wanted, hout, .inl hfull⟩
  have hf' : m'.frame? = some f := hplaced.frame?.trans hf
  refine ⟨hf, hw, slot, wanted, hout, .inr ⟨hfits, m', hruns, hf', hplaced, ?_⟩⟩
  rintro rfl w' hd hb
  exact takes_of_placed (hc.trans (h.leadsTo.trans (leadsTo_of_runs hruns))) hplaced hd hb

def pauses : Host := fun _ _ => .fail (.yield [])

/-- A coroutine that calls a function of the host. -/
def pausing : List Action :=
  [.newNative ⟨"pause", .host "pause", 0⟩, .setField ⟨0⟩ (.ofString "pause") (.native ⟨0⟩),
    .load (.calling "pause"), .newCoroutine (.closure ⟨0⟩)]

def paused : Machine := (bare ⟨4, 64, 8, 8⟩).acted pausing

/-- Nothing is open in the machine. -/
def idle : Config → Bool
  | .answer _ _ [] => true
  | _ => false

theorem ask_of_idle {host : Host} {c : Config} (h : c.idle = true) (q : Query) :
    Leads host c (ask host q c.machine []) := by
  rw [idle.eq_def] at h
  split at h
  · exact .ask q
  · cases h

/-- The values of a resumption go past the window of the frame, which has one register, and are returned. -/
theorem open_list_transferred_resumed :
    let c := steps pauses 6 (ask pauses (.resume ⟨0⟩ []) paused [])
    let vs : List Value := [.int 5, .int 6]
    let c' := ask pauses (.resume ⟨0⟩ vs) c.machine []
    ∃ f w m m', f.top = 2 ∧ Reachable pauses c ∧ Supplies pauses c c' (.resume ⟨0⟩) [] f w vs m ∧
      Runs pauses c' (.loop (.resume ⟨0⟩) m' []) ∧ m'.arena.readRange 1 2 = vs ∧ ∀ time e m'',
        (Exec.step pauses 0 m').run (serve pauses time) = some (.ok e, m'') → Returned 0 f vs m' e m'' := by
  intro c vs c'
  have hasked : Leads pauses c c' := ask_of_idle (by decide +kernel) _
  have hc : Reachable pauses c := reachable_asked pauses _ pausing _ 6
  let call : Word := .abc .call 0 (.register 1) (.register 0)
  let ret : Word := .abc .ret 0 (.register 0) (.register 0)
  have hfacts : (c.machine.heap.coroutine? ⟨0⟩).any (fun k => k.status = .suspended &&
      !c.machine.isCancelled k.token && k.parked.any fun fiber => fiber.pending = some (.call 1 none) &&
        (c.machine.enterCoroutine ⟨0⟩ { fiber with pending := none }).arena.admitsRange 1 2 &&
        !(c.machine.enterCoroutine ⟨0⟩ { fiber with pending := none }).isCancelled fiber.token &&
        fiber.calls.top?.any fun f =>
          f.last? = some call && f.word? = some ret && f.base = 1 && f.top = 2) = true := by
    decide +kernel
  simp only [Option.any_eq_true, Bool.and_eq_true, decide_eq_true_eq, Bool.not_eq_true'] at hfacts
  obtain ⟨k, hk, ⟨hstatus, halive⟩, fiber, hp, ⟨⟨hpending, hfits⟩, hgoes⟩, f, hf, ⟨⟨hlast, hword⟩, hbase⟩, htop⟩ :=
    hfacts
  have hdepth : c.machine.nativeDepth < c.machine.limits.maxNativeDepth := by decide +kernel
  have h := Supplies.resumption hasked hk hstatus halive hdepth hp hpending hf hlast
  obtain ⟨-, -, slot, wanted, hout, hsettled⟩ := open_list_transferred hc h
  obtain ⟨rfl, rfl⟩ : slot = 1 ∧ wanted = none := by
    have hout' : call.output? f.base = some (1, none) := by
      rw [hbase]
      decide
    rw [hout] at hout'
    cases hout'
    exact ⟨rfl, rfl⟩
  obtain ⟨hfull, -⟩ | ⟨-, m', hruns, hf', hplaced, htakes⟩ := hsettled
  · exact absurd hfits hfull
  refine ⟨f, call, _, m', htop, hc, h, hruns, hplaced.values, fun time e m'' hrun => ?_⟩
  have hdue : Due m' f ret := by
    refine ⟨hf', hword, ?_⟩
    rw [hplaced.only]
    exact hgoes
  have hstart : f.base + ret.a.toNat = 1 := by
    rw [hbase]
    decide
  have hret := (htakes rfl ret hdue (by decide)).ret (by decide) (Nat.le_of_eq hstart) time e m'' hrun
  rw [hstart] at hret
  exact hret

end Config
end RegisterMachine
