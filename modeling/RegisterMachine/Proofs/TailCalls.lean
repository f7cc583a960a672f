import RegisterMachine.Proofs.Depths
import RegisterMachine.Proofs.Parameters

/-! Calls in tail position. The frame that makes one is closed off completely, its handlers run on the frames
below it alone, and then the called function has a frame in the same place, with the arguments that were
read first. So the frames never get more by such calls, however many there are. -/
namespace RegisterMachine

open Machine Exec

namespace Heap

theorem closeBrokers_eq (h : Heap) (rs : List (Ref .broker)) :
    h.closeBrokers rs = { h with brokers := (h.closeBrokers rs).brokers } := by
  induction rs generalizing h with
  | nil => rfl
  | cons r rs ih =>
    rw [closeBrokers, ih]
    rfl

theorem get?_closeBroker_of_closed (h : Heap) (r : Ref .broker) {q : Ref .broker} {v : Value}
    (hq : h.brokers.get? q = some (.closed v)) : (h.closeBroker r).brokers.get? q = some (.closed v) := by
  by_cases hr : r = q
  · subst hr
    rw [closeBroker]
    simp only [Store.get?_modify_self, hq, Option.map_some, brokerValue]
  · rw [get?_closeBroker_of_ne h (Ne.symm hr), hq]

theorem get?_closeBrokers_of_closed (h : Heap) (rs : List (Ref .broker)) {q : Ref .broker} {v : Value}
    (hq : h.brokers.get? q = some (.closed v)) : (h.closeBrokers rs).brokers.get? q = some (.closed v) := by
  induction rs generalizing h with
  | nil => exact hq
  | cons r rs ih => exact ih _ (get?_closeBroker_of_closed h r hq)

/-- A broker that is closed keeps the value of its slot. -/
theorem get?_closeBrokers_of_live (h : Heap) {rs : List (Ref .broker)} {q : Ref .broker}
    {a : Ref .arena} {i : Nat} (hm : q ∈ rs) (hq : h.brokers.get? q = some (.live a i)) :
    (h.closeBrokers rs).brokers.get? q = some (.closed ((h.arena a).get i)) := by
  induction rs generalizing h with
  | nil => cases hm
  | cons r rs ih =>
    rw [closeBrokers]
    by_cases hr : r = q
    · subst hr
      refine get?_closeBrokers_of_closed _ rs ?_
      rw [closeBroker]
      simp only [Store.get?_modify_self, hq, Option.map_some, brokerValue]
    · refine ih (h.closeBroker r) ((List.mem_cons.1 hm).resolve_left (Ne.symm hr)) ?_
      rw [get?_closeBroker_of_ne h (Ne.symm hr), hq]

end Heap

namespace Machine

variable {m m' : Machine}

def KeepsClosures (m m' : Machine) : Prop :=
  ∀ r k, m.heap.closures.get? r = some k → m'.heap.closures.get? r = some k

theorem KeepsClosures.of_eq (h : m'.heap.closures = m.heap.closures) : KeepsClosures m m' := by
  intro r k hk
  rwa [h]

theorem KeepsClosures.alloc {c : Closure} (h : m'.heap.closures = (m.heap.closures.alloc c).2) :
    KeepsClosures m m' := by
  intro r k hk
  rw [h, Store.get?_alloc_of_isSome _ _ _ (by rw [hk]; rfl), hk]

theorem keepsClosures_load (m : Machine) (p : Prototype) : KeepsClosures m (m.load p).2 := by
  have hfold : ∀ {g : Array (Ref .broker) × Heap → Nat → Array (Ref .broker) × Heap},
      (∀ s n, (g s n).2.closures = s.2.closures) → ∀ (ns : List Nat) s,
        (ns.foldl g s).2.closures = s.2.closures := by
    intro g hg ns
    induction ns with
    | nil => exact fun _ => rfl
    | cons n ns ih => exact fun s => (ih (g s n)).trans (hg s n)
  obtain ⟨s, hs, hload⟩ : ∃ s : Array (Ref .broker) × Heap, s.2.closures = m.heap.closures ∧
      (m.load p).2.heap.closures = (s.2.closures.alloc ⟨p, s.1⟩).2 := by
    refine ⟨_, ?_, rfl⟩
    refine hfold ?_ _ (#[], m.heap)
    exact fun _ _ => rfl
  rw [hs] at hload
  exact .alloc hload

theorem keepsClosures_quiet (h : Quiet m m') : KeepsClosures m m' := by
  cases h with
  | closure c => exact .alloc rfl
  | act a =>
    cases a with
    | load p => exact keepsClosures_load m p
    | _ => exact .of_eq rfl
  | _ => exact .of_eq rfl

theorem keepsClosures_change (h : Change m m') : KeepsClosures m m' := by
  cases h with
  | quiet h => exact keepsClosures_quiet h
  | touch h =>
    cases h with
    | part start _ => exact .of_eq (by rw [part, modifyHeap, Heap.closeBrokers_eq]; rfl)
    | _ => exact .of_eq rfl
  | enter h =>
    cases h
    exact .of_eq rfl
  | drop h =>
    cases h
    exact .of_eq (by rw [dropFrame, modifyHeap, Heap.closeBrokers_eq]; rfl)
  | await _ _ => exact .of_eq rfl

end Machine

namespace Config

theorem keepsClosures_moves {st st' : List (Ref .coroutine) × Machine} (h : Moves st st') :
    KeepsClosures st.2 st'.2 := by
  induction h with
  | refl => exact .of_eq rfl
  | tail _ hm ih =>
    refine fun r k hk => ?_
    have hk := ih r k hk
    cases hm with
    | change hc => exact keepsClosures_change hc r k hk
    | shift hs => exact KeepsClosures.of_eq (by rw [(Switched.shift hs).heap]) r k hk
    | watch _ _ _ _ _ _ => exact hk

end Config

namespace Exec

variable {host : Host} {time : Nat} {l : List (Ref .coroutine)} {m m' : Machine}

/-- A sequence comes to a result when its parts do. -/
theorem ok_of_bind_run {α β : Type} {server : Server} {x : Exec α} {k : α → Exec β} {b : β}
    (h : ((x >>= k) m).run server = some (.ok b, m')) :
    ∃ a m₁, (x m).run server = some (.ok a, m₁) ∧ (k a m₁).run server = some (.ok b, m') := by
  rw [run_bind] at h
  obtain ⟨e, m₁, -, h⟩ | ⟨a, m₁, hx, hk⟩ := Outcome.andThen_eq_some h
  · cases h
  · exact ⟨a, m₁, hx, hk⟩

theorem ret_of_write_run {server : Server} (op : Arena.Op)
    (h : (write op m).run server = some (.ok (), m')) : write op m = .ret () m' := by
  unfold write at h ⊢
  split at h <;> cases h
  rename_i hf
  rw [if_pos hf]

/-- Whatever opening a frame comes to is known at once. -/
theorem ret_of_pushFrame_run {server : Server} {r : Ref .closure} {start count : Nat}
    {wanted : Option Nat} (h : (pushFrame r start count wanted m).run server = some (.ok (), m')) :
    pushFrame r start count wanted m = .ret () m' := by
  obtain ⟨m₁, -, hr | ⟨-, hr⟩⟩ := pushFrame_cases r start count wanted m <;> rw [hr] at h ⊢ <;> cases h
  rfl

/-- The frame of a called function has taken the place of another one. Before that, all that the other frame
held open was closed, and its handlers ran on the frames below. -/
structure Replaced (host : Host) (time : Nat) (r : Ref .closure) (args : List Value) (calls : CallStack)
    (f f' : Frame) (m cleared m' : Machine) : Prop where
  brokers : ∀ p ∈ f.live,
    (m.dropFrame f calls).heap.brokers.get? p.2 = some (.closed (m.arena.get p.1))
  parted : ∀ p ∈ f.live, ∀ a i, m'.heap.brokers.get? p.2 ≠ some (.live a i)
  handlers : ((Script.closeValues .nil none (f.marks.toList.reverse.map m.arena.get)).exec
    (m.dropFrame f calls)).run (serve host time) = some (.ok (), cleared)
  below : cleared.fiber.calls = calls
  calls : m'.fiber.calls = calls.push f'
  closure : f'.closure = cleared.heap.closure r
  target : f'.target = f.target
  base : f'.base = f.returnSlot + 1
  start : f'.pc = 0
  marks : f'.marks = #[]
  live : f'.live = []
  top : m'.fiber.top = f'.top
  callee : m'.arena.get f.returnSlot = .closure r
  parameters : f'.Receives args
    ((cleared.arena.put f.returnSlot (.closure r)).putRange f'.base args) m'.arena

theorem pop?_push (calls : CallStack) (f : Frame) : (calls.push f).pop? = some (f, calls) := rfl

theorem Replaced.callDepth_eq {r : Ref .closure} {args : List Value} {calls : CallStack}
    {f f' : Frame} {cleared : Machine} (h : Replaced host time r args calls f f' m cleared m')
    (hp : m.fiber.calls.pop? = some (f, calls)) : m'.callDepth = m.callDepth := by
  have hp' : m'.fiber.calls.pop? = some (f', calls) := by rw [h.calls, pop?_push]
  rw [callDepth_of_pop hp, callDepth_of_pop hp']

theorem arena_dropFrame (m : Machine) (f : Frame) (calls : CallStack) :
    (m.dropFrame f calls).arena = m.arena := by
  show (Heap.closeBrokers _ _).arena _ = _
  rw [Heap.arena, arenas_closeBrokers]
  rfl

/-- A call in tail position replaces the frame. -/
theorem replaced_of_tailCall {r : Ref .closure} {start count : Nat} {f : Frame} {calls : CallStack}
    (hl : Ledger.Balanced m.ledger) (hs : Scheduled l m) (hp : m.fiber.calls.pop? = some (f, calls))
    (h : (tailCall r start count m).run (serve host time) = some (.ok (), m')) :
    ∃ f' cleared, Replaced host time r (m.arena.readRange (start + 1) count) calls f f' m cleared m' ∧
      Config.Moves (l, m.dropFrame f calls) (l, cleared) := by
  unfold tailCall at h
  obtain ⟨args, m₀, hread, h⟩ := ok_of_bind_run h
  obtain ⟨ha, rfl⟩ : m.arena.readRange (start + 1) count = args ∧ m = m₀ := by
    cases hread
    exact ⟨rfl, rfl⟩
  have hlen : args.length = count := by rw [← ha, Arena.length_readRange]
  rw [popFrame_bind_eq, hp] at h
  obtain ⟨_, cleared, hcleanup, h⟩ := ok_of_bind_run h
  obtain ⟨_, m₂, hput, h⟩ := ok_of_bind_run h
  obtain ⟨_, m₃, hrange, hpush⟩ := ok_of_bind_run h
  rw [cleanup_eq] at hcleanup
  -- the handlers leave the frames below as they are
  have hdrop : Change m (m.dropFrame f calls) := .drop (.intro hp)
  have hclear := holds_closeSlots (stable_at (m.dropFrame f calls) (m.dropFrame f calls).callDepth)
    f.marks.toList.reverse .nil _ ⟨.refl _, rfl⟩
  obtain ⟨⟨hat, -⟩, hmoves⟩ := Config.moves_of_follows hclear (hs.same (.change hdrop)) hcleanup
  have hat : cleared.fiber.calls = calls := hat.1.calls_eq hat.2
  -- writing and opening the frame ask for nothing
  obtain ⟨hfit, rfl, ha₂⟩ := write_ret _ (ret_of_write_run (.put f.returnSlot (.closure r)) hput)
  obtain ⟨hfits, rfl, ha₃⟩ := write_ret _ (ret_of_write_run (.putRange (f.returnSlot + 1) args) hrange)
  have hpush := ret_of_pushFrame_run hpush
  generalize hm₃ : Machine.modifyArena _ _ = m₃ at hpush ha₃
  obtain ⟨hfiber, -⟩ := pushFrame_ret hpush
  have hreceives := receives_of_pushFrame hpush
  have hplaced : m₃.arena = (cleared.arena.put f.returnSlot (.closure r)).putRange (f.returnSlot + 1) args := by
    rw [ha₃, ha₂]
    rfl
  have hread : m₃.arena.readRange (f.returnSlot + 1) count = args := by
    rw [ha₃, ← hlen]
    exact Arena.readRange_putRange hfits
  rw [hread, hplaced] at hreceives
  rw [ha]
  refine ⟨newFrame m₃ r f.returnSlot count f.wanted, cleared, ?_, hmoves⟩
  constructor
  · intro p hmem
    exact Heap.get?_closeBrokers_of_live _ (List.mem_map_of_mem hmem)
      (hl.live _ (Config.mem_live_of_pop hp hmem))
  · intro p hmem
    obtain ⟨m₄, hquiet, hr | ⟨henter, hr⟩⟩ := pushFrame_cases r f.returnSlot count f.wanted m₃
    · rw [hpush] at hr
      cases hr
    · rw [hpush] at hr
      cases hr
      have hwrite : Changes cleared m₃ := by
        rw [← hm₃]
        exact (Relation.ReflTransGen.single (.quiet (.write _ hfit))).tail (.quiet (.write _ hfits))
      have hpath : Changes cleared _ := (hwrite.trans (hquiet.lift id fun _ _ => .quiet)).tail (.enter henter)
      exact Config.not_live_of_drop hl hs hp (hmoves.trans (Config.moves_of_changes l hpath)) hmem
  · rw [← hcleanup, ← arena_dropFrame m f calls]
    rfl
  · exact hat
  · rw [hfiber, ← hm₃]
    exact congrArg (CallStack.push · _) hat
  · rw [← hm₃]
    rfl
  · rfl
  · rfl
  · rfl
  · rfl
  · rfl
  · rw [hfiber]
  · rw [hreceives.outside _ (.inl (Nat.lt_succ_self _))]
    rw [ha₂] at hfits
    have hget := Arena.get_putRange hfits f.returnSlot
    rw [if_neg (by omega)] at hget
    exact hget.trans (Arena.get_put hfit _)
  · exact hreceives

/-- An instruction other than a return leaves its frame where it is, unless it fails. -/
theorem run_of_step {server : Server} {stop : Nat} {f : Frame} {w : Word} {e : Option (List Value)}
    (hf : m.frame? = some f) (hw : f.word? = some w) (hret : w.opcode? ≠ some .ret)
    (h : (step host stop m).run server = some (.ok e, m')) :
    e = none ∧ ∃ op, w.opcode? = some op ∧
      (op.run host w (m.modifyFrame Frame.skip)).run server = some (.ok (), m') := by
  have hfetch : fetch m = .ret (some w) (m.modifyFrame Frame.skip) := by
    simp only [fetch, hf, hw]
  unfold step at h
  obtain ⟨cancelled, m₁, hread, h⟩ := ok_of_bind_run h
  obtain rfl : m = m₁ := by
    cases hread
    rfl
  cases cancelled with
  | true => cases h
  | false =>
    obtain ⟨w', m₂, hw', h⟩ := ok_of_bind_run h
    rw [hfetch] at hw'
    cases hw'
    obtain ⟨left, m₃, hexecute, h⟩ := ok_of_bind_run h
    generalize hx : execute host w = x at hexecute
    unfold execute at hx
    split at hx <;> subst hx
    · cases hexecute
    · rename_i hop
      exact absurd hop hret
    · rename_i op _ hop
      obtain ⟨_, m₄, hrun, hnone⟩ := ok_of_bind_run hexecute
      cases hnone
      cases h
      exact ⟨rfl, op, hop, hrun⟩

/-- The number of values in a list at a slot: it is given, or they reach up to the top. -/
def listCount (m : Machine) (b : UInt8) (start : Nat) : Nat :=
  if b = 0 then m.fiber.top - start else b.toNat - 1

theorem listLength_eq (b : UInt8) (start : Nat) (m : Machine) :
    Instruction.listLength b start m = .ret (listCount m b start) m := by
  unfold Instruction.listLength listCount
  split <;> rfl

theorem tailCall_of_closure (host : Host) {w : Word} {r : Ref .closure}
    (h : m.arena.get (m.base + w.a.toNat) = .closure r) : Instruction.tailCall host w m =
      tailCall r (m.base + w.a.toNat) (listCount m w.b (m.base + w.a.toNat + 1)) m := by
  unfold Instruction.tailCall
  simp only [bind_eq, base, read, Step.bind, listLength_eq, slot, h]

structure TailCallDue (m : Machine) (f : Frame) (calls : CallStack) (w : Word) (r : Ref .closure) : Prop where
  frame : m.fiber.calls.pop? = some (f, calls)
  word : f.word? = some w
  opcode : w.opcode? = some .tailCall
  callee : m.arena.get (f.base + w.a.toNat) = .closure r

theorem frame?_of_pop {f : Frame} {calls : CallStack} (h : m.fiber.calls.pop? = some (f, calls)) :
    m.frame? = some f := frame?_of_frames (frames_of_pop h)

theorem pop?_modifyTop (g : Frame → Frame) {f : Frame} {s calls : CallStack}
    (h : s.pop? = some (f, calls)) : (s.modifyTop g).pop? = some (g f, calls) := by
  obtain ⟨_ | ⟨f, fs⟩, n, hn⟩ := s
  · cases h
  · cases h
    rfl

theorem replaced_of_step {f : Frame} {calls : CallStack} {w : Word} {r : Ref .closure} {stop : Nat}
    {e : Option (List Value)} (hl : Ledger.Balanced m.ledger) (hs : Scheduled l m)
    (hd : TailCallDue m f calls w r) (h : (step host stop m).run (serve host time) = some (.ok e, m')) :
    e = none ∧ ∃ f' cleared, KeepsClosures m cleared ∧
      Replaced host time r
        (m.arena.readRange (f.base + w.a.toNat + 1) (listCount m w.b (f.base + w.a.toNat + 1)))
        calls f f' m cleared m' := by
  obtain ⟨rfl, op, hop, hrun⟩ := run_of_step (frame?_of_pop hd.frame) hd.word (by
    rw [hd.opcode]
    exact fun h => nomatch h) h
  rw [hd.opcode] at hop
  cases hop
  refine ⟨rfl, ?_⟩
  generalize hm₁ : m.modifyFrame Frame.skip = m₁ at hrun
  have hp : m₁.fiber.calls.pop? = some (f.skip, calls) := by
    rw [← hm₁]
    exact pop?_modifyTop Frame.skip hd.frame
  have hbase : m₁.base = f.base := by
    rw [Machine.base, frame?_of_pop hp]
    rfl
  have harena : m₁.arena = m.arena := by
    rw [← hm₁]
    rfl
  have htop : m₁.fiber.top = m.fiber.top := by
    rw [← hm₁]
    rfl
  have hmove : Config.Moves (l, m) (l, m₁) := by
    rw [← hm₁]
    exact .single (.change (.touch (.goto fun f => f.pc + 1)))
  have hledger : Ledger.Balanced m₁.ledger := hl.edits (Config.edits_moves hs hmove)
  have hcallee : m₁.arena.get (m₁.base + w.a.toNat) = .closure r := by
    rw [hbase, harena, hd.callee]
  change (Instruction.tailCall host w m₁).run _ = _ at hrun
  rw [tailCall_of_closure host hcallee, hbase] at hrun
  obtain ⟨f', cleared, hr, hmoves⟩ :=
    replaced_of_tailCall hledger (Config.scheduled_moves hs hmove) hp hrun
  rw [harena] at hr
  have hcount : listCount m₁ w.b (f.base + w.a.toNat + 1) = listCount m w.b (f.base + w.a.toNat + 1) := by
    rw [listCount, listCount, htop]
  rw [hcount] at hr
  refine ⟨f', cleared, ?_, ?_⟩
  · have hdrop : Change m₁ (m₁.dropFrame f.skip calls) := .drop (.intro hp)
    exact Config.keepsClosures_moves ((hmove.tail (.change hdrop)).trans hmoves)
  subst hm₁
  exact ⟨hr.brokers, hr.parted, hr.handlers, hr.below, hr.calls, hr.closure, hr.target, hr.base, hr.start, hr.marks,
    hr.live, hr.top, hr.callee, hr.parameters⟩

/-- A frame that runs an instruction at the end of which the depth is the same has kept its target, and all
frames below it are as they were. -/
theorem innermost_of_run {f : Frame} {calls : CallStack} {op : Opcode} {w : Word} (hs : Scheduled l m)
    (hp : m.fiber.calls.pop? = some (f, calls))
    (h : (op.run host w m).run (serve host time) = some (.ok (), m')) (hd : m'.callDepth = m.callDepth) :
    (∃ f', m'.fiber.calls.pop? = some (f', calls) ∧ f'.target = f.target) ∧ Config.Moves (l, m) (l, m') := by
  let b : Machine := m.modifyFiber fun fiber => { fiber with calls }
  have hframes := frames_of_pop hp
  have hdepth : m.callDepth = calls.depth + 1 := callDepth_of_pop hp
  have hdeep : Deep b m := by
    refine ⟨⟨rfl, ⟨[f], hframes.symm⟩, rfl, rfl, rfl⟩, ?_⟩
    rw [hdepth]
    exact Nat.lt_succ_self _
  obtain ⟨hkept, hmoves⟩ := Config.moves_of_follows
    (Opcode.closed_run (keeps_closedInFrame host b) op w m hdeep) hs h
  have haims := (Config.moves_of_follows
    (Opcode.closed_run (aims_closedInFrame host m.targets) op w m (List.suffix_refl _)) hs h).1
  obtain ⟨f', fs, hf', hsuffix⟩ := Above.cons (show Deep b m' from hkept)
  have hlen : fs.length = calls.frames.length := by
    rw [callDepth_eq, hf', List.length_cons, hdepth, calls.depth_eq] at hd
    exact Nat.succ.inj hd
  obtain rfl : calls.frames = fs := hsuffix.eq_of_length hlen.symm
  have hcalls : m'.fiber.calls = calls.push f' := CallStack.eq_of_frames hf'
  refine ⟨⟨f', by rw [hcalls, pop?_push], ?_⟩, hmoves⟩
  have htargets : m.targets = m'.targets := by
    refine List.IsSuffix.eq_of_length (show m.targets <:+ m'.targets from haims) ?_
    rw [length_targets, length_targets, hd]
  rw [targets, targets, hframes, hf'] at htargets
  exact (List.cons.inj htargets).1.symm

/-- Steps of the loop, with the number of closures called in tail position. The other steps are
instructions that do not return, and after which there are as many frames as before. -/
inductive Loops (host : Host) (stop : Nat) : Nat → Machine → Machine → Prop
  | refl (m : Machine) : Loops host stop 0 m m
  | tailCall {n : Nat} {m m₁ m₂ : Machine} {f : Frame} {calls : CallStack} {w : Word}
      {r : Ref .closure} (time : Nat) : Loops host stop n m m₁ → TailCallDue m₁ f calls w r →
      (step host stop m₁).run (serve host time) = some (.ok none, m₂) → Loops host stop (n + 1) m m₂
  | other {n : Nat} {m m₁ m₂ : Machine} {f : Frame} {w : Word} (time : Nat) :
      Loops host stop n m m₁ → m₁.frame? = some f → f.word? = some w → w.opcode? ≠ some .ret →
      (step host stop m₁).run (serve host time) = some (.ok none, m₂) → m₂.callDepth = m₁.callDepth →
      Loops host stop n m m₂

theorem innermost_of_step {f : Frame} {calls : CallStack} {w : Word} {stop : Nat}
    {e : Option (List Value)} (hs : Scheduled l m) (hp : m.fiber.calls.pop? = some (f, calls))
    (hw : f.word? = some w) (hret : w.opcode? ≠ some .ret)
    (h : (step host stop m).run (serve host time) = some (.ok e, m')) (hd : m'.callDepth = m.callDepth) :
    (∃ f', m'.fiber.calls.pop? = some (f', calls) ∧ f'.target = f.target) ∧ Config.Moves (l, m) (l, m') := by
  obtain ⟨-, op, -, hrun⟩ := run_of_step (frame?_of_pop hp) hw hret h
  have hmove : Config.Move (l, m) (l, m.modifyFrame Frame.skip) :=
    .change (.touch (.goto fun f => f.pc + 1))
  have hd : m'.callDepth = (m.modifyFrame Frame.skip).callDepth := by
    rw [hd]
    exact (depth_modifyTop _ _).symm
  obtain ⟨⟨f', hf', ht⟩, hmoves⟩ := innermost_of_run (Config.scheduled_move hs hmove)
    (pop?_modifyTop Frame.skip hp) hrun hd
  exact ⟨⟨f', hf', ht⟩, hmoves.head hmove⟩

/-- However many closures are called, the depth, the target and the frames below are the same. -/
theorem innermost_of_loops {f : Frame} {calls : CallStack} {stop n : Nat} (hl : Ledger.Balanced m.ledger)
    (hs : Scheduled l m) (hp : m.fiber.calls.pop? = some (f, calls)) (h : Loops host stop n m m') :
    (∃ f', m'.fiber.calls.pop? = some (f', calls) ∧ f'.target = f.target) ∧ Config.Moves (l, m) (l, m') := by
  induction h with
  | refl m => exact ⟨⟨f, hp, rfl⟩, .refl⟩
  | @tailCall n m m₁ m₂ g calls' w r time _ hdue hstep ih =>
    obtain ⟨⟨f', hf', ht⟩, hmoves⟩ := ih hl hs hp
    have hs₁ := Config.scheduled_moves hs hmoves
    have hl₁ := hl.edits (Config.edits_moves hs hmoves)
    obtain ⟨rfl, rfl⟩ : f' = g ∧ calls = calls' := by
      simpa using hf'.symm.trans hdue.frame
    obtain ⟨-, _, _, -, hr⟩ := replaced_of_step hl₁ hs₁ hdue hstep
    obtain ⟨⟨f₂, hf₂, ht₂⟩, hmoves₂⟩ :=
      innermost_of_step hs₁ hf' hdue.word (by simp [hdue.opcode]) hstep (hr.callDepth_eq hf')
    exact ⟨⟨f₂, hf₂, ht₂.trans ht⟩, hmoves.trans hmoves₂⟩
  | @other n m m₁ m₂ g w time _ hg hw hret hstep hd ih =>
    obtain ⟨⟨f', hf', ht⟩, hmoves⟩ := ih hl hs hp
    obtain rfl : f' = g := by
      simpa using (frame?_of_pop hf').symm.trans hg
    obtain ⟨⟨f₂, hf₂, ht₂⟩, hmoves₂⟩ :=
      innermost_of_step (Config.scheduled_moves hs hmoves) hf' hw hret hstep hd
    exact ⟨⟨f₂, hf₂, ht₂.trans ht⟩, hmoves.trans hmoves₂⟩

end Exec

namespace Config

/-- A call in tail position closes its frame and puts the called one in its place, with its target and above the same
frames. So it is after any number of such calls. -/
theorem tail_call_replaces {host : Host} {p : Purpose} {m m' : Machine} {below : List Level} {f : Frame}
    {calls : CallStack} {w : Word} {r : Ref .closure} {k : Closure} {time : Nat}
    {e : Option (List Value)} (hc : Reachable host (.loop p m below)) (hd : TailCallDue m f calls w r)
    (hk : m.heap.closures.get? r = some k)
    (h : (step host p.stop m).run (serve host time) = some (.ok e, m')) :
    let start := f.base + w.a.toNat
    let args := m.arena.readRange (start + 1) (listCount m w.b (start + 1))
    e = none ∧
    (∃ f' cleared, f'.closure = k ∧ Replaced host time r args calls f f' m cleared m') ∧
    m'.callDepth = m.callDepth ∧
    ∀ n m'', Loops host p.stop n m m'' → m''.callDepth = m.callDepth ∧
      ∃ f'', m''.fiber.calls.pop? = some (f'', calls) ∧ f''.target = f.target := by
  have hs : Scheduled _ m := hc.scheduled
  have hl : Ledger.Balanced m.ledger := hc.ledger_balanced
  obtain ⟨rfl, f', cleared, hkept, hr⟩ := replaced_of_step hl hs hd h
  refine ⟨rfl, ⟨f', cleared, ?_, hr⟩, hr.callDepth_eq hd.frame, fun n m'' hloops => ?_⟩
  · have hget := hkept r k hk
    rw [hr.closure, Heap.closure, Store.getD, Array.getD_eq_getD_getElem?]
    rw [Store.get?] at hget
    rw [hget, Option.getD_some]
  · obtain ⟨⟨f'', hf'', ht⟩, -⟩ := innermost_of_loops hl hs hd.frame hloops
    refine ⟨?_, f'', hf'', ht⟩
    rw [callDepth_of_pop hf'', callDepth_of_pop hd.frame]

/-- Captures its argument in a closure, and calls that in tail position. -/
def captureAndCall : Prototype where
  name := "outer"
  source := "outer"
  params := 1
  code := #[.abx .closure 1 0, .abc .tailCall 1 (.register 1) (.register 0)]
  children := [{ name := "inner", source := "outer", captures := #[⟨"x", true, 0⟩] }]

/-- The captured argument is kept in the broker when the call replaces the frame. -/
theorem tail_call_replaces_captured :
    let host : Host := fun _ _ => .done []
    let m := (steps host 4 (ask host (.call (.closure ⟨0⟩) [.int 5])
      ((bare ⟨4, 64, 8, 8⟩).load captureAndCall).2 [])).machine
    ∃ f calls m', m.fiber.calls.pop? = some (f, calls) ∧
      (step host 0 m).run (serve host 9) = some (.ok none, m') ∧ m'.callDepth = 1 ∧
      (m.dropFrame f calls).heap.brokers.get? ⟨0⟩ = some (.closed (.int 5)) := by
  intro host m
  have hc : Reachable host (.loop (.call 0 0) m []) :=
    reachable_asked host ⟨4, 64, 8, 8⟩ [.load captureAndCall] (.call (.closure ⟨0⟩) [.int 5]) 4
  obtain ⟨f, calls, hp⟩ : ∃ f calls, m.fiber.calls.pop? = some (f, calls) := ⟨_, _, rfl⟩
  obtain ⟨m', h⟩ : ∃ m', (step host 0 m).run (serve host 9) = some (.ok none, m') := by
    have hok : ((step host 0 m).run (serve host 9)).bind (fun p => p.1.toOption) = some none := by
      decide +kernel
    obtain ⟨⟨_ | e, m'⟩, hrun, he⟩ := Option.bind_eq_some_iff.1 hok <;> cases he
    exact ⟨m', hrun⟩
  have hf : f = (m.frame?.getD default) := by
    rw [frame?_of_pop hp]
    rfl
  have hd : TailCallDue m f calls (.abc .tailCall 1 (.register 1) (.register 0)) ⟨1⟩ := by
    refine ⟨hp, ?_, by decide, ?_⟩
    · rw [hf]
      rfl
    · rw [hf]
      rfl
  obtain ⟨-, ⟨f', cleared, -, hr⟩, hdepth, -⟩ := tail_call_replaces (p := .call 0 0) hc hd rfl h
  refine ⟨f, calls, m', hp, h, hdepth, ?_⟩
  exact hr.brokers (1, ⟨0⟩) (by rw [hf]; decide +kernel)

end Config
end RegisterMachine
