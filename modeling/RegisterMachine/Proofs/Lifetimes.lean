import Mathlib.Data.Nat.Init
import RegisterMachine.Proofs.Segments

/-! How long captured variables live. Brokers stay as they are, but for those that an instruction of the frame
closes and those of frames that are taken off; these are closed over what their slots hold at that moment. -/
namespace RegisterMachine

open Machine Exec

variable {host : Host}

namespace Machine

variable {m m' m'' : Machine} {f : Frame}

/-- The brokers that are there stay as they are. -/
def KeepsBrokers (m m' : Machine) : Prop :=
  ∀ r b, m.heap.brokers.get? r = some b → m'.heap.brokers.get? r = some b

theorem KeepsBrokers.of_eq (h : m'.heap.brokers = m.heap.brokers) : KeepsBrokers m m' := by
  intro r b hb
  rw [h]
  exact hb

instance : IsTrans Machine KeepsBrokers := ⟨fun _ _ _ h h' r b hb => h' r b (h r b hb)⟩

theorem keepsBrokers_load (m : Machine) (p : Prototype) : KeepsBrokers m (m.load p).2 := by
  intro r b hb
  have hlt : r.index < m.heap.brokers.items.size := (Array.getElem?_eq_some_iff.1 hb).1
  rw [(Loaded.load m p).old r hlt, hb]

theorem bears_keepsBrokers : Bears KeepsBrokers where
  refl _ _ _ hb := hb
  act m a := by
    cases a with
    | load p => exact keepsBrokers_load m p
    | _ => exact .of_eq rfl
  plain h := .of_eq (by cases h <;> rfl)
  goto _ _ := .of_eq rfl
  capture _ _ := fun r b hb => (Store.get?_alloc_of_isSome _ _ r (by rw [hb]; rfl)).trans hb
  enter _ := .of_eq rfl
  await _ _ := .of_eq rfl

/-- Frames are taken off, and their brokers are closed over what their slots hold. -/
structure Unwound (m m' : Machine) : Prop where
  arena : m'.fiber.arena = m.fiber.arena
  arenas : ∀ a x, m.heap.arenas.get? a = some x → m'.heap.arenas.get? a = some x
  closed : ∀ r v, m.heap.brokers.get? r = some (.closed v) → m'.heap.brokers.get? r = some (.closed v)
  live : ∃ gone, m.fiber.calls.frames = gone ++ m'.fiber.calls.frames ∧ ∀ r a slot,
    m.heap.brokers.get? r = some (.live a slot) → m'.heap.brokers.get? r = some (.live a slot) ∨
      (∃ f ∈ gone, r ∈ f.live.map Prod.snd) ∧ ∀ x, m.heap.arenas.get? a = some x →
        m'.heap.brokers.get? r = some (.closed (x.get slot))

instance : IsTrans Machine Unwound := ⟨by
  intro m m' m'' h h'
  obtain ⟨gone, hg, hlive⟩ := h.live
  obtain ⟨gone', hg', hlive'⟩ := h'.live
  refine ⟨h'.arena.trans h.arena, fun a x hx => h'.arenas a x (h.arenas a x hx),
    fun r v hv => h'.closed r v (h.closed r v hv), gone ++ gone', ?_, fun r a slot hr => ?_⟩
  · rw [hg, hg', List.append_assoc]
  · obtain hr' | ⟨⟨f, hf, hmem⟩, hvalue⟩ := hlive r a slot hr
    · obtain hr'' | ⟨⟨f, hf, hmem⟩, hvalue⟩ := hlive' r a slot hr'
      · exact .inl hr''
      · exact .inr ⟨⟨f, List.mem_append_right _ hf, hmem⟩, fun x hx => hvalue x (h.arenas a x hx)⟩
    · exact .inr ⟨⟨f, List.mem_append_left _ hf, hmem⟩, fun x hx => h'.closed r _ (hvalue x hx)⟩⟩

theorem Unwound.of_keepsBrokers (hf : m'.fiber = m.fiber) (hb : KeepsBrokers m m')
    (ha : ∀ a x, m.heap.arenas.get? a = some x → m'.heap.arenas.get? a = some x) : Unwound m m' :=
  ⟨by rw [hf], ha, fun r v hv => hb r _ hv, [], by rw [hf]; rfl, fun r a slot hr => .inl (hb r _ hr)⟩

theorem value_of_arena {h : Heap} {a : Ref .arena} {x : Arena} (hx : h.arenas.get? a = some x) :
    h.arena a = x := by
  rw [Heap.arena_eq, hx]
  rfl

theorem sheds_unwound : Sheds Unwound where
  refl m := .of_keepsBrokers rfl (.of_eq rfl) fun _ _ hx => hx
  act m a := by
    cases a with
    | newCoroutine entry =>
      exact .of_keepsBrokers rfl (.of_eq rfl) fun r x hx =>
        (Store.get?_alloc_of_isSome _ _ r (by rw [hx]; rfl)).trans hx
    | load p =>
      exact .of_keepsBrokers rfl (keepsBrokers_load m p) fun r x hx =>
        (congrArg (·.get? r) (Loaded.load m p).arenas).trans hx
    | _ => exact .of_keepsBrokers rfl (.of_eq rfl) fun _ _ hx => hx
  drop {m f calls} hp := by
    refine ⟨rfl, fun a x hx => ?_, fun r v hv => Heap.get?_closeBrokers_of_closed _ _ hv, [f], frames_of_pop hp,
      fun r a slot hr => ?_⟩
    · show (m.heap.closeBrokers _).arenas.get? a = some x
      rwa [arenas_closeBrokers]
    · by_cases hmem : r ∈ f.live.map Prod.snd
      · refine .inr ⟨⟨f, List.mem_singleton_self f, hmem⟩, fun x hx => ?_⟩
        rw [← value_of_arena hx]
        exact Heap.get?_closeBrokers_of_live _ hmem hr
      · exact .inl ((Heap.get?_closeBrokers_of_not_mem _ hmem).trans hr)

/-- The next step of the innermost frame closes its registers from a slot on. -/
inductive Closing (m : Machine) (f : Frame) : Nat → Prop
  | close {w : Word} : Due m f w → w.opcode? = some .close → Closing m f (f.base + w.a.toNat)
  | jump {w : Word} : Due m f w → w.opcode? = some .jmp → w.a ≠ 0 → Closing m f (f.base + w.a.toNat - 1)
  | tailCall {w : Word} {r : Ref .closure} : Due m f w → w.opcode? = some .tailCall →
      m.arena.get (f.base + w.a.toNat) = .closure r → Closing m f 0
  | ret {w : Word} : Due m f w → w.opcode? = some .ret → Closing m f 0
  /-- The code is at its end. -/
  | finish : m.frame? = some f → f.word? = none → m.isCancelled m.fiber.token = false → Closing m f 0

theorem Closing.frame {start : Nat} (h : Closing m f start) : m.frame? = some f := by
  cases h with
  | close hd _ => exact hd.frame
  | jump hd _ _ => exact hd.frame
  | tailCall hd _ _ => exact hd.frame
  | ret hd _ => exact hd.frame
  | finish hf _ _ => exact hf

theorem pop?_of_frame? (h : m.frame? = some f) : ∃ calls, m.fiber.calls.pop? = some (f, calls) := by
  obtain ⟨fs, hf⟩ := frames_of_frame? h
  have hlt : 0 < m.callDepth := by
    rw [callDepth_eq, hf]
    exact Nat.succ_pos _
  obtain ⟨g, calls, hp⟩ := pop?_of_lt hlt
  obtain rfl : f = g := Option.some.inj (h.symm.trans (frame?_of_pop hp))
  exact ⟨calls, hp⟩

/-- The machine with the brokers closed that a frame lists at or above a slot. -/
def shut (m : Machine) (f : Frame) (start : Nat) : Machine :=
  m.modifyHeap (·.closeBrokers (f.detachBrokers start).1)

end Machine

namespace Exec

variable {α : Type} {m : Machine} {f : Frame}

theorem closeFrom_shut (start : Nat) (hf : m.frame? = some f) :
    (closeFrom start m).Follows (along KeepsBrokers) (fun _ _ => True) (m.shut f start) := by
  rw [closeFrom_eq]
  simp only [hf]
  have hpart : KeepsBrokers (m.shut f start) (m.part f start) := .of_eq rfl
  exact (Along.closeSlots bears_keepsBrokers.toActs _ _ _).mono hpart

theorem popFrame_shut {k : Frame → Exec α} (fault : Option Fault) (hf : m.frame? = some f)
    (hk : ∀ f, Along KeepsBrokers α (k f)) :
    ((popFrame >>= fun f => cleanup f fault >>= fun _ => k f) m).Follows (along KeepsBrokers)
      (fun _ _ => True) (m.shut f 0) := by
  obtain ⟨calls, hp⟩ := pop?_of_frame? hf
  rw [popFrame_bind_eq]
  simp only [hp]
  rw [bind_eq, cleanup_eq]
  have hall : f.live.filter (fun p => 0 ≤ p.1) = f.live := by simp
  have hdrop : KeepsBrokers (m.shut f 0) (m.dropFrame f calls) := by
    refine .of_eq ?_
    show _ = (m.heap.closeBrokers ((f.live.filter fun p => 0 ≤ p.1).map Prod.snd)).brokers
    rw [hall]
    rfl
  exact ((Along.closeSlots bears_keepsBrokers.toActs _ _ _).bind (fun _ m' _ => hk f m') fun _ _ h => h).mono hdrop

theorem handOn_keeps (stop : Nat) (e : Option Exit) :
    Along KeepsBrokers (Option (List Value)) (handOn stop e) := by
  cases e with
  | some e => exact Along.deliver bears_keepsBrokers.toQuiets stop e
  | none => exact Along.pure bears_keepsBrokers.toActs none

theorem step_shuts {start : Nat} (h : Closing m f start) (stop : Nat) :
    (step host stop m).Follows (along KeepsBrokers) (fun _ _ => True) (m.shut f start) := by
  have hb := bears_keepsBrokers
  have hleave (vs : List Value) {m : Machine} {f : Frame} (hf : m.frame? = some f) :
      (leave vs m).Follows (along KeepsBrokers) (fun _ _ => True) (m.shut f 0) :=
    popFrame_shut none hf fun _ => Along.pure hb.toActs _
  have hskip {start : Nat} : KeepsBrokers (m.shut f start) ((m.modifyFrame Frame.skip).shut f.skip start) :=
    .of_eq rfl
  cases h with
  | @close w hd hop =>
    rw [hd.step_eq host stop hop (by decide)]
    have hrun : Opcode.run host .close w (m.modifyFrame Frame.skip) =
        closeFrom (f.base + w.a.toNat) (m.modifyFrame Frame.skip) := close_eq (f := f.skip) w hd.frame?_skip
    rw [hrun]
    exact ((closeFrom_shut _ hd.frame?_skip).mono hskip).bind (fun _ m' _ => Along.ret none (hb.refl m'))
      fun _ _ h => h
  | @jump w hd hop ha =>
    rw [hd.step_eq host stop hop (by decide)]
    have hrun : Opcode.run host .jmp w (m.modifyFrame Frame.skip) =
        (closeFrom (f.base + w.a.toNat - 1) (m.modifyFrame Frame.skip)).bind fun _ => jump w.sbx.toInt := by
      show Instruction.jumpTo w _ = _
      unfold Instruction.jumpTo
      simp only [bne_iff_ne, ne_eq, ha, not_false_eq_true, if_true, bind_eq, Exec.base, read, Step.bind,
        base_eq hd.frame?_skip]
      rfl
    rw [hrun]
    refine (((closeFrom_shut _ hd.frame?_skip).mono hskip).bind (fun _ m' _ => Along.jump hb _ m')
      fun _ _ h => h).bind (fun _ m' _ => Along.ret none (hb.refl m')) fun _ _ h => h
  | @tailCall w r hd hop hr =>
    rw [hd.step_eq host stop hop (by decide)]
    have hcallee : (m.modifyFrame Frame.skip).arena.get ((m.modifyFrame Frame.skip).base + w.a.toNat) =
        .closure r := by
      rw [base_eq hd.frame?_skip]
      exact hr
    have hrun : Opcode.run host .tailCall w (m.modifyFrame Frame.skip) = _ := tailCall_of_closure host hcallee
    have htail (count : Nat) : (Exec.tailCall r ((m.modifyFrame Frame.skip).base + w.a.toNat) count
        (m.modifyFrame Frame.skip)).Follows (along KeepsBrokers) (fun _ _ => True) (m.shut f 0) := by
      rw [Exec.tailCall, bind_eq]
      refine (popFrame_shut none hd.frame?_skip fun f => ?_).mono hskip
      exact Along.bind ((Along.closed hb.toQuiets).setSlot _ _) fun _ =>
        Along.bind ((Along.closed hb.toQuiets).writeRange _ _) fun _ => Along.pushFrame hb _ _ _ _
    rw [hrun]
    exact (htail _).bind (fun _ m' _ => Along.ret none (hb.refl m')) fun _ _ h => h
  | @ret w hd hop =>
    have hexecute : execute host w = some <$> Instruction.ret w := by simp only [execute, hop]
    rw [step_eq, bind_eq, hd.advance_eq, hexecute, map_eq_pure_bind, bind_eq, ret_eq w hd.frame?_skip]
    exact (((hleave _ hd.frame?_skip).mono hskip).bind (fun _ m' _ => Along.pure hb.toActs _ m')
      fun _ _ h => h).bind (fun e m' _ => handOn_keeps stop e m') fun _ _ h => h
  | finish hf hw ha =>
    have hfetch : fetch m = .ret none m := by simp only [fetch, hf, hw]
    have hadvance : advance host m = (some <$> leave [] : Exec (Option Exit)) m := by
      simp only [advance, bind_eq, read, Step.bind, ha, Bool.false_eq_true, if_false, hfetch]
    rw [step_eq, bind_eq, hadvance, map_eq_pure_bind, bind_eq]
    exact ((hleave [] hf).bind (fun _ m' _ => Along.pure hb.toActs _ m') fun _ _ h => h).bind
      (fun e m' _ => handOn_keeps stop e m') fun _ _ h => h

/-- An instruction that closes nothing and assigns nothing. -/
theorem run_keeps {w : Word} {op : Opcode} (hd : Due m f w) (hop : w.opcode? = some op) (hassign : op ≠ .setUpval)
    (hopen : ∀ start, ¬Closing m f start) : (op.run host w (m.modifyFrame Frame.skip)).Follows
      (along KeepsBrokers) (fun _ _ => True) (m.modifyFrame Frame.skip) := by
  have hb := bears_keepsBrokers
  cases hm : op.handlesMarks with
  | false =>
    exact Opcode.closed_run_inside (Along.closedInside hb host) hm (fun he => absurd he hassign) w _
  | true =>
    obtain rfl | rfl | rfl | rfl := Opcode.cases_of_handlesMarks hm
    · have ha : w.a = 0 := by
        by_contra ha
        exact hopen _ (.jump hd hop ha)
      have hjump : Along KeepsBrokers Unit (Instruction.jumpTo w) := by
        unfold Instruction.jumpTo
        simp only [ha, bne_self_eq_false, Bool.false_eq_true, if_false]
        exact Along.bind (Along.pure hb.toActs _) fun _ => Along.jump hb _
      exact hjump _
    · exact absurd (.close hd hop) (hopen _)
    · have hmark : Along KeepsBrokers Unit (Instruction.markForClosing w) :=
        Along.bind (Along.read hb.toActs _) fun _ => Along.modifyFrame hb fun _ _ _ => .of_eq rfl
      exact hmark _
    · have hne (r : Ref .closure) : (m.modifyFrame Frame.skip).arena.get (f.skip.base + w.a.toNat) ≠
          .closure r := fun hr => hopen 0 (.tailCall hd hop hr)
      have hrun : Opcode.run host .tailCall w (m.modifyFrame Frame.skip) = _ :=
        tailCall_of_ne host w hd.frame?_skip hne
      rw [hrun]
      exact Along.callAt hb host _ _ _ _

theorem step_keeps (stop : Nat) (hopen : ∀ f start, ¬Closing m f start) (hassign : ¬Config.Assigning m) :
    (step host stop m).Follows (along KeepsBrokers) (fun _ _ => True) m := by
  have hb := bears_keepsBrokers
  have hraise (e : Fault) (m : Machine) : ((Step.raise e m : Step (Option Exit)).bind (handOn stop)).Follows
      (along KeepsBrokers) (fun _ _ => True) m := Along.raise hb.toActs e m
  cases halive : m.isCancelled m.fiber.token with
  | true =>
    have hadvance : advance host m = .raise .cancelled m := by
      unfold advance
      rw [bind_eq]
      show (if m.isCancelled m.fiber.token = true then _ else _ : Exec _) m = _
      rw [if_pos halive]
      rfl
    rw [step_eq, bind_eq, hadvance]
    exact hraise _ m
  | false =>
    cases hf : m.frame? with
    | none =>
      have hfetch : fetch m = .raise (.runtime .noFrame) m := by simp only [fetch, hf]
      have hadvance : advance host m = .raise (.runtime .noFrame) m := by
        unfold advance
        rw [bind_eq]
        show (if m.isCancelled m.fiber.token = true then _ else _ : Exec _) m = _
        rw [if_neg (Bool.eq_false_iff.1 halive), bind_eq, hfetch]
        rfl
      rw [step_eq, bind_eq, hadvance]
      exact hraise _ m
    | some f =>
      cases hw : f.word? with
      | none => exact absurd (.finish hf hw halive) (hopen f 0)
      | some w =>
        have hd : Due m f w := ⟨hf, hw, halive⟩
        have hskip : KeepsBrokers m (m.modifyFrame Frame.skip) := .of_eq rfl
        cases hop : w.opcode? with
        | none =>
          have hexecute : execute host w = fail (.badOpcode w.code) := by simp only [execute, hop]
          rw [step_eq, bind_eq, hd.advance_eq, hexecute]
          exact (hraise _ _).mono hskip
        | some op =>
          rw [hd.step_eq host stop hop (by rintro rfl; exact hopen f 0 (.ret hd hop))]
          refine ((run_keeps hd hop ?_ (hopen f)).bind (fun _ m' _ => Along.ret none (hb.refl m'))
            fun _ _ h => h).mono hskip
          rintro rfl
          exact hassign ⟨f, w, hd, hop⟩

end Exec

namespace Ledger

variable {g g' : Ledger}

theorem mem_of_live (hb : Balanced g) (he : Edits g g') {k : Link} (hk : k ∈ g.links) {a : Ref .arena}
    {i : Nat} (hl : g'.brokers.get? k.broker = some (.live a i)) : k ∈ g'.links := by
  obtain ⟨k', hk', hr⟩ := (hb.edits he).all _ _ _ hl
  obtain hold | hnew := (Carried.edits he).old k' hk'
  · obtain rfl := List.inj_on_of_nodup_map hb.once hold hk hr
    exact hk'
  · exact absurd (Config.index_lt_of_mem hb hk) (Nat.not_lt_of_le (hr ▸ hnew))

/-- No fiber lists two brokers for one slot of one frame. -/
def Distinct (g : Ledger) : Prop :=
  ∀ u ∈ g.units, ∀ k ∈ u.2, ∀ k' ∈ u.2, k.height = k'.height → k.slot = k'.slot → k = k'

theorem Distinct.edit (h : Distinct g) (he : Edit g g') : Distinct g' := by
  cases he with
  | order hp => exact fun u hu => h u (hp.mem_iff.2 hu)
  | assign _ _ => exact h
  | discard a => exact fun u hu => h u (List.mem_cons_of_mem _ hu)
  | create =>
    intro u hu
    obtain rfl | hu := List.mem_cons.1 hu
    · exact fun k hk => nomatch hk
    · exact h u hu
  | @capture st n us a ks ks' height slot hnew hp =>
    intro u hu
    obtain rfl | hu := List.mem_cons.1 hu
    · intro k hk k' hk' hh hs
      obtain rfl | hk := List.mem_cons.1 (hp.mem_iff.1 hk) <;>
        obtain rfl | hk' := List.mem_cons.1 (hp.mem_iff.1 hk')
      · rfl
      · exact absurd hs.symm (hnew k' hk' hh.symm)
      · exact absurd hs (hnew k hk hh)
      · exact h _ List.mem_cons_self k hk k' hk' hh hs
    · exact h u (List.mem_cons_of_mem _ hu)
  | @close heap n us a ks ks' gone hp =>
    intro u hu
    obtain rfl | hu := List.mem_cons.1 hu
    · intro k hk k' hk'
      exact h _ List.mem_cons_self k (hp.mem_iff.2 (List.mem_append_right _ hk)) k'
        (hp.mem_iff.2 (List.mem_append_right _ hk'))
    · exact h u (List.mem_cons_of_mem _ hu)

theorem Distinct.edits (h : Distinct g) (he : Edits g g') : Distinct g' := by
  induction he with
  | refl => exact h
  | tail _ he ih => exact ih.edit he

end Ledger

namespace Config

open Ledger

variable {c c' : Config} {r : Ref .broker} {a : Ref .arena} {slot : Nat} {v : Value} {k : Link}

theorem Reachable.distinct (hc : Reachable host c) : Ledger.Distinct c.machine.ledger := by
  obtain ⟨limits, hc⟩ := hc
  have hinit : Reachable host (initial limits) := ⟨limits, .refl⟩
  have hempty : Ledger.Distinct (initial limits).machine.ledger := by
    intro u hu k hk
    obtain rfl := List.mem_singleton.1 hu
    cases hk
  exact hempty.edits (edits_moves hinit.scheduled (hinit.moves hc))

def KeepsOrUnwinds (m m' : Machine) : Prop := KeepsBrokers m m' ∨ Unwound m m'

def Concluding (m : Machine) : Prop := (∃ f start, Closing m f start) ∨ Assigning m

variable (host) in
theorem covers_keepsOrUnwinds : Covers host Concluding KeepsOrUnwinds where
  refl m := .inl (bears_keepsBrokers.refl m)
  act m a := .inl (bears_keepsBrokers.act m a)
  begins hb := by
    obtain h | h := hb.bears_or_sheds bears_keepsBrokers sheds_unwound
    · exact h.widen fun _ _ => .inl
    · exact h.widen fun _ _ => .inr
  step stop _ hd := (Exec.step_keeps stop (fun f start hc => hd (.inl ⟨f, start, hc⟩))
    fun ha => hd (.inr ha)).widen fun _ _ => .inl
  due stop m hd := by
    have hkeeps : (Exec.step host stop m).Follows (along KeepsBrokers) (fun _ _ => True)
        (Exec.step host stop m).machine := by
      obtain ⟨f, start, hc⟩ | ⟨f, w, hw, hop⟩ := hd
      · exact follows_self bears_keepsBrokers.toActs (Exec.step_shuts hc stop)
      · exact Exec.step_assign_follows bears_keepsBrokers.toActs stop hw hop
    exact hkeeps.widen fun _ _ => .inl

/-- The next step closes the slot of the frame. -/
def Closes (k : Link) : Config → Prop
  | .loop _ m _ => ∃ f start, Closing m f start ∧ m.fiber.arena = k.arena ∧ m.callDepth = k.height + 1 ∧
      start ≤ k.slot
  | _ => False

def Gone (k : Link) (c : Config) : Prop :=
  ∀ fiber ∈ c.machine.fibers, fiber.arena = k.arena → fiber.calls.depth ≤ k.height

/-- The next step assigns a value to a captured variable. -/
def Stores (r : Ref .broker) (v : Value) : Config → Prop
  | .loop _ m _ => ∃ f w, Due m f w ∧ w.opcode? = some .setUpval ∧
      f.closure.brokers[w.b.toNat]? = some r ∧ m.arena.get (f.base + w.a.toNat) = v
  | _ => False

variable {m m' : Machine}

theorem mem_ledger : k ∈ m.ledger.links ↔ m.Lists k := by
  rw [links_ledger]
  exact mem_links

theorem eq_of_lists {k' : Link} (hb : Ledger.Balanced m.ledger) (hk : m.Lists k) (hk' : m.Lists k')
    (hr : k.broker = k'.broker) : k = k' :=
  List.inj_on_of_nodup_map hb.once (mem_ledger.2 hk) (mem_ledger.2 hk') hr

theorem eq_of_arena {fiber fiber' : Fiber} (hb : Ledger.Balanced m.ledger) (hf : fiber ∈ m.fibers)
    (hf' : fiber' ∈ m.fibers) (ha : fiber.arena = fiber'.arena) : fiber = fiber' := by
  have hown := hb.own
  rw [ledger, List.map_map] at hown
  exact List.inj_on_of_nodup_map hown hf hf' ha

/-- A broker of a frame that was taken off was listed there. -/
theorem gone_of_unwound (hb : Ledger.Balanced m.ledger) (hb' : Ledger.Balanced c'.machine.ledger)
    (hk : m.Lists k) (h : Unwound m c'.machine)
    (hn : c'.machine.heap.brokers.get? k.broker ≠ some (.live k.arena k.slot)) : Gone k c' := by
  obtain ⟨gone, hframes, hlive⟩ := h.live
  obtain hr | ⟨⟨f, hf, hmem⟩, -⟩ := hlive _ _ _ (hb.live k (mem_ledger.2 hk))
  · exact absurd hr hn
  · obtain ⟨above, below, rfl⟩ := List.append_of_mem hf
    obtain ⟨p, hp, hr⟩ := List.mem_map.1 hmem
    have hlists : m.Lists ⟨m.fiber.arena, (below ++ c'.machine.fiber.calls.frames).length, p.1, p.2⟩ := by
      refine ⟨m.fiber, List.mem_cons_self, rfl, f, below ++ c'.machine.fiber.calls.frames, ⟨above, ?_⟩, rfl, hp⟩
      rw [hframes, List.append_assoc, List.cons_append]
    obtain rfl := eq_of_lists hb hk hlists hr.symm
    intro fiber hfiber ha
    obtain rfl := eq_of_arena hb' hfiber List.mem_cons_self (ha.trans h.arena.symm)
    show c'.machine.fiber.calls.depth ≤ (below ++ c'.machine.fiber.calls.frames).length
    rw [CallStack.depth_eq, List.length_append]
    exact Nat.le_add_left _ _

/-- What the frame lists at or above the slot is closed over what its slot holds, and all else stays. -/
theorem shut_cases {f : Frame} (start : Nat) (hr : m.heap.brokers.get? r = some (.live a slot)) :
    (m.shut f start).heap.brokers.get? r = some (.live a slot) ∨
      (∃ s, start ≤ s ∧ (s, r) ∈ f.live) ∧
        (m.shut f start).heap.brokers.get? r = some (.closed ((m.heap.arena a).get slot)) := by
  by_cases hmem : r ∈ (f.detachBrokers start).1
  · refine .inr ⟨?_, Heap.get?_closeBrokers_of_live _ hmem hr⟩
    obtain ⟨p, hp, rfl⟩ := List.mem_map.1 hmem
    obtain ⟨hp, hle⟩ := List.mem_filter.1 hp
    exact ⟨p.1, of_decide_eq_true hle, hp⟩
  · exact .inl ((Heap.get?_closeBrokers_of_not_mem _ hmem).trans hr)

theorem lists_of_frame? {f : Frame} (hf : m.frame? = some f) {p : Nat × Ref .broker} (hp : p ∈ f.live) :
    m.Lists ⟨m.fiber.arena, m.callDepth - 1, p.1, p.2⟩ := by
  obtain ⟨fs, hfs⟩ := frames_of_frame? hf
  refine ⟨m.fiber, List.mem_cons_self, rfl, f, fs, ⟨[], hfs.symm⟩, ?_, hp⟩
  rw [callDepth_eq, hfs]
  rfl

theorem arena_of_live (hb : Ledger.Balanced m.ledger) (hr : m.heap.brokers.get? r = some (.live a slot)) :
    ∃ x, m.heap.arenas.get? a = some x := by
  obtain ⟨k, hk, rfl⟩ := hb.all r a slot hr
  have ha := (hb.live k hk).symm.trans hr
  cases ha
  obtain ⟨fiber, hf, ha, -⟩ := mem_ledger.1 hk
  have hmade : k.arena.index < m.heap.arenas.items.size := by
    refine hb.made _ (List.mem_map.2 ⟨fiber.unit, List.mem_map_of_mem hf, ?_⟩)
    exact ha
  exact ⟨_, Array.getElem?_eq_getElem hmade⟩

theorem live_of_keepsOrUnwinds (hb : Ledger.Balanced m.ledger) (hb' : Ledger.Balanced c'.machine.ledger)
    (h : KeepsOrUnwinds m c'.machine) (hr : m.heap.brokers.get? r = some (.live a slot)) :
    c'.machine.heap.brokers.get? r = some (.live a slot) ∨
      c'.machine.heap.brokers.get? r = some (.closed ((m.heap.arena a).get slot)) ∧
        ∀ k, m.Lists k → k.broker = r → Gone k c' := by
  obtain h | h := h
  · exact .inl (h _ _ hr)
  · obtain ⟨x, hx⟩ := arena_of_live hb hr
    obtain ⟨gone, -, hlive⟩ := h.live
    obtain hr' | ⟨-, hvalue⟩ := hlive r a slot hr
    · exact .inl hr'
    · refine .inr ⟨?_, fun k hk hkr => gone_of_unwound hb hb' hk h ?_⟩
      · rw [value_of_arena hx]
        exact hvalue x hx
      · rw [hkr, hvalue x hx]
        exact fun h => nomatch h

/-- An assignment leaves what is live so, and gives what is closed the value. -/
theorem assign_cases {f : Frame} {w : Word} (stop : Nat) (hd : Due m f w) (hop : w.opcode? = some .setUpval) :
    (∀ r a slot, m.heap.brokers.get? r = some (.live a slot) →
      (Exec.step host stop m).machine.heap.brokers.get? r = some (.live a slot)) ∧
    ∀ r v, m.heap.brokers.get? r = some (.closed v) →
      (Exec.step host stop m).machine.heap.brokers.get? r = some (.closed v) ∨
        f.closure.brokers[w.b.toNat]? = some r ∧ (Exec.step host stop m).machine.heap.brokers.get? r =
          some (.closed (m.arena.get (f.base + w.a.toNat))) := by
  obtain ⟨-, e, he⟩ | ⟨q, hq, he⟩ := Exec.step_assign host stop hd hop <;> rw [he]
  · exact ⟨fun _ _ _ hr => hr, fun _ _ hr => .inl hr⟩
  · obtain ⟨a, slot, -, ⟨-, hs⟩ | ⟨-, hs⟩⟩ | ⟨hclosed, hs⟩ := Exec.setBroker_cases q
      (m.arena.get (f.base + w.a.toNat)) (m.modifyFrame Frame.skip) <;> rw [hs]
    · exact ⟨fun _ _ _ hr => hr, fun _ _ hr => .inl hr⟩
    · exact ⟨fun _ _ _ hr => hr, fun _ _ hr => .inl hr⟩
    · let st := m.heap.brokers.modify q fun _ => .closed (m.arena.get (f.base + w.a.toNat))
      have hother {r : Ref .broker} (hne : r ≠ q) : st.get? r = m.heap.brokers.get? r :=
        Store.get?_modify_of_ne _ (Ne.symm hne) _
      refine ⟨fun r a slot hr => ?_, fun r v hr => ?_⟩
      · refine (hother ?_).trans hr
        rintro rfl
        exact hclosed a slot hr
      · by_cases hne : r = q
        · subst hne
          refine .inr ⟨hq, ?_⟩
          show st.get? r = _
          rw [Store.get?_modify_self, hr]
          rfl
        · exact .inl ((hother hne).trans hr)

/-- From one configuration to the next a live broker stays live, unless its slot is closed or its frame has
gone; then it is closed over what its slot holds. -/
theorem live_next (hc : Reachable host c) (hl : Leads host c c')
    (hr : c.machine.heap.brokers.get? r = some (.live a slot)) :
    c'.machine.heap.brokers.get? r = some (.live a slot) ∨
      c'.machine.heap.brokers.get? r = some (.closed ((c.machine.heap.arena a).get slot)) ∧
        ∀ k, c.machine.Lists k → k.broker = r → c.Closes k ∨ Gone k c' := by
  have hb := hc.ledger_balanced
  have hb' := (hc.trans (.single hl)).ledger_balanced
  cases hc.passes (covers_keepsOrUnwinds host) hl with
  | stay h =>
    refine (live_of_keepsOrUnwinds hb hb' h hr).imp id fun ⟨hvalue, hgone⟩ => ⟨hvalue, fun k hk hkr => ?_⟩
    exact .inr (hgone k hk hkr)
  | @shift _ _ m hs h =>
    have hedits := edits_shift hc.scheduled hs
    have hheap := (Switched.shift hs).heap
    have hbrokers : m.heap.brokers = c.machine.heap.brokers := by rw [hheap]
    have harena : m.heap.arena a = c.machine.heap.arena a := by rw [Heap.arena_eq, Heap.arena_eq, hheap]
    have hr' : m.heap.brokers.get? r = some (.live a slot) := by rwa [hbrokers]
    refine (live_of_keepsOrUnwinds (hb.edits hedits) hb' h hr').imp id fun ⟨hvalue, hgone⟩ => ?_
    refine ⟨harena ▸ hvalue, fun k hk hkr => .inr (hgone k ?_ hkr)⟩
    exact mem_ledger.1 (Ledger.mem_of_live hb hedits (mem_ledger.2 hk) (hkr ▸ hr'))
  | @due p m below hd =>
    obtain ⟨f, start, hclosing⟩ | ⟨f, w, hd, hop⟩ := hd
    · have hkeeps : KeepsBrokers (m.shut f start) (Exec.step host p.stop m).machine :=
        path_machine (Exec.step_shuts hclosing p.stop)
      obtain hr' | ⟨⟨s, hs, hmem⟩, hvalue⟩ := shut_cases (f := f) start hr
      · exact .inl (hkeeps _ _ hr')
      · refine .inr ⟨hkeeps _ _ hvalue, fun k hk hkr => .inl ⟨f, start, hclosing, ?_⟩⟩
        have hlists := lists_of_frame? hclosing.frame hmem
        obtain rfl := eq_of_lists hb hk hlists hkr
        refine ⟨rfl, ?_, hs⟩
        show m.callDepth = m.callDepth - 1 + 1
        obtain ⟨fs, hfs⟩ := frames_of_frame? hclosing.frame
        rw [callDepth_eq, hfs]
        rfl
    · exact .inl ((assign_cases p.stop hd hop).1 _ _ _ hr)
  | watch hook snapshots warnings printed isSinkClosed notes => exact .inl hr

/-- A closed broker keeps its value until another is assigned to it. -/
theorem closed_next (hc : Reachable host c) (hl : Leads host c c')
    (hr : c.machine.heap.brokers.get? r = some (.closed v)) :
    c'.machine.heap.brokers.get? r = some (.closed v) ∨
      ∃ v', c.Stores r v' ∧ c'.machine.heap.brokers.get? r = some (.closed v') := by
  have hstays {m : Machine} (hr : m.heap.brokers.get? r = some (.closed v)) (h : KeepsOrUnwinds m c'.machine) :
      c'.machine.heap.brokers.get? r = some (.closed v) := h.elim (fun h => h _ _ hr) fun h => h.closed r v hr
  cases hc.passes (covers_keepsOrUnwinds host) hl with
  | stay h => exact .inl (hstays hr h)
  | shift hs h =>
    refine .inl (hstays ?_ h)
    rw [(Switched.shift hs).heap]
    exact hr
  | @due p m below hd =>
    obtain ⟨f, start, hclosing⟩ | ⟨f, w, hd, hop⟩ := hd
    · have hkeeps : KeepsBrokers (m.shut f start) (Exec.step host p.stop m).machine :=
        path_machine (Exec.step_shuts hclosing p.stop)
      exact .inl (hkeeps _ _ (Heap.get?_closeBrokers_of_closed _ _ hr))
    · refine ((assign_cases p.stop hd hop).2 _ _ hr).imp id fun ⟨hq, hvalue⟩ => ?_
      exact ⟨_, ⟨f, w, hd, hop, hq, rfl⟩, hvalue⟩
  | watch hook snapshots warnings printed isSinkClosed notes => exact .inl hr

theorem lists_next (hc : Reachable host c) (hl : Leads host c c') (hk : c.machine.Lists k) :
    c'.machine.Lists k ∨ c.Closes k ∨ Gone k c' := by
  have hedits := edits_moves hc.scheduled (hc.moves (.single hl))
  obtain hr | ⟨-, hgone⟩ := live_next hc hl (hc.ledger_balanced.live k (mem_ledger.2 hk))
  · exact .inl (mem_ledger.1 (Ledger.mem_of_live hc.ledger_balanced hedits (mem_ledger.2 hk) hr))
  · exact .inr (hgone k hk rfl)

theorem lists_of_next (hc : Reachable host c) (hl : Leads host c c')
    (hk : k.broker.index < c.machine.heap.brokers.items.size) (hk' : c'.machine.Lists k) : c.machine.Lists k := by
  obtain h | h := (hc.carried (.single hl)).old k (mem_ledger.2 hk')
  · exact mem_ledger.1 h
  · exact absurd hk (Nat.not_lt_of_le h)

theorem mem_live_of_lists {f : Frame} (hb : Ledger.Balanced m.ledger) (hf : m.frame? = some f) (hk : m.Lists k)
    (ha : m.fiber.arena = k.arena) (hd : m.callDepth = k.height + 1) : (k.slot, k.broker) ∈ f.live := by
  obtain ⟨fiber, hfiber, ha', frame, below, hs, hh, hmem⟩ := hk
  obtain rfl := eq_of_arena hb hfiber List.mem_cons_self (ha'.trans ha.symm)
  obtain ⟨fs, hfs⟩ := frames_of_frame? hf
  rw [callDepth_eq, hfs] at hd
  rw [hfs] at hs
  have hlen : (frame :: below).length = (f :: fs).length := by
    rw [List.length_cons, hh]
    exact hd.symm
  obtain ⟨rfl, -⟩ := List.cons.inj (hs.eq_of_length hlen)
  exact hmem

theorem not_lists_of_closes (hc : Reachable host c) (hl : Leads host c c') (hk : c.machine.Lists k)
    (h : c.Closes k) : ¬c'.machine.Lists k := by
  intro hk'
  have hb := hc.ledger_balanced
  have hlive := (hc.trans (.single hl)).ledger_balanced.live k (mem_ledger.2 hk')
  cases c with
  | loop p m below =>
    obtain ⟨f, start, hclosing, ha, hd, hle⟩ := h
    cases hl with
    | next hn =>
      cases hn
      have hmem := mem_live_of_lists hb hclosing.frame hk ha hd
      have hdetached : k.broker ∈ (f.detachBrokers start).1 :=
        List.mem_map.2 ⟨_, List.mem_filter.2 ⟨hmem, decide_eq_true hle⟩, rfl⟩
      have hkeeps : KeepsBrokers (m.shut f start) (Exec.step host p.stop m).machine :=
        path_machine (Exec.step_shuts hclosing p.stop)
      have hshut := hkeeps _ _ (Heap.get?_closeBrokers_of_live _ hdetached (hb.live k (mem_ledger.2 hk)))
      exact absurd (hshut.symm.trans hlive) fun h => nomatch h
  | work g s below => exact h
  | answer r m below => exact h

theorem not_lists_of_gone (h : Gone k c) : ¬c.machine.Lists k := by
  rintro ⟨fiber, hf, ha, frame, below, hs, hh, -⟩
  have hlen := hs.length_le
  have hdepth := h fiber hf ha
  rw [fiber.calls.depth_eq, ← hh] at hdepth
  exact absurd (Nat.lt_of_succ_le hlen) (Nat.not_lt_of_le hdepth)

variable {run : Nat → Config} {n : Nat}

theorem reachable_run (h₀ : Reachable host (run 0)) (hrun : ∀ i, i < n → Leads host (run i) (run (i + 1))) {i : Nat}
    (hi : i ≤ n) : Reachable host (run i) := by
  induction i with
  | zero => exact h₀
  | succ i ih => exact (ih (Nat.le_of_succ_le hi)).trans (.single (hrun i hi))

/-- What is listed at one time is so at a later one, when its frame is still there, if and only if nothing has
closed it and the frame has never gone. -/
theorem lists_between (h₀ : Reachable host (run 0)) (hrun : ∀ i, i < n → Leads host (run i) (run (i + 1)))
    {i j : Nat} (hj : j ≤ n) (hij : i ≤ j) (hk : (run i).machine.Lists k) (hstays : ¬Gone k (run j)) :
    (run j).machine.Lists k ↔ ∀ d, i ≤ d → d < j → ¬(run d).Closes k ∧ ¬Gone k (run d) := by
  have hreach {d : Nat} (hd : d ≤ j) : Reachable host (run d) := reachable_run h₀ hrun (Nat.le_trans hd hj)
  have hlead {d : Nat} (hd : d < j) : Leads host (run d) (run (d + 1)) := hrun d (Nat.lt_of_lt_of_le hd hj)
  constructor
  · intro hkj
    have hknown {d : Nat} (hid : i ≤ d) (hdj : d ≤ j) :
        k.broker.index < (run d).machine.heap.brokers.items.size := by
      induction d, hid using Nat.le_induction with
      | base => exact index_lt_of_mem (hreach hdj).ledger_balanced (mem_ledger.2 hk)
      | succ d hid ih =>
        exact Nat.lt_of_lt_of_le (ih (Nat.le_of_succ_le hdj))
          ((hreach (Nat.le_of_succ_le hdj)).carried (.single (hlead hdj))).size
    have hlists {d : Nat} (hdj : d ≤ j) (hid : i ≤ d) : (run d).machine.Lists k := by
      induction hdj using Nat.decreasingInduction with
      | self => exact hkj
      | of_succ d hdj ih =>
        exact lists_of_next (hreach (Nat.le_of_lt hdj)) (hlead hdj) (hknown hid (Nat.le_of_lt hdj))
          (ih (Nat.le_succ_of_le hid))
    intro d hid hdj
    have hkd := hlists (Nat.le_of_lt hdj) hid
    refine ⟨fun hcl => ?_, fun hgone => not_lists_of_gone hgone hkd⟩
    exact not_lists_of_closes (hreach (Nat.le_of_lt hdj)) (hlead hdj) hkd hcl
      (hlists hdj (Nat.le_succ_of_le hid))
  · intro hopen
    have hlists {d : Nat} (hid : i ≤ d) (hdj : d ≤ j) : (run d).machine.Lists k := by
      induction d, hid using Nat.le_induction with
      | base => exact hk
      | succ d hid ih =>
        obtain h | h | h := lists_next (hreach (Nat.le_of_succ_le hdj)) (hlead hdj) (ih (Nat.le_of_succ_le hdj))
        · exact h
        · exact absurd h (hopen d hid hdj).1
        · obtain hdj | rfl := Nat.lt_or_eq_of_le hdj
          · exact absurd h (hopen (d + 1) (Nat.le_succ_of_le hid) hdj).2
          · exact absurd h hstays
    exact hlists hij (Nat.le_refl j)

/-- What is closed keeps its value for as long as none is assigned to it. -/
theorem closed_between (h₀ : Reachable host (run 0)) (hrun : ∀ i, i < n → Leads host (run i) (run (i + 1)))
    {i j : Nat} (hj : j ≤ n) (hij : i ≤ j) (hr : (run i).machine.heap.brokers.get? r = some (.closed v))
    (hkept : ∀ d, i ≤ d → d < j → ∀ v', ¬(run d).Stores r v') :
    (run j).machine.heap.brokers.get? r = some (.closed v) := by
  induction j, hij using Nat.le_induction with
  | base => exact hr
  | succ j hij ih =>
    have hr' := ih (Nat.le_of_succ_le hj) fun d hid hdj => hkept d hid (Nat.lt_succ_of_lt hdj)
    obtain h | ⟨v', h, -⟩ := closed_next (reachable_run h₀ hrun (Nat.le_of_succ_le hj)) (hrun j hj) hr'
    · exact h
    · exact absurd h (hkept j hij (Nat.lt_succ_self j) v')

end Config
end RegisterMachine
