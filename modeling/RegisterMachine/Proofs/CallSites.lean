import RegisterMachine.Proofs.Homes
import RegisterMachine.Proofs.TailCalls

/-! Call sites. A frame that waits for the one on top of it has last fetched an instruction that calls, and
the frame on top has its target from there; so it is while the frames run, and while they are parked in a
coroutine, where it is the innermost frame that waits. -/
namespace RegisterMachine

open Machine

namespace Word

def wanted (w : Word) : Option Nat := if w.c = 0 then none else some (w.c.toNat - 1)

/-- The target of a call by an instruction. -/
def target? (w : Word) (base : Nat) : Option Target :=
  match w.opcode? with
  | some .call => some (base + w.a.toNat, w.wanted)
  | some .tailCall => some (base + w.a.toNat, none)
  | some .tforCall => some (base + w.a.toNat + 3, some w.c.toNat)
  | _ => none

end Word

namespace Frame

def last? (f : Frame) : Option Word := if f.pc = 0 then none else f.prototype.code[f.pc - 1]?

def calling? (f : Frame) : Option Target := f.last?.bind fun w => w.target? f.base

@[simp] theorem last?_skip (f : Frame) : f.skip.last? = f.word? := by
  simp only [last?, skip, word?, Nat.add_one_ne_zero, if_false, Nat.add_sub_cancel]
  rfl

end Frame

/-- Frames on top of a number of others, each of which was called by the one below it. -/
def Linked (stop : Nat) : List Frame → Prop
  | [] => True
  | g :: fs => stop < fs.length → (∃ f, fs.head? = some f ∧ f.calling? = some g.target) ∧ Linked stop fs

section

variable {stop : Nat} {f g : Frame} {fs : List Frame}

theorem linked_of_length_le (h : fs.length ≤ stop + 1) : Linked stop fs := by
  cases fs with
  | nil => trivial
  | cons g fs =>
    intro hlt
    rw [List.length_cons] at h
    omega

theorem Linked.tail (h : Linked stop (g :: fs)) : Linked stop fs := by
  by_cases hlt : stop < fs.length
  · exact (h hlt).2
  · exact linked_of_length_le (by omega)

theorem Linked.replace (h : Linked stop (f :: fs)) (ht : g.target = f.target) : Linked stop (g :: fs) := by
  intro hlt
  rw [ht]
  exact h hlt

theorem Linked.push (h : Linked stop fs) (hf : fs.head? = some f) (hc : f.calling? = some g.target) :
    Linked stop (g :: fs) := fun _ => ⟨⟨f, hf, hc⟩, h⟩

end

namespace Machine

variable {stop : Nat} {t : Target} {m m' : Machine} {f : Frame}

def Sited (stop : Nat) (m : Machine) : Prop := Linked stop m.fiber.calls.frames

def Calling (stop : Nat) (t : Target) (m : Machine) : Prop :=
  m.Sited stop ∧ ∃ f, m.frame? = some f ∧ f.calling? = some t

theorem stable_calls (P : CallStack → Prop) : Stable fun m => P m.fiber.calls where
  quiet hq h := by
    rw [hq.calls_eq]
    exact h
  balanced hb h := by
    rw [hb.fiber]
    exact h

theorem stable_calling (stop : Nat) (t : Target) : Stable (Calling stop t) :=
  stable_calls fun calls => Linked stop calls.frames ∧ ∃ f, calls.top? = some f ∧ f.calling? = some t

/-- A change of the innermost frame concerns neither its target nor the other frames. -/
theorem Touch.frames_eq (h : Touch m m') : m'.fiber.calls.frames = m.fiber.calls.frames ∨
    ∃ f f' fs, m.fiber.calls.frames = f :: fs ∧ m'.fiber.calls.frames = f' :: fs ∧
      f'.target = f.target := by
  have hmodify {g : Frame → Frame} (hg : ∀ f, m.frame? = some f → (g f).target = f.target) :
      (m.fiber.calls.modifyTop g).frames = m.fiber.calls.frames ∨
        ∃ f f' fs, m.fiber.calls.frames = f :: fs ∧ (m.fiber.calls.modifyTop g).frames = f' :: fs ∧
          f'.target = f.target := by
    cases hm : m.fiber.calls.frames with
    | nil =>
      left
      rw [← List.length_eq_zero_iff, ← CallStack.depth_eq] at hm ⊢
      rw [depth_modifyTop, hm]
    | cons f fs =>
      exact .inr ⟨f, g f, fs, rfl, frames_modifyTop g hm, hg f (frame?_of_frames hm)⟩
  cases h with
  | goto g => exact hmodify fun _ _ => rfl
  | mark slot => exact hmodify fun _ _ => rfl
  | capture hf hb => exact hmodify fun _ _ => rfl
  | @part f start hf =>
    refine hmodify (g := fun _ => ((f.detachBrokers start).2.takeMarks start).2) fun f' hf' => ?_
    rw [hf] at hf'
    cases hf'
    rfl

theorem steady_sited (stop : Nat) : Exec.Steady (Sited stop) where
  toStable := stable_calls fun calls => Linked stop calls.frames
  touch ht h := by
    obtain heq | ⟨f, f', fs, hm, hm', ht⟩ := ht.frames_eq
    · rw [Sited, heq]
      exact h
    · rw [Sited, hm] at h
      rw [Sited, hm']
      exact h.replace ht

end Machine

namespace Exec

variable {host : Host} {stop : Nat} {m : Machine}

/-- What the frames are like when a computation in one of them is over. A yield leaves the innermost frame
with a call that waits for values. -/
def Siting (stop : Nat) {α : Type} : Except Fault α → Machine → Prop
  | .ok _, m => m.Sited stop
  | .error f, m => f.isYield = true → ∃ slot wanted, m.fiber.pending = some (.call slot wanted) ∧
      m.Calling stop (slot, wanted)

/-- A computation in a frame that keeps the frames in order. -/
def Sites (stop : Nat) (α : Type) (x : Exec α) : Prop :=
  ∀ m, m.Sited stop → (x m).Follows (floor fun _ => True) (Siting stop) m

theorem siting_of_noYield {α : Type} {r : Except Fault α} (h : m.Sited stop) (hr : NoYield r) :
    Siting stop r m := by
  cases r with
  | ok a => exact h
  | error f =>
    intro hy
    rw [hr.of_error] at hy
    cases hy

namespace Sites

variable {α β : Type}

theorem of_holds {x : Exec α} (hx : Holds (Machine.Sited stop) α x) : Sites stop α x :=
  fun m hm => (hx m hm).imp _ (fun _ _ => trivial) fun _ _ h => siting_of_noYield h.1 h.2

theorem bind {x : Exec α} {f : α → Exec β} (hx : Sites stop α x) (hf : ∀ a, Sites stop β (f a)) :
    Sites stop β (x >>= f) := by
  intro m hm
  rw [bind_eq]
  exact (hx m hm).bind (fun a m' h => hf a m' h) fun _ _ h => h

theorem raise (hm : m.Sited stop) {f : Fault} (hf : f.isYield = false) :
    (Step.raise f m : Step α).Follows (floor fun _ => True) (Siting stop) m :=
  ⟨.refl, siting_of_noYield hm (noYield_error hf)⟩

theorem closedWithin (stop : Nat) : ClosedWithin 0 (Sites stop) :=
  (steady_sited stop).closedWithin of_holds bind

end Sites

def BegunFrom (J : Machine → Prop) (t : Target) : Except Fault (Option (List Value)) → Machine → Prop
  | .ok none, m => ∃ m₁ f, J m₁ ∧ m = m₁.enterFrame f ∧ f.target = t
  | _, m => J m

theorem begin_from {J : Machine → Prop} (hJ : Stable J) (start count : Nat) (wanted : Option Nat)
    (h : J m) : (begin host start count wanted m).Follows (floor fun _ => True)
      (BegunFrom J (start, wanted)) m := by
  unfold begin
  rw [bind_eq]
  have hresolve := ((Holds.closed hJ).resolveAlong maxCallLinks start count m h).imp (fun _ => True)
    (fun _ _ => trivial) fun _ _ h => h.1
  refine hresolve.bind (fun p m₁ h₁ => ?_) fun f m₁ h₁ => h₁
  obtain ⟨r | r, count⟩ := p
  · dsimp only
    rw [bind_eq]
    obtain ⟨m₂, hq, hr⟩ := pushFrame_cases r start count wanted m₁
    have hpath : Changes m₁ m₂ := hq.lift id fun _ _ => .quiet
    have h₂ : J m₂ := hJ.path hq h₁
    obtain hr | ⟨henter, hr⟩ := hr <;> rw [hr]
    · exact ⟨hpath, h₂⟩
    · exact ⟨hpath.tail (.enter henter), m₂, newFrame m₁ r start count wanted, h₂, rfl, rfl⟩
  · dsimp only
    simp only [map_eq_pure_bind, bind_eq, readRange, read, Step.bind]
    have hnative := (invokeNative_follows hJ host r (m₁.arena.readRange (start + 1) count) h₁).imp
      (fun _ => True) (fun _ _ => trivial) fun _ _ h => h
    exact hnative.bind (fun vs m₂ h₂ => ⟨.refl, h₂⟩) fun f m₂ h₂ => h₂

theorem callFault_sites {start : Nat} {wanted : Option Nat} (f : Fault)
    (h : m.Calling stop (start, wanted)) :
    (callFault start wanted f m).Follows (floor fun _ => True) (Siting stop) m := by
  unfold callFault
  split
  · rename_i vs
    rw [bind_eq]
    show (Step.Follows _ _ _ ((if _ then _ else _ : Exec Unit) m))
    split
    · exact Sites.raise h.1 rfl
    · split
      · exact Sites.raise h.1 rfl
      · rename_i hy
        have hy : m.fiber.isYieldable = true := by simpa using hy
        exact ⟨.single (.await _ hy), fun _ => ⟨start, wanted, rfl, h⟩⟩
  · rename_i hf
    exact Sites.raise h.1 (Fault.isYield_of_ne hf)

theorem callAt_sites (start count : Nat) (wanted : Option Nat) (h : m.Calling stop (start, wanted)) :
    (callAt host start count wanted m).Follows (floor fun _ => True) (Siting stop) m := by
  have hJ := stable_calling stop (start, wanted)
  have houtcome : (callOutcome host start count wanted m).Follows (floor fun _ => True)
      (fun r m' => match r with
        | .ok _ => m'.Sited stop
        | .error _ => m'.Calling stop (start, wanted)) m := by
    unfold callOutcome
    rw [bind_eq]
    refine (begin_from hJ start count wanted h).bind (fun results m₁ h₁ => ?_) fun f m₁ h₁ => h₁
    cases results with
    | none =>
      obtain ⟨m₂, g, ⟨hs, f, hf, hc⟩, rfl, ht⟩ := h₁
      exact ⟨.refl, hs.push hf (hc.trans (congrArg some ht.symm))⟩
    | some vs =>
      refine ((Holds.closed hJ).placeResults start wanted vs m₁ h₁).imp (fun _ => True)
        (fun _ _ => trivial) fun r m₂ h₂ => ?_
      cases r with
      | ok _ => exact h₂.1.1
      | error f => exact h₂.1
  rw [callAt_eq]
  refine houtcome.handle fun result m₁ h₁ => ?_
  cases result with
  | ok _ => exact ⟨.refl, h₁⟩
  | error f => exact callFault_sites f h₁

/-- A frame that goes leaves those below it as they are. -/
theorem drop_sites {f : Frame} {calls : CallStack} (fault : Option Fault)
    (hp : m.fiber.calls.pop? = some (f, calls)) :
    (cleanup f fault (m.modifyFiber fun fiber => { fiber with calls })).Follows (floor fun _ => True)
      (fun r m' => m'.fiber.calls = calls ∧ NoYield r) m := by
  rw [cleanup_eq]
  have hslots := holds_closeSlots (stable_calls (· = calls)) f.marks.toList.reverse
    ((fault.map Fault.payload).getD .nil) (m.dropFrame f calls) rfl
  exact (hslots.imp (fun _ => True) (fun _ _ => trivial) fun _ _ h => h).mono (.single (.drop (.intro hp)))

theorem leave_sites (vs : List Value) (h : m.Sited stop) :
    (leave vs m).Follows (floor fun _ => True) (fun r m' => m'.Sited stop ∧ NoYield r) m := by
  unfold leave
  rw [popFrame_bind_eq]
  cases hp : m.fiber.calls.pop? with
  | none => exact ⟨.refl, h, noYield_error rfl⟩
  | some p =>
    obtain ⟨f, calls⟩ := p
    rw [Machine.Sited, frames_of_pop hp] at h
    have hrest {m' : Machine} (hm' : m'.fiber.calls = calls) : m'.Sited stop := by
      rw [Machine.Sited, hm']
      exact h.tail
    dsimp only
    rw [bind_eq]
    exact (drop_sites none hp).bind (fun _ m' h' => ⟨.refl, hrest h'.1, noYield_ok _⟩) fun e m' h' =>
      ⟨hrest h'.1, noYield_error h'.2.of_error⟩

theorem sites_tailCall (r : Ref .closure) (start count : Nat) : Sites stop Unit (tailCall r start count) := by
  intro m h
  unfold tailCall
  rw [bind_eq]
  show ((popFrame >>= _) m).Follows _ _ _
  rw [popFrame_bind_eq]
  cases hp : m.fiber.calls.pop? with
  | none => exact Sites.raise h rfl
  | some p =>
    obtain ⟨f, calls⟩ := p
    rw [Machine.Sited, frames_of_pop hp] at h
    have hc := Holds.closed (stable_calls (· = calls))
    have hrest {m' : Machine} (hm' : m'.fiber.calls = calls) : m'.Sited stop := by
      rw [Machine.Sited, hm']
      exact h.tail
    have hwrite : Holds (fun m => m.fiber.calls = calls) Unit (do
        setSlot f.returnSlot (.closure r)
        writeRange (f.returnSlot + 1) (m.arena.readRange (start + 1) count)) :=
      hc.bind (hc.setSlot _ _) fun _ => hc.writeRange _ _
    have hpush : Step.Follows (floor fun _ => True) (Siting stop) m ((do
        cleanup f none
        (do
          setSlot f.returnSlot (.closure r)
          writeRange (f.returnSlot + 1) (m.arena.readRange (start + 1) count))
        pushFrame r f.returnSlot count f.wanted : Exec Unit)
          (m.modifyFiber fun fiber => { fiber with calls })) := by
      rw [bind_eq]
      refine (drop_sites none hp).bind (fun _ m₁ h₁ => ?_) fun e m₁ h₁ =>
        siting_of_noYield (hrest h₁.1) (noYield_error h₁.2.of_error)
      rw [bind_eq]
      refine ((hwrite m₁ h₁.1).imp (fun _ => True) (fun _ _ => trivial) fun _ _ h => h).bind
        (fun _ m₂ h₂ => ?_) fun e m₂ h₂ =>
          siting_of_noYield (hrest h₂.1) (noYield_error h₂.2.of_error)
      obtain ⟨m₃, hq, hr⟩ := pushFrame_cases r f.returnSlot count f.wanted m₂
      have hpath : Changes m₂ m₃ := hq.lift id fun _ _ => .quiet
      have h₃ : m₃.fiber.calls = calls := (stable_calls (· = calls)).path hq h₂.1
      obtain hr | ⟨henter, hr⟩ := hr <;> rw [hr]
      · exact ⟨hpath, siting_of_noYield (hrest h₃) (noYield_error rfl)⟩
      · refine ⟨hpath.tail (.enter henter), ?_⟩
        show Linked stop (_ :: m₃.fiber.calls.frames)
        rw [h₃]
        exact h.replace rfl
    simp only [bind_assoc] at hpush
    exact hpush

theorem base_eq {f : Frame} (h : m.frame? = some f) : m.base = f.base := by
  rw [Machine.base, h]

theorem call_eq {f : Frame} (host : Host) (w : Word) (h : m.frame? = some f) :
    Instruction.call host w m = callAt host (f.base + w.a.toNat)
      (listCount m w.b (f.base + w.a.toNat + 1)) w.wanted m := by
  unfold Instruction.call
  simp only [bind_eq, base, read, Step.bind, listLength_eq, base_eq h]
  rfl

theorem close_eq {f : Frame} (w : Word) (h : m.frame? = some f) :
    Instruction.close w m = closeFrom (f.base + w.a.toNat) m := by
  unfold Instruction.close
  simp only [bind_eq, base, read, Step.bind, base_eq h]

theorem ret_eq {f : Frame} (w : Word) (h : m.frame? = some f) : Instruction.ret w m =
    leave (m.arena.readRange (f.base + w.a.toNat) (listCount m w.b (f.base + w.a.toNat))) m := by
  unfold Instruction.ret
  simp only [bind_eq, base, readRange, read, Step.bind, listLength_eq, base_eq h]

theorem tailCall_of_ne {f : Frame} (host : Host) (w : Word) (hf : m.frame? = some f)
    (hne : ∀ r, m.arena.get (f.base + w.a.toNat) ≠ .closure r) :
    Instruction.tailCall host w m = callAt host (f.base + w.a.toNat)
      (listCount m w.b (f.base + w.a.toNat + 1)) none m := by
  unfold Instruction.tailCall
  simp only [bind_eq, Exec.base, Exec.read, Step.bind, listLength_eq, slot, base_eq hf]

theorem frame?_modifyFrame {f : Frame} (g : Frame → Frame) (h : m.frame? = some f) :
    (m.modifyFrame g).frame? = some (g f) := by
  obtain ⟨fs, hm⟩ := frames_of_frame? h
  rw [frame?, CallStack.top?]
  exact congrArg List.head? (frames_modifyTop g hm)

/-- The instructions that call do so with the target that the word behind the frame says. -/
theorem run_sites {f : Frame} {w : Word} {op : Opcode} (h : m.Sited stop) (hf : m.frame? = some f)
    (hw : f.last? = some w) (hop : w.opcode? = some op) :
    (op.run host w m).Follows (floor fun _ => True) (Siting stop) m := by
  have hbase := base_eq hf
  have hcalling {t : Target} (ht : w.target? f.base = some t) : m.Calling stop t :=
    ⟨h, f, hf, by rw [Frame.calling?, hw, Option.bind_some, ht]⟩
  cases hc : op.calls with
  | false =>
    exact Opcode.closed_run_apart (Sites.closedWithin stop)
      (fun slot => .of_holds ((steady_sited stop).modifyFrame fun _ => .mark slot))
      (fun start => .of_holds ((steady_sited stop).closeFrom start)) hc
      (fun _ r v => .of_holds (Holds.setBroker (steady_sited stop).toStable r v)) w m h
  | true =>
    obtain rfl | rfl | rfl := Opcode.cases_of_calls hc
    · show (Instruction.call host w m).Follows _ _ _
      rw [call_eq host w hf]
      exact callAt_sites _ _ _ (hcalling (by rw [Word.target?, hop]))
    · show (Instruction.tailCall host w m).Follows _ _ _
      unfold Instruction.tailCall
      simp only [bind_eq, base, read, slot, Step.bind, listLength_eq, hbase]
      have ht := hcalling (by rw [Word.target?, hop])
      cases m.arena.get (f.base + w.a.toNat) with
      | closure r => exact sites_tailCall _ _ _ m h
      | _ => exact callAt_sites _ _ _ ht
    · show (Instruction.genericCall host w m).Follows _ _ _
      unfold Instruction.genericCall
      simp only [bind_eq, base, readRange, read, Step.bind, hbase]
      have ht := hcalling (by rw [Word.target?, hop])
      have hJ := stable_calling stop (f.base + w.a.toNat + 3, some w.c.toNat)
      have hwrite := ((Holds.closed hJ).writeRange (f.base + w.a.toNat + 3)
        (m.arena.readRange (f.base + w.a.toNat) 3) m ht).imp (fun _ => True) (fun _ _ => trivial)
          fun _ _ h => h
      exact hwrite.bind (fun _ m₁ h₁ => callAt_sites _ 2 _ h₁.1) fun e m₁ h₁ =>
        siting_of_noYield h₁.1.1 (noYield_error h₁.2.of_error)

theorem ret_sites (w : Word) (h : m.Sited stop) :
    (Instruction.ret w m).Follows (floor fun _ => True) (fun r m' => m'.Sited stop ∧ NoYield r) m := by
  unfold Instruction.ret
  simp only [bind_eq, base, readRange, read, Step.bind, listLength_eq]
  exact leave_sites _ h

theorem map_exit_sites {x : Exec Exit} (hx : (x m).Follows (floor fun _ => True)
    (fun r m' => m'.Sited stop ∧ NoYield r) m) :
    ((some <$> x) m).Follows (floor fun _ => True) (Siting stop) m := by
  rw [map_eq_pure_bind, bind_eq]
  exact hx.bind (fun _ _ h => ⟨.refl, h.1⟩) fun _ _ h => siting_of_noYield h.1 (noYield_error h.2.of_error)

theorem execute_sites {f : Frame} {w : Word} (h : m.Sited stop) (hf : m.frame? = some f)
    (hw : f.last? = some w) :
    (execute host w m).Follows (floor fun _ => True) (Siting stop) m := by
  generalize hx : execute host w = x
  unfold execute at hx
  split at hx <;> subst hx
  · exact Sites.raise h rfl
  · exact map_exit_sites (ret_sites w h)
  · rename_i op _ hop
    rw [bind_eq]
    exact (run_sites h hf hw hop).bind (fun _ m₁ h₁ => ⟨.refl, h₁⟩) fun _ _ h₁ => h₁

theorem advance_sites (host : Host) (h : m.Sited stop) :
    (advance host m).Follows (floor fun _ => True) (Siting stop) m := by
  unfold advance
  rw [bind_eq]
  show (Step.Follows _ _ _ ((if m.isCancelled m.fiber.token = true then _ else _ : Exec _) m))
  split
  · exact Sites.raise h rfl
  · rw [bind_eq]
    unfold fetch
    cases hf : m.frame? with
    | none => exact Sites.raise h rfl
    | some f =>
      dsimp only
      cases hw : f.word? with
      | none => exact map_exit_sites (leave_sites [] h)
      | some w =>
        have hskip : Touch m (m.modifyFrame Frame.skip) := .goto fun f => f.pc + 1
        have hf' := frame?_modifyFrame Frame.skip hf
        exact (execute_sites ((steady_sited stop).touch hskip h) hf' (by rw [f.last?_skip, hw])).mono
          (.single (.touch hskip))

theorem step_sites (host : Host) (depth : Nat) (h : m.Sited stop) :
    (step host depth m).Follows (floor fun _ => True) (Siting stop) m := by
  have hc := Holds.closed (steady_sited stop).toStable
  rw [step_eq, bind_eq]
  refine (advance_sites host h).bind (fun e m₁ h₁ => ?_) fun _ _ h₁ => h₁
  cases e with
  | none => exact ⟨.refl, h₁⟩
  | some e =>
    show (deliver depth e m₁).Follows _ _ _
    rw [deliver_eq]
    split
    · exact ⟨.refl, h₁⟩
    · exact Sites.of_holds (hc.bind (hc.placeResults _ _ _) fun _ => hc.pure _) m₁ h₁

end Exec

/-- The frames of a fiber were called one by the other, and the innermost one makes the call that is to be
given values. -/
def Fiber.Sited (fiber : Fiber) : Prop :=
  Linked 0 fiber.calls.frames ∧ ∀ slot wanted, fiber.pending = some (.call slot wanted) →
    ∃ f, fiber.calls.top? = some f ∧ f.calling? = some (slot, wanted)

theorem Fiber.sited_of_empty {fiber : Fiber} (h : fiber.calls.frames = [])
    (hp : ∀ slot wanted, fiber.pending ≠ some (.call slot wanted)) : fiber.Sited :=
  ⟨by rw [h]; trivial, fun slot wanted hw => absurd hw (hp slot wanted)⟩

namespace Machine

variable {m m' : Machine}

def Resting (m : Machine) : Prop := ∀ co fiber, m.heap.held co = some fiber → fiber.Sited

theorem Resting.of_held (h : m.Resting)
    (hh : ∀ co fiber, m'.heap.held co = some fiber → m.heap.held co = some fiber) : m'.Resting :=
  fun co fiber hf => h co fiber (hh co fiber hf)

theorem Resting.of_coroutines (h : m.Resting) (hc : m'.heap.coroutines = m.heap.coroutines) :
    m'.Resting := by
  refine h.of_held fun co fiber hf => ?_
  rw [Heap.held, Heap.coroutine?, hc] at hf
  exact hf

theorem Resting.create (h : m.Resting) (entry : Callee) : (m.newCoroutine entry).2.Resting := by
  intro co fiber hf
  change Option.bind (m.heap.coroutines.items.push _)[co.index]? _ = some fiber at hf
  rw [Array.getElem?_push] at hf
  split at hf
  · cases hf
    exact Fiber.sited_of_empty rfl fun _ _ h => nomatch h
  · exact h co fiber hf

theorem Resting.change (h : m.Resting) (hc : Change m m') : m'.Resting := by
  cases hc with
  | quiet hq =>
    cases hq with
    | act a =>
      cases a with
      | newCoroutine entry => exact h.create entry
      | load p => exact h.of_coroutines (Loaded.load _ p).coroutines
      | setCoroutineMetatable r metatable =>
        refine h.of_held fun co fiber hf => ?_
        rwa [← m.heap.held_modify (r := r) (f := fun c => { c with metatable }) (fun _ => rfl)]
      | _ => exact h.of_coroutines rfl
    | _ => exact h.of_coroutines rfl
  | touch ht =>
    cases ht with
    | part start _ => exact h.of_coroutines (coroutines_closeBrokers _ _)
    | _ => exact h.of_coroutines rfl
  | enter he =>
    cases he
    exact h.of_coroutines rfl
  | drop hd =>
    cases hd
    exact h.of_coroutines (coroutines_closeBrokers _ _)
  | await p _ => exact h.of_coroutines rfl

theorem Resting.changes (h : m.Resting) (hc : Changes m m') : m'.Resting := by
  induction hc with
  | refl => exact h
  | tail _ hc ih => exact ih.change hc

end Machine

open Exec

def Stage.Sites : {α : Type} → Stage α → Except Fault α → Machine → Prop
  | _, .run p _, .ok none, m => m.Sited p.stop
  | _, .run (.resume _) _, .error f, m => f.isYield = true → m.fiber.Sited
  | _, _, _, _ => True

def Level.Sites (l : Level) : Prop := ∀ r m, Balanced l.machine m ∧ NoYield r →
  (l.next r m).Follows (floor fun _ => True) l.stage.Sites m

namespace Config

/-- The frames of all runs were called one by the other. -/
def Sites : Config → Prop
  | .work g s below => s.Follows (floor fun _ => True) g.Sites s.machine ∧ ∀ l ∈ below, l.Sites
  | .loop p m below => m.Sited p.stop ∧ ∀ l ∈ below, l.Sites
  | .answer _ _ below => ∀ l ∈ below, l.Sites

/-- The frames of all fibers were called one by the other. -/
def Ordered (c : Config) : Prop := c.Sites ∧ c.machine.Resting

variable {host : Host} {m : Machine} {below : List Level} {α : Type} {c c' : Config}

theorem ordered_work {g : Stage α} {s : Step α} (hs : s.Follows (floor fun _ => True) g.Sites m)
    (hm : m.Resting) (hb : ∀ l ∈ below, l.Sites) : (Config.work g s below).Ordered := by
  refine ⟨⟨?_, hb⟩, hm.changes (changes_of_follows hs)⟩
  cases s with
  | ret a _ => exact ⟨.refl, hs.2⟩
  | raise f _ => exact ⟨.refl, hs.2⟩
  | ask q _ k => exact ⟨.refl, hs.2⟩

theorem resting_finished (co : Ref .coroutine) (hm : m.Resting) :
    (m.leaving.setStatus co .dead).Resting :=
  hm.of_held fun q fiber hf => by rwa [held_setStatus, held_leaving] at hf

theorem ordered_leave {p : Purpose} {guarded : Bool} {r : Except Fault (List Value)}
    (hs : (Stage.run p guarded).Sites (r.map some) m) (hm : m.Resting) (hb : ∀ l ∈ below, l.Sites) :
    (leave p r m below).Ordered := by
  cases p with
  | call stop top => exact ⟨hb, hm.of_coroutines rfl⟩
  | resume co =>
    cases r with
    | ok vs => exact ⟨hb, resting_finished co hm⟩
    | error f =>
      obtain ⟨vs, rfl⟩ | hf := f.yield_or
      · refine ⟨hb, fun q fiber hf => ?_⟩
        change ((m.leaving.park co (some m.fiber)).setStatus co .suspended).heap.held q = some fiber at hf
        rw [held_setStatus] at hf
        obtain ⟨-, hf⟩ | ⟨-, hf⟩ := held_park _ co q hf
        · cases hf
          exact hs rfl
        · rw [held_leaving] at hf
          exact hm q fiber hf
      · refine ⟨hb, ?_⟩
        rw [leave, leaveCoroutine_error co m hf]
        exact resting_finished co hm

theorem unwind_sites {p : Purpose} {f : Fault} (hs : (Stage.run p true).Sites (.error f) m) :
    ((Exec.unwind p.stop f m).bind .raise).Follows (floor fun _ => True) (Stage.run p false).Sites m := by
  have hraise {f' : Fault} {m' : Machine} (hf : f'.isYield = false) :
      (Stage.run p false).Sites (.error f') m' := by
    cases p with
    | call stop top => trivial
    | resume co =>
      intro hy
      rw [hf] at hy
      cases hy
  obtain ⟨vs, rfl⟩ | hf := f.yield_or
  · refine ⟨.refl, ?_⟩
    cases p with
    | call stop top => trivial
    | resume co => exact hs
  · rw [unwind_eq p.stop hf]
    have hd : m.callDepth = m.callDepth - (m.callDepth - p.stop) + (m.callDepth - p.stop) := by omega
    refine (unwindFrames_takenOff _ _ (Fault.settled_locate m f) ((isYield_locate m f).trans hf) hd).bind ?_ ?_
    · exact fun e m' h' => ⟨.refl, hraise h'.2.2⟩
    · exact fun _ _ h' => h'.elim

theorem siting_run {p : Purpose} {guarded : Bool} {r : Except Fault (Option (List Value))}
    (h : Siting p.stop r m) : (Stage.run p guarded).Sites r m := by
  obtain f | _ | vs := r
  · cases p with
    | call stop top => trivial
    | resume co =>
      intro hy
      obtain ⟨slot, wanted, hp, hs, f', hf, hc⟩ := h hy
      refine ⟨hs, fun slot' wanted' hp' => ?_⟩
      rw [hp] at hp'
      cases hp'
      exact ⟨f', hf, hc⟩
  · exact h
  · trivial

/-- The first frame of a run needs no call. -/
theorem ordered_begin (start count : Nat) (hm : m.Resting) (hb : ∀ l ∈ below, l.Sites) :
    (Config.work (.run (.call m.callDepth m.fiber.top) false)
      (Exec.begin host start count none m.enterCall) below).Ordered := by
  refine ordered_work (m := m.enterCall) ?_ (hm.of_coroutines rfl) hb
  refine ((begin_follows host start count none (b := m.enterCall) ⟨.refl _, rfl⟩).imp (fun _ => True)
    (fun _ _ => trivial) fun r m' h' => ?_)
  obtain f | _ | vs := r
  · trivial
  · refine linked_of_length_le ?_
    rw [← callDepth_eq, h'.2]
    exact Nat.le_refl _
  · trivial

theorem ordered_finish {g : Stage α} {r : Except Fault α} (hs : g.Sites r m) (hm : m.Resting)
    (hb : ∀ l ∈ below, l.Sites) : (finish host g r m below).Ordered := by
  cases g with
  | place start count =>
    cases r with
    | ok _ => exact ordered_begin start count hm hb
    | error f => exact ⟨hb, hm⟩
  | run p guarded =>
    obtain f | _ | vs := r
    · cases guarded with
      | true => exact ordered_work (unwind_sites hs) hm hb
      | false => exact ordered_leave (r := .error f) hs hm hb
    · exact ⟨⟨hs, hb⟩, hm⟩
    · have hs : (Stage.run p false).Sites ((Except.ok vs).map some) m := by cases p <;> trivial
      exact ordered_leave hs hm hb
  | close co token =>
    cases r with
    | ok failure =>
      refine ⟨hb, hm.of_held fun q fiber hf => ?_⟩
      change (m.switchBack.endClosing co token failure).2.heap.held q = some fiber at hf
      rwa [held_endClosing, heap_switchBack] at hf
    | error f =>
      have hback : m.switchBack.heap.coroutines = m.heap.coroutines := by rw [heap_switchBack]
      exact ⟨hb, hm.of_coroutines hback⟩

theorem stable_bottom : Stable fun m => m.fiber.calls.frames = [] :=
  stable_calls fun calls => calls.frames = []

/-- A native function that is the entry of a coroutine has no frame. -/
theorem native_sites (co : Ref .coroutine) (r : Ref .native) (args : List Value)
    (hm : m.fiber.calls.frames = []) (hy : m.fiber.isYieldable = true) :
    ((invokeNative host r args m).handle entryOutcome).Follows (floor fun _ => True)
      (Stage.run (.resume co) false).Sites m := by
  have hstable : Stable fun m => m.fiber.calls.frames = [] ∧ m.fiber.isYieldable = true :=
    ⟨fun hq h => ⟨stable_bottom.quiet hq h.1, stable_yieldable.quiet hq h.2⟩,
      fun hb h => ⟨stable_bottom.balanced hb h.1, stable_yieldable.balanced hb h.2⟩⟩
  refine ((invokeNative_follows hstable host r args ⟨hm, hy⟩).imp (fun _ => True)
    (fun _ _ => trivial) fun _ _ h => h).handle fun result m₁ h₁ => ?_
  unfold entryOutcome
  split
  · exact ⟨.refl, trivial⟩
  · exact ⟨.single (.await .entry h₁.2), fun _ => Fiber.sited_of_empty h₁.1 fun _ _ h => nomatch h⟩
  · rename_i f hf
    refine ⟨.refl, fun hy => ?_⟩
    rw [Fault.isYield_of_ne fun vs he => hf vs he] at hy
    cases hy

/-- The first frame of a coroutine needs no call either. -/
theorem closure_sites (co : Ref .coroutine) (r : Ref .closure) (args : List Value)
    (hm : m.fiber.calls.frames = []) :
    (((do
      Exec.setSlot 0 (.closure r)
      Exec.writeRange 1 args
      Exec.pushFrame r 0 args.length none : Exec Unit) m).bind fun () m => .ret none m).Follows
        (floor fun _ => True) (Stage.run (.resume co) false).Sites m := by
  have hc := Holds.closed stable_bottom
  have hnone {f : Fault} {m' : Machine} (hf : f.isYield = false) :
      (Stage.run (.resume co) false).Sites (.error f) m' := fun hy => by
    rw [hf] at hy
    cases hy
  have hwrite := ((hc.bind (hc.setSlot 0 (.closure r)) fun _ => hc.writeRange 1 args) m hm).imp
    (fun _ => True) (fun _ _ => trivial) fun _ _ h => h
  have hpush {m₁ : Machine} (h₁ : m₁.fiber.calls.frames = []) :
      (Exec.pushFrame r 0 args.length none m₁).Follows (floor fun _ => True)
        (fun result m₂ => (Stage.run (.resume co) false).Sites (result.map fun _ => none) m₂) m₁ := by
    have hd : m₁.callDepth = 0 := by rw [callDepth_eq, h₁]; rfl
    refine (pushFrame_follows (fun _ => True) r 0 args.length none (b := m₁) ⟨.refl _, rfl⟩).imp _
      (fun _ h => h) fun result m₂ h₂ => ?_
    cases result with
    | ok _ =>
      refine linked_of_length_le ?_
      rw [← callDepth_eq, h₂.2, hd]
      exact Nat.le_refl _
    | error f => exact hnone h₂.2
  have hall : ((do
      (do
        Exec.setSlot 0 (.closure r)
        Exec.writeRange 1 args)
      Exec.pushFrame r 0 args.length none : Exec Unit) m).Follows (floor fun _ => True)
        (fun result m₂ => (Stage.run (.resume co) false).Sites (result.map fun _ => none) m₂) m := by
    rw [bind_eq]
    exact hwrite.bind (fun _ m₁ h₁ => hpush h₁.1) fun f m₁ h₁ => hnone h₁.2.of_error
  simp only [bind_assoc] at hall
  exact hall.bind (fun _ m₂ h₂ => ⟨.refl, h₂⟩) fun f m₂ h₂ => h₂

/-- A coroutine goes on from where it stopped, or begins. -/
theorem ordered_start {co : Ref .coroutine} {fiber : Fiber} (entry : Callee) (args : List Value)
    (hm : m.Resting) (hb : ∀ l ∈ below, l.Sites) (hp : m.heap.held co = some fiber) (hf : fiber.Parked) :
    (start host co entry args (m.enterCoroutine co fiber) below).Ordered := by
  let m₀ := m.enterCoroutine co { fiber with pending := none }
  have hm₀ : m₀.Resting := by
    refine hm.of_held fun q fiber' hf => ?_
    rw [held_enterCoroutine] at hf
    exact ((held_park m co q hf).resolve_left fun h => nomatch h.2).2
  have hsited : m₀.Sited 0 := (hm co fiber hp).1
  have hshape := hf.shape
  unfold start
  rw [fiber_enterCoroutine]
  dsimp only
  split
  · refine ordered_work (m := m₀) ?_ hm₀ hb
    have hplace := (Holds.closed (steady_sited 0).toStable).placeResults
    exact (Exec.Sites.of_holds (hplace _ _ args) m₀ hsited).bind (fun _ m₁ h₁ => ⟨.refl, h₁⟩)
      fun f m₁ h₁ => siting_run (p := .resume co) (r := .error f) h₁
  · exact ordered_work (m := m₀) ⟨.refl, trivial⟩ hm₀ hb
  · rename_i hpending
    rw [hpending] at hshape
    have hframes : m₀.fiber.calls.frames = [] := hshape
    split
    · rename_i r
      have hy : m₀.fiber.isYieldable = true := by
        show (fiber.isCoroutine && fiber.nested == 0) = true
        rw [hf.isCoroutine, hf.nested]
        rfl
      exact ordered_work (m := m₀) (native_sites co r args hframes hy) hm₀ hb
    · rename_i r
      exact ordered_work (m := m₀) (closure_sites co r args hframes) hm₀ hb

/-- The frames of a coroutine are closed, for no other frames of its own. -/
theorem ordered_close {co : Ref .coroutine} {fiber : Fiber} (token : Ref .token) (hm : m.Resting)
    (hb : ∀ l ∈ below, l.Sites) : (Config.work (.close co token)
      (closeFrames none fiber.calls.depth ((m.park co none).switchTo fiber)) below).Ordered := by
  let m₀ := (m.park co none).switchTo fiber
  let b : Machine := { m₀ with fiber := { m₀.fiber with calls := {} } }
  have ha : At b (b.callDepth + fiber.calls.depth) m₀ :=
    ⟨⟨rfl, List.nil_suffix, rfl, rfl, rfl⟩, (Nat.zero_add _).symm⟩
  have hm₀ : m₀.Resting := hm.of_held fun q fiber' hf =>
    ((held_park m co q hf).resolve_left fun h => nomatch h.2).2
  have hnone : ∀ f : Fault, none = some f → f.isYield = false := fun _ h => nomatch h
  have hclose := closeFrames_follows fiber.calls.depth hnone ha
  exact ordered_work (hclose.imp (fun _ => True) (fun _ _ => trivial) fun _ _ _ => trivial) hm₀ hb

theorem ordered_ask {l : List (Ref .coroutine)} (q : Query) (hs : Scheduled l m) (hm : m.Resting)
    (hb : ∀ l ∈ below, l.Sites) : (ask host q m below).Ordered := by
  have hresponse := response_ask host q m below
  generalize ask host q m below = c at hresponse ⊢
  cases hresponse with
  | refuse _ => exact ⟨hb, hm⟩
  | place f args _ =>
    have hc := Holds.closed (stable_calls fun _ => True)
    have hplace := hc.bind (hc.setSlot m.fiber.freeSlot f) fun _ => hc.writeRange (m.fiber.freeSlot + 1) args
    exact ordered_work ((hplace m trivial).imp (fun _ => True) (fun _ _ => trivial) fun _ _ _ => trivial) hm hb
  | @cancel co c args _ _ _ => exact ⟨hb, hm.of_held fun q fiber hf => (held_setStatus m co q .dead).symm.trans hf⟩
  | @start co c fiber args hc hst _ hp =>
    exact ordered_start c.entry args hm hb ((Heap.held_eq_parked hc).trans hp) (hs.parked_of_suspended hc hst hp).2
  | done co => exact ⟨hb, hm⟩
  | @discard co c _ _ _ =>
    refine ⟨hb, hm.of_held fun q fiber hf => ?_⟩
    change ((m.park co none).endClosing co c.token none).2.heap.held q = some fiber at hf
    rw [held_endClosing] at hf
    exact ((held_park m co q hf).resolve_left fun h => nomatch h.2).2
  | close _ _ _ => exact ordered_close _ hm hb

theorem ordered_next (hc : Reachable host c) (h : c.Ordered) (hn : Next host c c') : c'.Ordered := by
  obtain ⟨hsites, hm⟩ := h
  cases c with
  | work g s below =>
    obtain ⟨hs, hb⟩ := hsites
    cases s with
    | ret a m =>
      cases hn
      exact ordered_finish hs.2 hm hb
    | raise f m =>
      cases hn
      exact ordered_finish hs.2 hm hb
    | ask q m k =>
      cases hn
      refine ordered_ask q hc.scheduled hm fun l hl => ?_
      obtain rfl | hl := List.mem_cons.1 hl
      · exact fun r m' h' => hs.2.2 r m' h'
      · exact hb l hl
  | loop p m below =>
    cases hn
    obtain ⟨hs, hb⟩ := hsites
    refine ordered_work ((step_sites host p.stop hs).imp (fun _ => True) (fun _ h => h) fun r m' h' => ?_)
      hm hb
    exact siting_run h'
  | answer r m below =>
    cases below with
    | nil => cases hn
    | cons l below =>
      cases hn
      exact ordered_work (hsites l List.mem_cons_self r m hc.answered) hm fun l' hl' =>
        hsites l' (List.mem_cons_of_mem l hl')

theorem Reachable.ordered (hc : Reachable host c) : c.Ordered := by
  obtain ⟨limits, hpath⟩ := hc
  induction hpath with
  | refl =>
    refine ⟨?_, ?_⟩
    · exact fun _ h => nomatch h
    · exact fun _ _ h => nomatch h
  | tail hpath hl ih =>
    cases hl with
    | next hn => exact ordered_next ⟨limits, hpath⟩ ih hn
    | ask q => exact ordered_ask q (Reachable.scheduled ⟨limits, hpath⟩) ih.2 ih.1
    | act a => exact ⟨ih.1, ih.2.change (.quiet (.act a))⟩
    | watch _ _ _ _ _ _ => exact ⟨ih.1, ih.2.of_coroutines rfl⟩

end Config
end RegisterMachine
