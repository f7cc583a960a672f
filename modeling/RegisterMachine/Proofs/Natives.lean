import RegisterMachine.Proofs.Faults
import RegisterMachine.Proofs.Library

/-! Native functions and exits. Whatever a function of the library asks for, it fails with an exit when it
is answered by one: protected calls, resumptions and closings keep other faults, but no exit. -/
namespace RegisterMachine

namespace Library

open Script Arguments

theorem handsOn_guarded (f : Value) (args : List Value) : (guarded f args).HandsOn := by
  refine ⟨fun r => ?_, fun status m => rfl⟩
  cases r with
  | ok reply => trivial
  | error e =>
    show Script.HandsOn (if e.isInterrupt || e.isCancelled then _ else _)
    split <;> trivial

theorem handsOn_pcall (args : List Value) : (pcall args).HandsOn := by
  refine (handsOn_guarded _ _).bind fun r => ?_
  cases r <;> trivial

theorem handsOn_xpcall (args : List Value) : (xpcall args).HandsOn := by
  refine (plain_check (failsBare_function _ _ _)).handsOn.bind fun handler =>
    (handsOn_guarded _ _).bind fun r => ?_
  cases r with
  | ok vs => trivial
  | error payload =>
    refine (handsOn_guarded _ _).bind fun r => ?_
    cases r <;> trivial

theorem handsOn_coResume (args : List Value) : (coResume args).HandsOn := by
  refine (plain_check (failsBare_coroutine _ _ _)).handsOn.bind fun co => ⟨fun r => ?_, fun status m => rfl⟩
  cases r with
  | ok reply => trivial
  | error f =>
    show Script.HandsOn (if f.isInterrupt then _ else _)
    split <;> trivial

theorem handsOn_coClose (args : List Value) : (coClose args).HandsOn := by
  refine (plain_check (failsBare_coroutine _ _ _)).handsOn.bind fun co => ⟨fun r => ?_, fun status m => ?_⟩
  · cases r with
    | ok reply => trivial
    | error f =>
      intro m
      dsimp only
      split <;> trivial
  · rfl

theorem handsOn_exit (args : List Value) : (exit args).HandsOn := by
  unfold exit
  split
  · trivial
  · trivial
  · trivial
  · split <;> trivial

end Library

theorem Builtin.handsOn_script (b : Builtin) (args : List Value) : (b.script args).HandsOn := by
  cases hb : b.isPlain with
  | true => exact (plain_script hb args).handsOn
  | false =>
    cases b
    case pcall => exact Library.handsOn_pcall args
    case xpcall => exact Library.handsOn_xpcall args
    case coResume => exact Library.handsOn_coResume args
    case coClose => exact Library.handsOn_coClose args
    case coYield => exact trivial
    case debugBreak => exact trivial
    case exit => exact Library.handsOn_exit args
    all_goals cases hb

def Host.HandsOn (host : Host) : Prop := ∀ name args, (host name args).HandsOn

variable {host : Host}

theorem Native.handsOn_script (hh : host.HandsOn) (n : Native) (args : List Value) :
    (n.script host args).HandsOn := by
  unfold Native.script
  split
  · trivial
  · obtain ⟨name, routine, minArgs⟩ := n
    cases routine with
    | builtin b => exact b.handsOn_script args
    | ipairsStep => exact (Library.plain_ipairsStep args).handsOn
    | wrapped co => exact (Script.plain_question _).handsOn.bind fun _ => trivial
    | host name => exact hh name args

namespace Exec

/-- A computation that raises an exit again at once. -/
def Strict (α : Type) (x : Exec α) : Prop := ∀ m, (x m).Strict

theorem strict_of_ite {α : Type} {p : Prop} [Decidable p] {s t : Step α} (hs : s.Strict)
    (ht : t.Strict) : (if p then s else t).Strict := by
  split
  · exact hs
  · exact ht

theorem strict_bind {α β : Type} {x : Exec α} {f : α → Exec β} (hx : Strict α x)
    (hf : ∀ a, Strict β (f a)) : Strict β (x >>= f) := by
  intro m
  rw [bind_eq]
  exact (hx m).bind fun a m' => hf a m'

theorem strict_closed : Closed Strict where
  pure a m := trivial
  bind := strict_bind
  fail hf m := trivial
  read g m := trivial
  frame m := by
    unfold frame
    split <;> trivial
  setSlot i v m := strict_of_ite trivial trivial
  writeRange start vs m := strict_of_ite trivial trivial
  clearRange start stop m := strict_of_ite trivial trivial
  modifyTop g m := trivial
  setFrom r first vs m := trivial
  newClosure c m := trivial
  script hs m := hs.handsOn.strict m

theorem strict_pushFrame (r : Ref .closure) (start count : Nat) (wanted : Option Nat) :
    Strict Unit (pushFrame r start count wanted) := by
  intro m
  rw [pushFrame_eq]
  refine strict_of_ite trivial ?_
  have hopen : Strict Unit (openWindow (newFrame m r start count wanted) count) :=
    strict_bind (fun m => strict_of_ite trivial trivial) fun _ =>
      strict_bind (strict_closed.clearRange _ _) fun _ => strict_closed.setTop _
  rw [bind_eq]
  exact (hopen m).bind fun _ _ => trivial

theorem strict_stopForDebugger : Strict Unit stopForDebugger := by
  intro m
  unfold stopForDebugger
  split
  · split <;> trivial
  · trivial

section

variable (hh : host.HandsOn)

include hh

theorem strict_invokeNative (r : Ref .native) (args : List Value) :
    Strict (List Value) (invokeNative host r args) := by
  intro m
  refine ((Native.handsOn_script hh _ args).strict m).handle (fun result m' => ?_) fun _ _ => rfl
  split
  · trivial
  · rw [bind_eq]
    exact (strict_stopForDebugger m').bind fun _ _ => trivial
  · trivial

theorem strict_begin (start count : Nat) (wanted : Option Nat) :
    Strict (Option (List Value)) (begin host start count wanted) := by
  refine strict_bind (strict_closed.resolveAlong _ _ _) fun p => ?_
  obtain ⟨r | r, count⟩ := p
  · exact strict_bind (strict_pushFrame r start count wanted) fun _ _ => trivial
  · refine strict_bind (strict_closed.read _) fun args => ?_
    rw [map_eq_pure_bind]
    exact strict_bind (strict_invokeNative hh r args) fun _ _ => trivial

theorem strict_callAt (start count : Nat) (wanted : Option Nat) :
    Strict Unit (callAt host start count wanted) := by
  intro m
  have hcall : Strict Unit (callOutcome host start count wanted) := by
    refine strict_bind (strict_begin hh start count wanted) fun results => ?_
    cases results with
    | some vs => exact strict_closed.placeResults _ _ _
    | none => exact strict_closed.pure _
  rw [callAt_eq]
  refine (hcall m).handle (fun result m' => ?_) fun _ _ => rfl
  cases result with
  | ok _ => trivial
  | error f =>
    show (callFault start wanted f m').Strict
    unfold callFault
    split
    · refine strict_bind (strict_closed.read _) (fun fiber => ?_) m'
      split
      · exact strict_closed.failWith _
      · split
        · exact strict_closed.failWith _
        · exact strict_bind (fun _ => trivial) fun _ _ => trivial
    · trivial

end

/-- A computation with which an exit in answer to any of its questions is on its way. -/
def HandsOn (α : Type) (x : Exec α) : Prop := ∀ m, (x m).Transparent Raised

theorem Strict.handsOn {α : Type} {x : Exec α} (hx : Strict α x) : HandsOn α x :=
  fun m => (hx m).transparent

theorem handsOn_bind {α β : Type} {x : Exec α} {f : α → Exec β} (hx : HandsOn α x)
    (hf : ∀ a, HandsOn β (f a)) : HandsOn β (x >>= f) := by
  intro m
  rw [bind_eq]
  exact (hx m).bind fun a m' => hf a m'

theorem handsOn_closed : Closed HandsOn := strict_closed.weaken Strict.handsOn handsOn_bind

theorem handsOn_modifyFrame (g : Frame → Frame) : HandsOn Unit (modifyFrame g) := by
  intro m
  unfold modifyFrame
  split <;> trivial

theorem handsOn_fetch : HandsOn (Option Word) fetch := by
  intro m
  unfold fetch
  split
  · trivial
  · split <;> trivial

theorem handsOn_jump (offset : Int) : HandsOn Unit (jump offset) := by
  intro m
  unfold jump
  split
  · trivial
  · split <;> trivial

theorem handsOn_popFrame : HandsOn Frame popFrame := by
  intro m
  unfold popFrame
  split <;> trivial

theorem handsOn_capture (slot : Nat) : HandsOn (Ref .broker) (capture slot) := by
  intro m
  rw [capture_eq]
  split
  · trivial
  · split <;> trivial

theorem handsOn_onFrames (hh : host.HandsOn) : ClosedOnFrames host HandsOn where
  toClosed := handsOn_closed
  setBroker r v m := by
    unfold setBroker
    split
    · split <;> trivial
    · trivial
  modifyFrame := handsOn_modifyFrame
  fetch := handsOn_fetch
  jump := handsOn_jump
  capture := handsOn_capture
  closeBrokers _ _ := trivial
  closeSlots := closeSlots_transparent
  popFrame := handsOn_popFrame
  pushFrame r start count wanted := (strict_pushFrame r start count wanted).handsOn
  callAt start count wanted := (strict_callAt hh start count wanted).handsOn

end Exec
end RegisterMachine
