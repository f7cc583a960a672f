import RegisterMachine.Proofs.Depths
import RegisterMachine.Proofs.Natives

/-! Where faults get their location. A fault is bare when it arises, and is located by the run of frames
that it gets out of; one that is located already goes through as it is. So whatever comes out of a run has
one location at most, as long as the functions of the host and the debugger keep to that. -/
namespace RegisterMachine

open Machine

namespace Fault

/-- A fault with one location at most, or a transfer of control. -/
def isProper : Fault → Bool
  | .located f _ _ => f.isBare
  | _ => true

theorem isProper_of_isBare {f : Fault} (h : f.isBare = true) : f.isProper = true := by
  cases f with
  | located f l t => cases h
  | _ => rfl

theorem isProper_locate (m : Machine) {f : Fault} (h : f.isProper = true) :
    (m.locate f).isProper = true := by
  cases f with
  | located f l t => exact h
  | _ => rfl

theorem Settled.interrupt_or_located {f : Fault} (hs : f.Settled) (h : f.isProper = true) :
    f.isInterrupt = true ∨ ∃ g l t, f = .located g l t ∧ g.isBare = true := by
  cases f with
  | located g l t => exact .inr ⟨g, l, t, rfl, h⟩
  | interrupt i => exact .inl rfl
  | _ => cases hs default

end Fault

def FailsProperly {α : Type} (r : Except Fault α) : Prop := ∀ f, r = .error f → f.isProper = true

theorem failsProperly_ok {α : Type} (a : α) : FailsProperly (.ok a) := fun _ h => nomatch h

theorem failsProperly_error {α : Type} {f : Fault} (h : f.isProper = true) :
    FailsProperly (.error f : Except Fault α) := by
  rintro _ ⟨⟩
  exact h

theorem FailsProperly.of_error {α : Type} {f : Fault}
    (h : FailsProperly (.error f : Except Fault α)) : f.isProper = true := h f rfl

namespace Script

variable {α β : Type}

def Proper : Script α → Prop
  | .done _ => True
  | .fail f => f.isProper = true
  | .look k => ∀ m, (k m).Proper
  | .act _ k => ∀ v, (k v).Proper
  | .ask _ k => ∀ r, FailsProperly r → (k r).Proper

theorem Proper.bind {s : Script α} {f : α → Script β} (hs : s.Proper) (hf : ∀ a, (f a).Proper) :
    (s.bind f).Proper := by
  induction s with
  | done a => exact hf a
  | fail e => exact hs
  | look k ih => exact fun m => ih m (hs m)
  | act a k ih => exact fun v => ih v (hs v)
  | ask q k ih => exact fun r hr => ih r (hs r hr)

theorem Plain.proper {s : Script α} (hs : s.Plain) : s.Proper := by
  induction s with
  | done a => trivial
  | fail f => exact Fault.isProper_of_isBare hs
  | look k ih => exact fun m => ih m (hs m)
  | act a k ih => exact fun v => ih v (hs v)
  | ask q k ih =>
    intro r hr
    cases r with
    | ok reply => exact ih _ (hs.1 reply)
    | error f =>
      rw [hs.2 f]
      exact hr.of_error

theorem proper_closeValues (vs : List Value) (error : Value) {failure : Option Fault}
    (hf : ∀ f, failure = some f → f.isProper = true) : (closeValues error failure vs).Proper := by
  induction vs generalizing error failure with
  | nil =>
    cases failure with
    | none => trivial
    | some f => exact hf f rfl
  | cons v vs ih =>
    unfold closeValues
    split
    · exact ih error hf
    · refine (plain_read _).proper.bind fun handler => ?_
      split
      · exact (plain_perform _).proper.bind fun _ => ih error hf
      · intro r hr
        cases r with
        | ok reply => exact ih error hf
        | error f =>
          refine ih f.payload fun f' h => ?_
          cases h
          exact hr.of_error

end Script

namespace Library

open Script Arguments

theorem proper_guarded (f : Value) (args : List Value) : (guarded f args).Proper := by
  intro r hr
  cases r with
  | ok reply => trivial
  | error e =>
    show Script.Proper (if e.isInterrupt || e.isCancelled then _ else _)
    split
    · exact hr.of_error
    · trivial

theorem proper_pcall (args : List Value) : (pcall args).Proper := by
  refine (proper_guarded _ _).bind fun r => ?_
  cases r <;> trivial

theorem proper_xpcall (args : List Value) : (xpcall args).Proper := by
  refine (plain_check (failsBare_function _ _ _)).proper.bind fun handler =>
    (proper_guarded _ _).bind fun r => ?_
  cases r with
  | ok vs => trivial
  | error payload =>
    refine (proper_guarded _ _).bind fun r => ?_
    cases r <;> trivial

theorem proper_coResume (args : List Value) : (coResume args).Proper := by
  refine (plain_check (failsBare_coroutine _ _ _)).proper.bind fun co r hr => ?_
  cases r with
  | ok reply => trivial
  | error f =>
    show Script.Proper (if f.isInterrupt then _ else _)
    split
    · exact hr.of_error
    · trivial

theorem proper_coClose (args : List Value) : (coClose args).Proper := by
  refine (plain_check (failsBare_coroutine _ _ _)).proper.bind fun co r hr => ?_
  cases r with
  | ok reply => trivial
  | error f =>
    intro m
    dsimp only
    split
    · trivial
    · exact hr.of_error

theorem proper_exit (args : List Value) : (exit args).Proper := by
  unfold exit
  split
  · exact rfl
  · exact rfl
  · exact rfl
  · split <;> exact rfl

end Library

theorem Builtin.proper_script (b : Builtin) (args : List Value) : (b.script args).Proper := by
  cases hb : b.isPlain with
  | true => exact (plain_script hb args).proper
  | false =>
    cases b
    case pcall => exact Library.proper_pcall args
    case xpcall => exact Library.proper_xpcall args
    case coResume => exact Library.proper_coResume args
    case coClose => exact Library.proper_coClose args
    case coYield => exact rfl
    case debugBreak => exact rfl
    case exit => exact Library.proper_exit args
    all_goals cases hb

/-- Functions of the host that locate no fault twice, and no transfer of control. -/
def Host.Proper (host : Host) : Prop := ∀ name args, (host name args).Proper

theorem Native.proper_script {host : Host} (hh : host.Proper) (n : Native) (args : List Value) :
    (n.script host args).Proper := by
  unfold Native.script
  split
  · exact rfl
  · obtain ⟨name, routine, minArgs⟩ := n
    cases routine with
    | builtin b => exact b.proper_script args
    | ipairsStep => exact (Library.plain_ipairsStep args).proper
    | wrapped co => exact (Script.plain_question _).proper.bind fun _ => trivial
    | host name => exact hh name args

/-- A debugger that answers a break with a fault answers with a proper one. -/
def Machine.BreaksProperly (m : Machine) : Prop :=
  ∀ f, m.hook = some (.keep (some f)) → f.isProper = true

theorem Machine.BreaksProperly.of_hook {m m' : Machine} (hm : m.BreaksProperly)
    (h : m'.hook = m.hook) : m'.BreaksProperly := fun f hf => hm f (h ▸ hf)

/-- Answers are proper, and leave the debugger as it is. -/
def proper : Contract where
  path _ _ := True
  asks := Machine.BreaksProperly
  answers _ r m := FailsProperly r ∧ m.BreaksProperly

instance : IsTrans Machine proper.path := ⟨fun _ _ _ _ _ => trivial⟩

/-- A result of a certain kind, or a proper fault. -/
structure EndsProperly {α : Type} (good : α → Prop) (r : Except Fault α) (m : Machine) : Prop where
  fails : FailsProperly r
  result : ∀ a, r = .ok a → good a
  breaks : m.BreaksProperly

theorem EndsProperly.ok {α : Type} {good : α → Prop} {a : α} {m : Machine} (ha : good a)
    (hm : m.BreaksProperly) : EndsProperly good (.ok a) m := by
  refine ⟨failsProperly_ok a, ?_, hm⟩
  rintro _ ⟨⟩
  exact ha

theorem EndsProperly.error {α : Type} {good : α → Prop} {f : Fault} {m : Machine}
    (hf : f.isProper = true) (hm : m.BreaksProperly) : EndsProperly good (.error f) m :=
  ⟨failsProperly_error hf, (fun _ h => nomatch h), hm⟩

theorem Action.hook_apply (a : Action) (m : Machine) : (a.apply m).2.hook = m.hook := by
  cases a <;> rfl

namespace Exec

/-- A computation that keeps to that. -/
def Proper (α : Type) (x : Exec α) : Prop :=
  ∀ m, m.BreaksProperly → (x m).Follows proper (EndsProperly fun _ => True) m

section

variable {α : Type} {m m' : Machine}

theorem proper_ret (hm : m'.BreaksProperly) (a : α) :
    (Step.ret a m').Follows proper (EndsProperly fun _ => True) m :=
  ⟨trivial, .ok trivial hm⟩

theorem proper_raise (hm : m'.BreaksProperly) {f : Fault} (hf : f.isProper = true) :
    (Step.raise f m' : Step α).Follows proper (EndsProperly fun _ => True) m :=
  ⟨trivial, .error hf hm⟩

/-- What is written fits, or there is a stack overflow. -/
theorem proper_write {p : Prop} [Decidable p] (hm : m.BreaksProperly) (hm' : m'.BreaksProperly) :
    (if p then Step.ret () m' else .raise .stackOverflow m).Follows proper
      (EndsProperly fun _ => True) m := by
  split
  · exact proper_ret hm' ()
  · exact proper_raise hm rfl

theorem proper_modify {g : Machine → Machine} (hg : ∀ m, (g m).hook = m.hook) :
    Proper Unit (modify g) :=
  fun m hm => ⟨trivial, .ok trivial (hm.of_hook (hg m))⟩

end

theorem proper_bind {α β : Type} {x : Exec α} {f : α → Exec β} (hx : Proper α x)
    (hf : ∀ a, Proper β (f a)) : Proper β (x >>= f) := by
  intro m hm
  rw [bind_eq]
  exact (hx m hm).bind (fun a m' h => hf a m' h.breaks) fun f m' h => .error h.fails.of_error h.breaks

theorem proper_script {α : Type} {s : Script α} (hs : s.Proper) : Proper α s.exec := by
  intro m hm
  induction s generalizing m with
  | done a => exact proper_ret hm a
  | fail f => exact proper_raise hm hs
  | look k ih => exact ih m (hs m) m hm
  | act a k ih =>
    exact (ih _ (hs _) _ (hm.of_hook (a.hook_apply m))).mono trivial
  | ask q k ih => exact ⟨trivial, hm, fun r m' h => ih r (hs r h.1) m' h.2⟩

theorem proper_closed : Closed Proper where
  pure a m hm := proper_ret hm a
  bind := proper_bind
  fail hf m hm := proper_raise hm (Fault.isProper_of_isBare hf)
  read g m hm := proper_ret hm _
  frame m hm := by
    unfold frame
    split
    · exact proper_ret hm _
    · exact proper_raise hm rfl
  setSlot i v m hm := proper_write hm hm
  writeRange start vs m hm := proper_write hm hm
  clearRange start stop m hm := proper_write hm hm
  modifyTop g := proper_modify fun _ => rfl
  setFrom r first vs := proper_modify fun _ => rfl
  newClosure c m hm := ⟨trivial, .ok trivial hm⟩
  script hs := proper_script hs.proper

theorem proper_pushFrame (r : Ref .closure) (start count : Nat) (wanted : Option Nat) :
    Proper Unit (pushFrame r start count wanted) := by
  intro m hm
  rw [pushFrame_eq]
  have hopen : Proper Unit (openWindow (newFrame m r start count wanted) count) :=
    proper_bind (fun m hm => proper_write hm hm) fun _ =>
      proper_bind (proper_closed.clearRange _ _) fun _ => proper_closed.setTop _
  split
  · exact proper_raise hm rfl
  · exact proper_bind hopen (fun _ => proper_modify (g := (·.enterFrame _)) fun _ => rfl) m hm

theorem proper_stopForDebugger : Proper Unit stopForDebugger := by
  intro m hm
  unfold stopForDebugger
  split
  · rename_i s answer _ hhook
    cases answer with
    | some f => exact ⟨trivial, .error (hm f hhook) hm⟩
    | none => exact ⟨trivial, .ok trivial hm⟩
  · exact proper_ret hm ()

theorem proper_popFrame : Proper Frame popFrame := by
  intro m hm
  unfold popFrame
  split
  · exact ⟨trivial, .ok trivial hm⟩
  · exact proper_raise hm rfl

theorem proper_closeSlots (slots : List Nat) (error : Value) : Proper Unit (closeSlots slots error) :=
  proper_bind (proper_closed.read _) fun _ =>
    proper_script (Script.proper_closeValues _ _ fun _ h => nomatch h)

section

variable {host : Host} (hh : host.Proper)

include hh

theorem proper_invokeNative (r : Ref .native) (args : List Value) :
    Proper (List Value) (invokeNative host r args) := by
  intro m hm
  refine (proper_script (Native.proper_script hh _ args) m hm).handle fun result m' h => ?_
  split
  · exact proper_ret h.breaks _
  · exact proper_bind proper_stopForDebugger (fun _ => proper_closed.pure _) m' h.breaks
  · exact proper_raise h.breaks h.fails.of_error

theorem proper_begin (start count : Nat) (wanted : Option Nat) :
    Proper (Option (List Value)) (begin host start count wanted) := by
  refine proper_bind (proper_closed.resolveAlong _ _ _) fun p => ?_
  obtain ⟨r | r, count⟩ := p
  · exact proper_bind (proper_pushFrame r start count wanted) fun _ => proper_closed.pure _
  · refine proper_bind (proper_closed.read _) fun args => ?_
    rw [map_eq_pure_bind]
    exact proper_bind (proper_invokeNative hh r args) fun _ => proper_closed.pure _

theorem proper_callAt (start count : Nat) (wanted : Option Nat) :
    Proper Unit (callAt host start count wanted) := by
  intro m hm
  have hcall : Proper Unit (callOutcome host start count wanted) := by
    refine proper_bind (proper_begin hh start count wanted) fun results => ?_
    cases results with
    | some vs => exact proper_closed.placeResults _ _ _
    | none => exact proper_closed.pure _
  rw [callAt_eq]
  refine (hcall m hm).handle fun result m' h => ?_
  cases result with
  | ok _ => exact proper_ret h.breaks ()
  | error f =>
    show (callFault start wanted f m').Follows _ _ _
    unfold callFault
    split
    · refine proper_bind (proper_closed.read _) (fun fiber => ?_) m' h.breaks
      split
      · exact proper_closed.failWith _
      · split
        · exact proper_closed.failWith _
        · exact proper_bind (proper_modify fun _ => rfl) fun _ m hm => proper_raise hm rfl
    · exact proper_raise h.breaks h.fails.of_error

theorem proper_onFrames : ClosedOnFrames host Proper where
  toClosed := proper_closed
  setBroker r v m hm := by
    unfold setBroker
    split
    · exact proper_write hm hm
    · exact ⟨trivial, .ok trivial hm⟩
  modifyFrame g m hm := by
    unfold modifyFrame
    split
    · exact ⟨trivial, .ok trivial hm⟩
    · exact proper_raise hm rfl
  fetch m hm := by
    unfold fetch
    split
    · exact proper_raise hm rfl
    · split
      · exact ⟨trivial, .ok trivial hm⟩
      · exact ⟨trivial, .ok trivial hm⟩
  jump offset m hm := by
    unfold jump
    split
    · exact proper_raise hm rfl
    · split
      · exact ⟨trivial, .ok trivial hm⟩
      · exact proper_raise hm rfl
  capture slot m hm := by
    rw [capture_eq]
    split
    · exact proper_raise hm rfl
    · split
      · exact ⟨trivial, .ok trivial hm⟩
      · exact ⟨trivial, .ok trivial hm⟩
  closeBrokers rs := proper_modify fun _ => rfl
  closeSlots := proper_closeSlots
  popFrame := proper_popFrame
  pushFrame := proper_pushFrame
  callAt := proper_callAt hh

end

/-- The innermost frame is taken off, and all goes on properly with the outcome of its cleanup. -/
theorem drop_proper {β : Type} {good : β → Prop} (fault : Option Fault) {k : Except Fault Unit → Exec β}
    {m : Machine} (hm : m.BreaksProperly) (hk : ∀ r m', FailsProperly r → m'.BreaksProperly →
      (k r m').Follows proper (EndsProperly good) m') :
    ((popFrame >>= fun f => attempt (cleanup f fault) >>= k) m).Follows proper (EndsProperly good) m := by
  rw [bind_eq]
  refine (proper_popFrame m hm).bind (fun f m₁ h₁ => ?_) fun e m₁ h₁ => .error h₁.fails.of_error h₁.breaks
  rw [attempt_bind_eq]
  have hcleanup : Proper Unit (cleanup f fault) :=
    proper_bind (proper_modify fun _ => rfl) fun _ => proper_closeSlots _ _
  exact (hcleanup m₁ h₁.breaks).handle fun r m₂ h₂ => hk r m₂ h₂.fails h₂.breaks

theorem unwindFrames_proper (n : Nat) {f : Fault} {m : Machine} (hm : m.BreaksProperly)
    (hf : f.isProper = true) :
    (unwindFrames n f m).Follows proper (EndsProperly fun f => f.isProper = true) m := by
  induction n generalizing f m with
  | zero => exact ⟨trivial, .ok hf hm⟩
  | succ n ih =>
    refine drop_proper (some f) hm fun r m' hr hm' => ?_
    cases r with
    | ok _ => exact ih hm' hf
    | error e =>
      show (unwindFrames n (m'.locate e) m').Follows _ _ _
      exact ih hm' (Fault.isProper_locate m' hr.of_error)

theorem unwind_proper (stop : Nat) {f : Fault} {m : Machine} (hm : m.BreaksProperly)
    (hf : f.isProper = true) :
    (unwind stop f m).Follows proper (EndsProperly fun f => f.isProper = true) m := by
  unfold unwind
  split
  · exact ⟨trivial, .ok hf hm⟩
  · exact unwindFrames_proper _ hm (Fault.isProper_locate m hf)

theorem closeFrames_proper (n : Nat) {failure : Option Fault} {m : Machine} (hm : m.BreaksProperly)
    (hf : ∀ f, failure = some f → f.isProper = true) :
    (closeFrames failure n m).Follows proper
      (EndsProperly fun failure => ∀ f, failure = some f → f.isProper = true) m := by
  induction n generalizing failure m with
  | zero => exact ⟨trivial, .ok hf hm⟩
  | succ n ih =>
    refine drop_proper none hm fun r m' hr hm' => ?_
    cases r with
    | ok _ => exact ih hm' hf
    | error e =>
      refine ih hm' fun f h => ?_
      cases h
      exact hr.of_error

end Exec

namespace Machine

theorem hook_setActiveStatus (m : Machine) (status : Status) : (m.setActiveStatus status).hook = m.hook := by
  unfold setActiveStatus
  split <;> rfl

theorem hook_switchBack (m : Machine) : m.switchBack.hook = m.hook := by
  unfold switchBack
  split <;> rfl

theorem hook_enterCoroutine (m : Machine) (co : Ref .coroutine) (fiber : Fiber) :
    (m.enterCoroutine co fiber).hook = m.hook := hook_setActiveStatus (m.park co none) .normal

theorem hook_leaveCoroutine (co : Ref .coroutine) (r : Except Fault (List Value)) (m : Machine) :
    (leaveCoroutine co r m).2.hook = m.hook := by
  have h := (hook_setActiveStatus _ .running).trans (hook_switchBack
    { m with active := m.active.drop 1, nativeDepth := m.nativeDepth - 1 })
  unfold leaveCoroutine
  dsimp only
  split
  · exact h
  · exact h
  · exact h

theorem hook_endClosing (m : Machine) (co : Ref .coroutine) (token : Ref .token)
    (failure : Option Fault) : (m.endClosing co token failure).2.hook = m.hook := by
  cases failure <;> rfl

end Machine

/-- What the results of a stage are like. -/
def Stage.good : {α : Type} → Stage α → α → Prop
  | _, .place _ _, _ => True
  | _, .run _ _, _ => True
  | _, .close _ _, failure => ∀ f, failure = some f → f.isProper = true

/-- A question from whose answer all goes on properly. -/
def Level.Proper (l : Level) : Prop :=
  ∀ r m, FailsProperly r → m.BreaksProperly → (l.next r m).Follows proper (EndsProperly l.stage.good) m

namespace Config

/-- There are proper faults only, and there will be. -/
def Proper : Config → Prop
  | .work g s below => s.Follows proper (EndsProperly g.good) s.machine ∧ ∀ l ∈ below, l.Proper
  | .loop _ m below => m.BreaksProperly ∧ ∀ l ∈ below, l.Proper
  | .answer r m below => (FailsProperly r ∧ m.BreaksProperly) ∧ ∀ l ∈ below, l.Proper

variable {host : Host} {α : Type} {below : List Level} {m : Machine} {c c' : Config}

theorem proper_work {g : Stage α} {s : Step α} (h : s.Follows RegisterMachine.proper (EndsProperly g.good) m)
    (hb : ∀ l ∈ below, l.Proper) : Proper (.work g s below) :=
  ⟨h.mono trivial, hb⟩

theorem Proper.breaks (h : c.Proper) : c.machine.BreaksProperly := by
  cases c with
  | work g s below =>
    cases s with
    | ret a m => exact h.1.2.breaks
    | raise f m => exact h.1.2.breaks
    | ask q m k => exact h.1.2.1
  | loop p m below => exact h.1
  | answer r m below => exact h.1.2

theorem proper_leave (p : Purpose) {r : Except Fault (List Value)} (hr : FailsProperly r)
    (hm : m.BreaksProperly) (hb : ∀ l ∈ below, l.Proper) : (leave p r m below).Proper := by
  cases p with
  | call stop top =>
    refine ⟨⟨?_, hm⟩, hb⟩
    unfold withoutYield
    split
    · exact failsProperly_error rfl
    · cases r with
      | ok vs => exact failsProperly_ok _
      | error f => exact failsProperly_error hr.of_error
  | resume co =>
    refine ⟨⟨?_, hm.of_hook (hook_leaveCoroutine co r m)⟩, hb⟩
    unfold leaveCoroutine
    dsimp only
    split
    · exact failsProperly_ok _
    · exact failsProperly_ok _
    · exact failsProperly_error hr.of_error

section

variable (hh : host.Proper)

include hh

theorem proper_finish (g : Stage α) {r : Except Fault α} (hr : EndsProperly g.good r m)
    (hb : ∀ l ∈ below, l.Proper) : (finish host g r m below).Proper := by
  cases g with
  | place start count =>
    cases r with
    | ok _ => exact proper_work (Exec.proper_begin hh start count none _ hr.breaks) hb
    | error f => exact ⟨⟨failsProperly_error hr.fails.of_error, hr.breaks⟩, hb⟩
  | run p guarded =>
    obtain f | _ | vs := r
    · cases guarded with
      | false => exact proper_leave p (failsProperly_error hr.fails.of_error) hr.breaks hb
      | true =>
        refine proper_work ((Exec.unwind_proper p.stop hr.breaks hr.fails.of_error).bind ?_ ?_) hb
        · exact fun f m' h => ⟨trivial, .error (h.result f rfl) h.breaks⟩
        · exact fun f m' h => .error h.fails.of_error h.breaks
    · exact ⟨hr.breaks, hb⟩
    · exact proper_leave p (failsProperly_ok vs) hr.breaks hb
  | close co token =>
    have hback : m.switchBack.BreaksProperly := hr.breaks.of_hook (hook_switchBack m)
    cases r with
    | ok failure =>
      refine ⟨⟨?_, hback.of_hook (hook_endClosing _ co token failure)⟩, hb⟩
      cases failure with
      | none => exact failsProperly_ok _
      | some f => exact failsProperly_error (hr.result _ rfl f rfl)
    | error f => exact ⟨⟨failsProperly_error hr.fails.of_error, hback⟩, hb⟩

theorem proper_start (co : Ref .coroutine) (entry : Callee) (args : List Value)
    (hm : m.BreaksProperly) (hb : ∀ l ∈ below, l.Proper) :
    (start host co entry args m below).Proper := by
  have hclosed := Exec.proper_closed
  have hm₀ : (m.modifyFiber fun f => { f with pending := none }).BreaksProperly := hm
  unfold start
  dsimp only
  generalize m.modifyFiber (fun f => { f with pending := none }) = m₀ at hm₀ ⊢
  split
  · refine proper_work ((hclosed.placeResults _ _ _ _ hm₀).bind ?_ ?_) hb
    · exact fun _ m' h => ⟨trivial, .ok trivial h.breaks⟩
    · exact fun f m' h => .error h.fails.of_error h.breaks
  · exact ⟨⟨trivial, .ok trivial hm₀⟩, hb⟩
  · cases entry with
    | native r =>
      refine proper_work ((Exec.proper_invokeNative hh r args _ hm₀).handle fun result m' h => ?_) hb
      split
      · exact ⟨trivial, .ok trivial h.breaks⟩
      · exact ⟨trivial, .error rfl h.breaks⟩
      · exact ⟨trivial, .error h.fails.of_error h.breaks⟩
    | closure r =>
      refine proper_work (((Exec.proper_onFrames hh).enter r args _ hm₀).bind ?_ ?_) hb
      · exact fun _ m' h => ⟨trivial, .ok trivial h.breaks⟩
      · exact fun f m' h => .error h.fails.of_error h.breaks

theorem proper_ask (q : Query) (hm : m.BreaksProperly) (hb : ∀ l ∈ below, l.Proper) :
    (ask host q m below).Proper := by
  have h := response_ask host q m below
  generalize ask host q m below = c at h ⊢
  cases h with
  | refuse hf => exact ⟨⟨failsProperly_error (Fault.isProper_of_isBare hf), hm⟩, hb⟩
  | place f args _ =>
    have hclosed := Exec.proper_closed
    exact proper_work (hclosed.bind (hclosed.setSlot _ _) (fun _ => hclosed.writeRange _ _) m hm) hb
  | cancel args _ _ _ => exact ⟨⟨failsProperly_error rfl, hm⟩, hb⟩
  | @start co c fiber args _ _ _ _ =>
    exact proper_start hh co _ args (hm.of_hook (hook_enterCoroutine m co _)) hb
  | done co => exact ⟨⟨failsProperly_ok _, hm⟩, hb⟩
  | discard _ _ _ => exact ⟨⟨failsProperly_ok _, hm⟩, hb⟩
  | close _ _ _ => exact proper_work (Exec.closeFrames_proper _ hm fun _ h => nomatch h) hb

theorem proper_next (h : c.Proper) (hn : Next host c c') : c'.Proper := by
  cases c with
  | work g s below =>
    cases s with
    | ret a m =>
      cases hn
      exact proper_finish hh g h.1.2 h.2
    | raise f m =>
      cases hn
      exact proper_finish hh g h.1.2 h.2
    | ask q m k =>
      cases hn
      obtain ⟨⟨-, hm, hk⟩, hb⟩ := h
      refine proper_ask hh q hm fun l hl => ?_
      obtain rfl | hl := List.mem_cons.1 hl
      · exact fun r m' hr hm' => hk r m' ⟨hr, hm'⟩
      · exact hb l hl
  | loop p m below =>
    cases hn
    exact proper_work ((Exec.proper_onFrames hh).step p.stop m h.1) h.2
  | answer r m below =>
    cases below with
    | nil => cases hn
    | cons l low =>
      cases hn
      obtain ⟨⟨hr, hm⟩, hb⟩ := h
      exact proper_work (hb l List.mem_cons_self r m hr hm) fun l' hl => hb l' (List.mem_cons_of_mem l hl)

theorem Proper.runs (h : c.Proper) (hr : Runs host c c') : c'.Proper := by
  induction hr with
  | refl => exact h
  | tail _ hn ih => exact proper_next hh ih hn

/-- A machine asked a question answers properly. -/
theorem proper_of_serve {time : Nat} {q : Query} {r : Except Fault Reply} {m' : Machine}
    (hm : m.BreaksProperly) (h : serve host time q m = some (r, m')) :
    FailsProperly r ∧ m'.BreaksProperly := by
  have hc : (ask host q m []).Proper := proper_ask hh q hm fun _ hl => nomatch hl
  exact (Proper.runs hh hc (served_serve time q m r m' [] h)).1

end

end Config

/-- A computation that is answered within a time comes to its end with proper faults only. -/
theorem Step.Follows.run_proper {host : Host} (hh : host.Proper) {α : Type}
    {ends : Except Fault α → Machine → Prop} {s : Step α} {m m' : Machine} {r : Except Fault α}
    {time : Nat} (h : s.Follows proper ends m) (hr : s.run (serve host time) = some (r, m')) :
    ends r m' := by
  induction s generalizing m with
  | ret a m₁ =>
    cases hr
    exact h.2
  | raise f m₁ =>
    cases hr
    exact h.2
  | ask q m₁ k ih =>
    obtain ⟨-, hm₁, hk⟩ := h
    rw [Step.run] at hr
    cases hq : serve host time q m₁ with
    | none =>
      rw [hq] at hr
      cases hr
    | some p =>
      rw [hq] at hr
      exact ih p.1 p.2 (hk p.1 p.2 (Config.proper_of_serve hh hm₁ hq)) hr

namespace Machine

variable {host : Host} {l : List (Ref .coroutine)} {m m' : Machine} {stop serving time : Nat} {f e : Fault}

/-- A fault that frames were unwound for has its location. -/
theorem settled_of_unwound (hs : Scheduled l m)
    (h : unwound (serve host time) stop f m = some ((.error e : Except Fault (List Value)), m')) :
    e.Settled := by
  obtain ⟨vs, rfl⟩ | hy := f.yield_or
  · cases h
    exact fun _ => rfl
  · have hdepth : m.callDepth = m.callDepth - (m.callDepth - stop) + (m.callDepth - stop) := by omega
    have hoff := Exec.unwindFrames_takenOff (m.callDepth - stop) _ (Fault.settled_locate m f)
      ((Exec.isYield_locate m f).trans hy) hdepth
    rw [unwound, Exec.unwind_eq stop hy] at h
    obtain ⟨e', m₁, hr, -⟩ | ⟨e', m₁, hr, h⟩ := Outcome.andThen_eq_some h
    · exact (hoff.run hs hr).1.elim
    · cases h
      exact (hoff.run hs hr).1.2.1

theorem settled_of_dispatch (hs : Scheduled l m)
    (h : dispatch host (serve host serving) stop time m = some (.error e, m')) : e.Settled := by
  induction time generalizing m with
  | zero => cases h
  | succ time ih =>
    rw [dispatch_succ] at h
    obtain ⟨⟨r, m₁⟩, ha, h⟩ := Option.bind_eq_some_iff.1 h
    obtain ⟨-, hs₁⟩ := (Exec.advance_targets host List.nil_suffix).run hs ha
    obtain f | _ | exit := r
    · exact settled_of_unwound hs₁ h
    · exact ih hs₁ h
    · simp only [advanced] at h
      split at h
      · cases h
      · obtain ⟨⟨rp, m₂⟩, hp, h⟩ := Option.bind_eq_some_iff.1 h
        have hplace := (Exec.Aims.closed []).placeResults exit.slot exit.wanted exit.values m₁
          List.nil_suffix
        obtain ⟨-, hs₂⟩ := hplace.run hs₁ hp
        cases rp with
        | ok _ => exact ih hs₂ h
        | error f => exact settled_of_unwound hs₂ h

theorem isProper_of_dispatch (hh : host.Proper) (hm : m.BreaksProperly)
    (h : dispatch host (serve host serving) stop time m = some (.error e, m')) : e.isProper = true := by
  induction time generalizing m with
  | zero => cases h
  | succ time ih =>
    rw [dispatch] at h
    cases hr : (Exec.step host stop m).run (serve host serving) with
    | none =>
      rw [hr] at h
      cases h
    | some p =>
      obtain ⟨r, m₁⟩ := p
      rw [hr] at h
      have hend := ((Exec.proper_onFrames hh).step stop m hm).run_proper hh hr
      obtain f | _ | vs := r
      · obtain ⟨e', m₂, hu, h⟩ | ⟨e', m₂, hu, h⟩ := Outcome.andThen_eq_some h
        · cases h
          exact ((Exec.unwind_proper stop hend.breaks hend.fails.of_error).run_proper hh hu).fails.of_error
        · cases h
          exact ((Exec.unwind_proper stop hend.breaks hend.fails.of_error).run_proper hh hu).result _ rfl
      · exact ih hend.breaks h
      · cases h

/-- Whatever fault the loop comes to is a transfer of control, or it has one location. -/
theorem interrupt_or_located_of_dispatch (hh : host.Proper) (hs : Scheduled l m) (hm : m.BreaksProperly)
    (h : dispatch host (serve host serving) stop time m = some (.error e, m')) :
    e.isInterrupt = true ∨ ∃ g location trace, e = .located g location trace ∧ g.isBare = true :=
  (settled_of_dispatch hs h).interrupt_or_located (isProper_of_dispatch hh hm h)

end Machine
end RegisterMachine
