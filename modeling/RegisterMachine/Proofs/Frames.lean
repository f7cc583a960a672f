import RegisterMachine.Proofs.Floor

/-! What computations do with frames: calls open them, returns and faults take them off, and all of it
stays above the floor. -/
namespace RegisterMachine
namespace Exec

open Machine

theorem capture_eq (slot : Nat) (m : Machine) : capture slot m =
    match m.frame? with
    | none => .raise (.runtime .noFrame) m
    | some f =>
      match f.broker? slot with
      | some r => .ret r m
      | none => .ret (m.heap.newBroker (.live m.fiber.arena slot)).1 (m.openBroker slot) := by
  unfold capture
  rw [bind_eq]
  unfold frame
  cases hf : m.frame? with
  | none => rfl
  | some f =>
    simp only [Step.bind]
    cases hb : f.broker? slot with
    | some r => rfl
    | none =>
      let h := (m.heap.newBroker (.live m.fiber.arena slot)).2
      have hf' : Machine.frame? { m with heap := h } = some f := hf
      show (modifyFrame (·.addBroker slot _) >>= fun _ => pure _ : Exec _) { m with heap := h } = _
      rw [bind_eq, modifyFrame, hf']
      rfl

theorem closeFrom_eq (start : Nat) (m : Machine) : closeFrom start m =
    match m.frame? with
    | none => .raise (.runtime .noFrame) m
    | some f => closeSlots ((f.detachBrokers start).2.takeMarks start).1 .nil (m.part f start) := by
  unfold closeFrom
  rw [bind_eq]
  unfold frame
  cases hf : m.frame? with
  | none => rfl
  | some f =>
    simp only [Step.bind, bind_eq, modifyFrame, hf]
    rfl

/-- A frame that was taken off gives up its brokers before anything is asked. -/
theorem cleanup_eq (f : Frame) (fault : Option Fault) (calls : CallStack) (m : Machine) :
    cleanup f fault (m.modifyFiber fun fiber => { fiber with calls }) =
      closeSlots f.marks.toList.reverse ((fault.map Fault.payload).getD .nil) (m.dropFrame f calls) := by
  have hl : f.live.filter (fun p => 0 ≤ p.1) = f.live := by simp
  have ht : f.marks.toList.dropWhile (· < 0) = f.marks.toList := by
    cases f.marks.toList <;> simp
  simp only [cleanup, Frame.detachBrokers, Frame.takeMarks, hl, ht]
  rfl

theorem popFrame_bind_eq {α : Type} (k : Frame → Exec α) (m : Machine) : (popFrame >>= k) m =
    match m.fiber.calls.pop? with
    | none => .raise (.runtime .noFrame) m
    | some (f, calls) => k f (m.modifyFiber fun fiber => { fiber with calls }) := by
  rw [bind_eq]
  unfold popFrame
  cases hp : m.fiber.calls.pop? with
  | none => rfl
  | some p => rfl

theorem attempt_bind_eq {α β : Type} (x : Exec α) (k : Except Fault α → Exec β) (m : Machine) :
    (attempt x >>= k) m = (x m).handle k := by
  rw [bind_eq]
  show ((x m).handle fun r m => .ret r m).bind k = (x m).handle k
  generalize x m = s
  induction s with
  | ret a m => rfl
  | raise f m => rfl
  | ask q m k' ih => simp only [Step.handle, Step.bind, ih]

/-- The frame of a closure in a slot, given a number of arguments. -/
def newFrame (m : Machine) (r : Ref .closure) (start count : Nat) (wanted : Option Nat) : Frame where
  closure := m.heap.closure r
  base := start + 1
  returnSlot := start
  wanted := wanted
  varargs :=
    let p := (m.heap.closure r).prototype
    if p.isVararg then m.arena.readRange (start + 1 + p.params.toNat) (count - p.params.toNat) else []

/-- The room that a frame needs: its window exists and is nil behind the parameters that were given. -/
def openWindow (f : Frame) (count : Nat) : Exec Unit := do
  ensureSlot f.top
  clearRange (f.base + min count f.prototype.params.toNat) f.top
  setTop f.top

/-- Opening a window is quiet; it fails only where the arena ends. -/
theorem openWindow_quiet (f : Frame) (count : Nat) (m : Machine) :
    ∃ m', Relation.ReflTransGen Quiet m m' ∧
      (openWindow f count m = .ret () m' ∨ openWindow f count m = .raise .stackOverflow m') := by
  unfold openWindow
  rw [bind_eq]
  unfold ensureSlot
  split
  · rename_i hg
    have h₁ := Quiet.write (m := m) (.grow f.top) hg
    simp only [Step.bind]
    rw [bind_eq]
    unfold clearRange
    split
    · rename_i hc
      have h₂ := Quiet.write (.clearRange (f.base + min count f.prototype.params.toNat) f.top) hc
      exact ⟨_, ((Relation.ReflTransGen.single h₁).tail h₂).tail (.top f.top), .inl rfl⟩
    · exact ⟨_, .single h₁, .inr rfl⟩
  · exact ⟨m, .refl, .inr rfl⟩

theorem pushFrame_eq (r : Ref .closure) (start count : Nat) (wanted : Option Nat) (m : Machine) :
    pushFrame r start count wanted m =
      if m.limits.maxCallDepth ≤ m.callDepth then .raise .stackOverflow m
      else (do
        openWindow (newFrame m r start count wanted) count
        modify (·.enterFrame (newFrame m r start count wanted)) : Exec Unit) m := by
  split
  · rename_i h
    unfold pushFrame
    simp only [bind_eq, read, Step.bind, h, decide_true, fail, if_true]
  · rename_i h
    unfold pushFrame openWindow
    simp only [bind_assoc]
    simp only [bind_eq, read, Step.bind, h, decide_false, Bool.false_eq_true, if_false]
    split
    · rename_i hv
      simp only [newFrame, hv, if_true, bind_eq, readRange, read, Step.bind]
      rfl
    · rename_i hv
      simp only [newFrame, hv, pure_bind, Bool.false_eq_true, if_false]
      simp only [bind_eq]
      rfl

/-- All that opening a frame comes to: quiet changes, and the frame unless there is no room for it. -/
theorem pushFrame_cases (r : Ref .closure) (start count : Nat) (wanted : Option Nat) (m : Machine) :
    ∃ m', Relation.ReflTransGen Quiet m m' ∧
      (pushFrame r start count wanted m = .raise .stackOverflow m' ∨
        Enter m' (m'.enterFrame (newFrame m r start count wanted)) ∧
          pushFrame r start count wanted m = .ret () (m'.enterFrame (newFrame m r start count wanted))) := by
  rw [pushFrame_eq]
  split
  · exact ⟨m, .refl, .inl rfl⟩
  · rename_i hd
    obtain ⟨m', hq, hr⟩ := openWindow_quiet (newFrame m r start count wanted) count m
    obtain ⟨hdepth, hlimits⟩ := Quiet.same_of_path hq
    refine ⟨m', hq, ?_⟩
    rw [bind_eq]
    obtain hr | hr := hr <;> rw [hr]
    · exact .inr ⟨.intro _ rfl rfl (by rw [hdepth, hlimits]; omega), rfl⟩
    · exact .inl rfl

/-- One handler after the other is called; each that fails has its fault on its way. -/
theorem closeValues_cons (error : Value) (failure : Option Fault) (v : Value) (vs : List Value)
    (m : Machine) :
    (∃ m', Relation.ReflTransGen Quiet m m' ∧
      (Script.closeValues error failure (v :: vs)).exec m =
        (Script.closeValues error failure vs).exec m') ∨
    ∃ q, (Script.closeValues error failure (v :: vs)).exec m = .ask q m fun r m' =>
      match r with
      | .ok _ => (Script.closeValues error failure vs).exec m'
      | .error f => (Script.closeValues f.payload (some f) vs).exec m' := by
  have hlook : ∀ k : Value → Script Unit, (Script.metamethod v "__close" >>= k).exec m =
      (k (m.heap.metamethod v "__close")).exec m := fun _ => rfl
  rw [Script.closeValues]
  split
  · exact .inl ⟨m, .refl, rfl⟩
  · simp only [hlook]
    split
    · exact .inl ⟨_, .single (.act (.warn ("to-be-closed " ++ v.typeName ++
        " value has no '__close' metamethod"))), rfl⟩
    · refine .inr ⟨.call (m.heap.metamethod v "__close") [v, error], ?_⟩
      refine congrArg (Step.ask (.call (m.heap.metamethod v "__close") [v, error]) m) ?_
      refine funext fun r => funext fun m' => ?_
      cases r <;> rfl

section

variable {J : Machine → Prop} (hJ : Stable J)

include hJ

/-- Handlers may fail as they like; what comes of them is no yield. -/
theorem holds_closeValues (vs : List Value) (error : Value) {failure : Option Fault}
    (hf : ∀ f, failure = some f → f.isYield = false) :
    Holds J Unit (Script.closeValues error failure vs).exec := by
  intro m hm
  induction vs generalizing error failure m with
  | nil =>
    cases failure with
    | none => exact ⟨.refl, hm, noYield_ok ()⟩
    | some f => exact Holds.raise hm (hf f rfl)
  | cons v vs ih =>
    obtain ⟨m', hq, he⟩ | ⟨q, he⟩ := closeValues_cons error failure v vs m <;> rw [he]
    · have hpath : Changes m m' := hq.lift id fun _ _ => .quiet
      exact (ih error hf m' (hJ.path hq hm)).mono hpath
    · refine ⟨.refl, hm, fun r m' h => ?_⟩
      have hm' := hJ.balanced h.1 hm
      cases r with
      | ok reply => exact ih error hf m' hm'
      | error f =>
        refine ih f.payload (fun f' hf' => ?_) m' hm'
        cases hf'
        exact h.2.of_error

theorem holds_closeSlots (slots : List Nat) (error : Value) :
    Holds J Unit (closeSlots slots error) :=
  (Holds.closed hJ).bind ((Holds.closed hJ).read _) fun _ =>
    holds_closeValues hJ _ _ fun _ h => nomatch h

theorem script_follows {α : Type} (s : Script α) {m : Machine} (hm : J m) :
    (s.exec m).Follows (floor J) (fun _ m' => J m') m := by
  induction s generalizing m with
  | done a => exact ⟨.refl, hm⟩
  | fail f => exact ⟨.refl, hm⟩
  | look k ih => exact ih m hm
  | act a k ih =>
    have hq := Quiet.act (m := m) a
    exact (ih _ (hJ.quiet hq hm)).mono (.single (.quiet hq))
  | ask q k ih => exact ⟨.refl, hm, fun r m' h => ih r (hJ.balanced h.1 hm)⟩

theorem stopForDebugger_follows {m : Machine} (hm : J m) :
    (stopForDebugger m).Follows (floor J) (fun _ m' => J m') m := by
  unfold stopForDebugger
  split
  · rename_i s answer _ _
    have hq := Quiet.snapshot (m := m) s
    cases answer with
    | some f => exact ⟨.single (.quiet hq), hJ.quiet hq hm⟩
    | none => exact ⟨.single (.quiet hq), hJ.quiet hq hm⟩
  · exact ⟨.refl, hm⟩

theorem invokeNative_follows (host : Host) (r : Ref .native) (args : List Value) {m : Machine}
    (hm : J m) : (invokeNative host r args m).Follows (floor J) (fun _ m' => J m') m := by
  refine (script_follows hJ _ hm).handle fun result m' hm' => ?_
  split
  · exact ⟨.refl, hm'⟩
  · rw [bind_eq]
    exact (stopForDebugger_follows hJ hm').bind (fun _ m'' h => ⟨.refl, h⟩) fun _ _ h => h
  · exact ⟨.refl, hm'⟩

end

variable {b m : Machine} {depth : Nat}

/-- A frame was opened, or something failed before that. -/
def Entered (b : Machine) (depth : Nat) : Except Fault Unit → Machine → Prop
  | .ok _, m => At b (depth + 1) m
  | .error f, m => At b depth m ∧ f.isYield = false

theorem pushFrame_follows (J : Machine → Prop) (r : Ref .closure) (start count : Nat)
    (wanted : Option Nat) (h : At b depth m) :
    (pushFrame r start count wanted m).Follows (floor J) (Entered b depth) m := by
  obtain ⟨m', hq, hr⟩ := pushFrame_cases r start count wanted m
  have hpath : Changes m m' := hq.lift id fun _ _ => .quiet
  have hat : At b depth m' := (stable_at b depth).path hq h
  obtain hr | ⟨henter, hr⟩ := hr <;> rw [hr]
  · exact ⟨hpath, hat, rfl⟩
  · exact ⟨hpath.tail (.enter henter), henter.at hat⟩

/-- A call was begun: it has a frame now, or it is done. -/
def Begun (b : Machine) (depth : Nat) : Except Fault (Option (List Value)) → Machine → Prop
  | .ok none, m => At b (depth + 1) m
  | _, m => At b depth m

theorem begin_follows (host : Host) (start count : Nat) (wanted : Option Nat) (h : At b depth m) :
    (begin host start count wanted m).Follows (floor (At b depth)) (Begun b depth) m := by
  have hJ := stable_at b depth
  unfold begin
  rw [bind_eq]
  refine ((Holds.closed hJ).resolveAlong _ _ _ m h).bind (fun p m₁ h₁ => ?_) fun f m₁ h₁ => h₁.1
  obtain ⟨r | r, count⟩ := p
  · dsimp only
    rw [bind_eq]
    refine (pushFrame_follows _ r start count wanted h₁.1).bind (fun _ m₂ h₂ => ⟨.refl, h₂⟩) ?_
    exact fun f m₂ h₂ => h₂.1
  · dsimp only
    simp only [map_eq_pure_bind, bind_eq, readRange, read, Step.bind]
    refine (invokeNative_follows hJ host r _ h₁.1).bind (fun vs m₂ h₂ => ⟨.refl, h₂⟩) ?_
    exact fun f m₂ h₂ => h₂

def callOutcome (host : Host) (start count : Nat) (wanted : Option Nat) : Exec Unit := do
  match ← begin host start count wanted with
  | some vs => placeResults start wanted vs
  | none => pure ()

theorem callAt_eq (host : Host) (start count : Nat) (wanted : Option Nat) (m : Machine) :
    callAt host start count wanted m =
      (callOutcome host start count wanted m).handle fun result m =>
        match result with
        | .ok () => .ret () m
        | .error f => callFault start wanted f m := rfl

/-- Conditions that changes of the innermost frame keep too. -/
structure Steady (J : Machine → Prop) : Prop extends Stable J where
  touch {m m' : Machine} : Touch m m' → J m → J m'

theorem steady_deep (b : Machine) : Steady (Deep b) where
  toStable := stable_deep b
  touch := Touch.deep

namespace Steady

variable {α : Type} {J : Machine → Prop} (hJ : Steady J)

include hJ

theorem touched {m m' : Machine} (hm : J m) (ht : Touch m m') (a : α) :
    (Step.ret a m').Follows (floor J) (fun r m' => J m' ∧ NoYield r) m :=
  ⟨.single (.touch ht), hJ.touch ht hm, noYield_ok a⟩

theorem modifyFrame {g : Frame → Frame} (hg : ∀ m, Touch m (m.modifyFrame g)) :
    Holds J Unit (modifyFrame g) := by
  intro m hm
  unfold Exec.modifyFrame
  split
  · exact hJ.touched hm (hg m) ()
  · exact Holds.raise hm rfl

theorem fetch : Holds J (Option Word) fetch := by
  intro m hm
  unfold Exec.fetch
  split
  · exact Holds.raise hm rfl
  · split
    · exact hJ.touched hm (.goto fun f => f.pc + 1) _
    · exact ⟨.refl, hm, noYield_ok _⟩

theorem jump (offset : Int) : Holds J Unit (jump offset) := by
  intro m hm
  unfold Exec.jump
  split
  · exact Holds.raise hm rfl
  · split
    · rename_i f' _
      exact hJ.touched hm (.goto fun _ => f'.pc) ()
    · exact Holds.raise hm rfl

theorem capture (slot : Nat) : Holds J (Ref .broker) (capture slot) := by
  intro m hm
  rw [capture_eq]
  split
  · exact Holds.raise hm rfl
  · rename_i f hf
    split
    · exact ⟨.refl, hm, noYield_ok _⟩
    · rename_i hb
      exact hJ.touched hm (.capture hf hb) _

theorem closeFrom (start : Nat) : Holds J Unit (closeFrom start) := by
  intro m hm
  rw [closeFrom_eq]
  split
  · exact Holds.raise hm rfl
  · rename_i f hf
    have ht := Touch.part start hf
    exact (holds_closeSlots hJ.toStable _ _ _ (hJ.touch ht hm)).mono (.single (.touch ht))

/-- All that instructions do in the innermost frame, but for marking, closing and calls. -/
theorem closedWithin {P : (α : Type) → Exec α → Prop} (hP : ∀ {α : Type} {x : Exec α}, Holds J α x → P α x)
    (hb : ∀ {α β : Type} {x : Exec α} {f : α → Exec β}, P α x → (∀ a, P β (f a)) → P β (x >>= f)) :
    ClosedWithin 0 P where
  toClosedAbove := ((Holds.closed hJ.toStable).weaken hP hb).above 0
  base hk := hb (hP ((Holds.closed hJ.toStable).read _)) fun n => hk n (Nat.zero_le _)
  frame hk := hb (hP (Holds.closed hJ.toStable).frame) fun f => hk f (Nat.zero_le _)
  closeList _ := hP ((Holds.closed hJ.toStable).modifyTop _)
  fetch := hP hJ.fetch
  skip := hP (hJ.modifyFrame fun _ => .goto fun f => f.pc + 1)
  jump offset := hP (hJ.jump offset)
  capture _ := hP (hJ.capture _)

/-- Of all that instructions do in the innermost frame, it remains to consider the calls. -/
theorem closedInFrame {host : Host} {P : (α : Type) → Exec α → Prop}
    (hP : ∀ {α : Type} {x : Exec α}, Holds J α x → P α x)
    (hb : ∀ {α β : Type} {x : Exec α} {f : α → Exec β}, P α x → (∀ a, P β (f a)) → P β (x >>= f))
    (hcall : ∀ start count wanted, P Unit (callAt host start count wanted))
    (htail : ∀ r start count, P Unit (tailCall r start count)) : ClosedInFrame host P where
  toClosed := (Holds.closed hJ.toStable).weaken hP hb
  setBroker r v := hP (.setBroker hJ.toStable r v)
  fetch := hP hJ.fetch
  skip := hP (hJ.modifyFrame fun _ => .goto fun f => f.pc + 1)
  jump offset := hP (hJ.jump offset)
  mark slot := hP (hJ.modifyFrame fun _ => .mark slot)
  capture slot := hP (hJ.capture slot)
  closeFrom start := hP (hJ.closeFrom start)
  callAt := hcall
  tailCall := htail

end Steady

/-- A call waits for the values of the next resumption. -/
inductive Awaits (b : Machine) : Machine → Prop
  | intro {m : Machine} (slot : Nat) (wanted : Option Nat) : Deep b m → m.fiber.isYieldable →
      Awaits b (m.await (.call slot wanted))

/-- A yield leaves a call waiting, any other fault is raised above the floor. -/
def Failed (b : Machine) (f : Fault) (m : Machine) : Prop :=
  if f.isYield then Awaits b m else Above b m

theorem failed_of_above {f : Fault} (hf : f.isYield = false) (h : Above b m) : Failed b f m := by
  rw [Failed, hf]
  exact h

def Kept (b : Machine) {α : Type} : Except Fault α → Machine → Prop
  | .ok _, m => Deep b m
  | .error f, m => Failed b f m

/-- A computation in a frame above a floor: it stays in such a frame unless it fails. -/
def Keeps (b : Machine) (α : Type) (x : Exec α) : Prop :=
  ∀ m, Deep b m → (x m).Follows (floor (Above b)) (Kept b) m

theorem kept_of_noYield {α : Type} {r : Except Fault α} (h : Deep b m) (hr : NoYield r) :
    Kept b r m := by
  cases r with
  | ok a => exact h
  | error f => exact failed_of_above hr.of_error h.1

namespace Keeps

variable {α β : Type}

theorem of_holds {x : Exec α} (hx : Holds (Deep b) α x) : Keeps b α x :=
  fun m hm => (hx m hm).imp (Above b) (fun _ h => h.1) fun _ _ h => kept_of_noYield h.1 h.2

theorem bind {x : Exec α} {f : α → Exec β} (hx : Keeps b α x) (hf : ∀ a, Keeps b β (f a)) :
    Keeps b β (x >>= f) := by
  intro m hm
  rw [bind_eq]
  exact (hx m hm).bind (fun a m' h => hf a m' h) fun _ _ h => h

theorem raise {f : Fault} (hm : Deep b m) (hf : f.isYield = false) :
    (Step.raise f m : Step α).Follows (floor (Above b)) (Kept b) m :=
  ⟨.refl, failed_of_above hf hm.1⟩

theorem closed (b : Machine) : Closed (Keeps b) :=
  (Holds.closed (stable_deep b)).weaken of_holds bind

theorem callFault_follows (start : Nat) (wanted : Option Nat) (f : Fault) (hm : Deep b m) :
    (callFault start wanted f m).Follows (floor (Above b)) (Kept b) m := by
  unfold callFault
  split
  · rename_i vs
    rw [bind_eq]
    show (Step.Follows _ _ _ ((if _ then _ else _ : Exec Unit) m))
    split
    · exact raise hm rfl
    · split
      · exact raise hm rfl
      · rename_i hy
        have hy : m.fiber.isYieldable = true := by simpa using hy
        exact ⟨.single (.await _ hy), .intro start wanted hm hy⟩
  · rename_i hf
    exact raise hm (Fault.isYield_of_ne hf)

theorem callAt (host : Host) (start count : Nat) (wanted : Option Nat) :
    Keeps b Unit (callAt host start count wanted) := by
  intro m hm
  have hat : At b m.callDepth m := ⟨hm.1, rfl⟩
  have hdeep : ∀ {m'}, At b m.callDepth m' → Deep b m' := fun h => ⟨h.1, by rw [h.2]; exact hm.2⟩
  rw [callAt_eq]
  -- up to the handler, all but a yield is as in other instructions
  have hcall : (callOutcome host start count wanted m).Follows (floor (Above b))
      (fun _ m' => Deep b m') m := by
    unfold callOutcome
    rw [bind_eq]
    have hbegin := (begin_follows host start count wanted hat).imp
      (Above b) (fun _ h => h.1) (fun _ _ h => h)
    refine hbegin.bind (fun results m₁ h₁ => ?_) fun f m₁ h₁ => hdeep h₁
    cases results with
    | none => exact ⟨.refl, h₁.1, by rw [h₁.2]; exact Nat.lt_succ_of_lt hm.2⟩
    | some vs =>
      refine ((Holds.closed (stable_deep b)).placeResults start wanted vs m₁ (hdeep h₁)).imp (Above b) ?_ ?_
      · exact fun _ h => h.1
      · exact fun _ _ h => h.1
  refine hcall.handle fun result m' h' => ?_
  cases result with
  | ok _ => exact ⟨.refl, h'⟩
  | error f => exact callFault_follows start wanted f h'

end Keeps

/-- One frame less, and no yield in the cleanup. -/
theorem drop_follows {f : Frame} {calls : CallStack} (fault : Option Fault) (h : At b (depth + 1) m)
    (hb : b.callDepth ≤ depth) (hp : m.fiber.calls.pop? = some (f, calls)) :
    (cleanup f fault (m.modifyFiber fun fiber => { fiber with calls })).Follows (floor (At b depth))
      (fun r m' => At b depth m' ∧ NoYield r) m := by
  rw [cleanup_eq]
  have hd : Drop m (m.dropFrame f calls) := .intro hp
  exact (holds_closeSlots (stable_at b depth) _ _ _ (hd.at h hb)).mono (.single (.drop hd))

theorem exists_at_of_deep (h : Deep b m) : ∃ d, b.callDepth ≤ d ∧ At b (d + 1) m := by
  obtain ⟨ha, hd⟩ := h
  exact ⟨m.callDepth - 1, by omega, ha, by omega⟩

theorem leave_follows (vs : List Value) (h : Deep b m) :
    (leave vs m).Follows (floor (Above b)) (fun r m' => Above b m' ∧ NoYield r) m := by
  obtain ⟨d, hb, hat⟩ := exists_at_of_deep h
  obtain ⟨f, calls, hp⟩ := pop?_of_lt (m := m) (by rw [hat.2]; omega)
  unfold leave
  rw [popFrame_bind_eq, hp]
  dsimp only
  rw [bind_eq]
  have hdrop := (drop_follows none hat hb hp).imp (Above b) (fun _ h => h.1) fun _ _ h => h
  exact hdrop.bind (fun _ m' h' => ⟨.refl, h'.1.1, noYield_ok _⟩) fun f m' h' =>
    ⟨h'.1.1, noYield_error h'.2.of_error⟩

theorem keeps_tailCall (r : Ref .closure) (start count : Nat) :
    Keeps b Unit (tailCall r start count) := by
  intro m h
  obtain ⟨d, hb, hat⟩ := exists_at_of_deep h
  obtain ⟨f, calls, hp⟩ := pop?_of_lt (m := m) (by rw [hat.2]; omega)
  have hc := Holds.closed (stable_at b d)
  unfold tailCall
  rw [bind_eq]
  show ((popFrame >>= _) m).Follows _ _ _
  rw [popFrame_bind_eq, hp]
  dsimp only
  -- the new frame is opened at the depth to which the old one was taken off
  have hwrite : Holds (At b d) Unit (do
      setSlot f.returnSlot (.closure r)
      writeRange (f.returnSlot + 1) (m.arena.readRange (start + 1) count)) :=
    hc.bind (hc.setSlot _ _) fun _ => hc.writeRange _ _
  have hpush : Step.Follows (floor (At b d)) (Entered b d) m ((do
      cleanup f none
      (do
        setSlot f.returnSlot (.closure r)
        writeRange (f.returnSlot + 1) (m.arena.readRange (start + 1) count))
      pushFrame r f.returnSlot count f.wanted : Exec Unit)
        (m.modifyFiber fun fiber => { fiber with calls })) := by
    rw [bind_eq]
    refine (drop_follows none hat hb hp).bind (fun _ m₁ h₁ => ?_) fun f m₁ h₁ => ⟨h₁.1, h₁.2.of_error⟩
    rw [bind_eq]
    refine (hwrite m₁ h₁.1).bind (fun _ m₂ h₂ => ?_) fun f m₂ h₂ => ⟨h₂.1, h₂.2.of_error⟩
    exact pushFrame_follows _ r _ count _ h₂.1
  simp only [bind_assoc] at hpush
  refine hpush.imp (Above b) (fun _ h => h.1) fun r' m' h' => ?_
  cases r' with
  | ok _ => exact ⟨h'.1, by rw [h'.2]; omega⟩
  | error f => exact failed_of_above h'.2 h'.1.1

theorem keeps_closedInFrame (host : Host) (b : Machine) : ClosedInFrame host (Keeps b) :=
  (steady_deep b).closedInFrame Keeps.of_holds Keeps.bind (Keeps.callAt host) keeps_tailCall

theorem ret_follows (w : Word) (h : Deep b m) :
    (Instruction.ret w m).Follows (floor (Above b)) (fun r m' => Above b m' ∧ NoYield r) m := by
  have hc := Holds.closed (stable_deep b)
  unfold Instruction.ret
  rw [bind_eq]
  show ((Instruction.listLength w.b _ >>= _) m).Follows _ _ _
  rw [bind_eq]
  have hlength := (Instruction.closed_listLength (hc.above 0) w.b (m.base + w.a.toNat) m h).imp
    (Above b) (fun _ h => h.1) (fun _ _ h => h)
  refine hlength.bind (fun count m₁ h₁ => ?_) fun f m₁ h₁ => ⟨h₁.1.1, noYield_error h₁.2.of_error⟩
  exact leave_follows _ h₁.1

/-- An instruction was executed; a return took the frame off. -/
def Executed (b : Machine) : Except Fault (Option Exit) → Machine → Prop
  | .ok none, m => Deep b m
  | .ok (some _), m => Above b m
  | .error f, m => Failed b f m

theorem execute_follows (host : Host) (w : Word) (h : Deep b m) :
    (execute host w m).Follows (floor (Above b)) (Executed b) m := by
  generalize hx : execute host w = x
  unfold execute at hx
  split at hx <;> subst hx
  · exact ⟨.refl, failed_of_above rfl h.1⟩
  · rw [map_eq_pure_bind, bind_eq]
    refine (ret_follows w h).bind (fun e m₁ h₁ => ⟨.refl, h₁.1⟩) fun f m₁ h₁ => ?_
    exact failed_of_above h₁.2.of_error h₁.1
  · rename_i op _ _
    rw [bind_eq]
    exact (Opcode.closed_run (keeps_closedInFrame host b) op w m h).bind
      (fun _ m₁ h₁ => ⟨.refl, h₁⟩) fun _ _ h₁ => h₁

/-- A step was made: there is a frame to go on with, or values left the machine at the floor. -/
def Stepped (b : Machine) : Except Fault (Option (List Value)) → Machine → Prop
  | .ok none, m => Deep b m
  | .ok (some _), m => At b b.callDepth m
  | .error f, m => Failed b f m

theorem deliver_follows (e : Exit) (h : Above b m) :
    (deliver b.callDepth e m).Follows (floor (Above b)) (Stepped b) m := by
  unfold deliver
  rw [bind_eq]
  show (Step.Follows _ _ _ ((if decide (m.callDepth ≤ b.callDepth) = true then _ else _ : Exec _) m))
  split
  · rename_i hd
    exact ⟨.refl, h, Nat.le_antisymm (by simpa using hd) h.callDepth_le⟩
  · rename_i hd
    have hdeep : Deep b m := ⟨h, by simpa using hd⟩
    rw [bind_eq]
    exact ((Keeps.closed b).placeResults _ _ _ m hdeep).bind (fun _ m' h' => ⟨.refl, h'⟩) fun _ _ h' => h'

theorem step_follows (host : Host) (h : Deep b m) :
    (step host b.callDepth m).Follows (floor (Above b)) (Stepped b) m := by
  unfold step
  rw [bind_eq]
  show (Step.Follows _ _ _ ((if m.isCancelled m.fiber.token = true then _ else _ : Exec _) m))
  split
  · exact ⟨.refl, failed_of_above rfl h.1⟩
  · rw [bind_eq]
    refine ((keeps_closedInFrame host b).fetch m h).bind (fun w m₁ h₁ => ?_) fun _ _ h₁ => h₁
    cases w with
    | none =>
      dsimp only
      rw [bind_eq]
      refine (leave_follows [] h₁).bind (fun e m₂ h₂ => deliver_follows e h₂.1) fun f m₂ h₂ => ?_
      exact failed_of_above h₂.2.of_error h₂.1
    | some w =>
      dsimp only
      rw [bind_eq]
      refine (execute_follows host w h₁).bind (fun e m₂ h₂ => ?_) fun _ _ h₂ => h₂
      cases e with
      | none => exact ⟨.refl, h₂⟩
      | some e => exact deliver_follows e h₂

theorem isYield_locate (m : Machine) (f : Fault) : (m.locate f).isYield = f.isYield := by
  cases f <;> rfl

/-- All frames above the floor were taken off. -/
def Unwound (b : Machine) : Except Fault Fault → Machine → Prop
  | .ok f, m => At b b.callDepth m ∧ f.isYield = false
  | .error _, _ => False

theorem unwindFrames_follows (n : Nat) {f : Fault} (hf : f.isYield = false)
    (h : At b (b.callDepth + n) m) :
    (unwindFrames n f m).Follows (floor (Above b)) (Unwound b) m := by
  induction n generalizing f m with
  | zero => exact ⟨.refl, h, hf⟩
  | succ n ih =>
    obtain ⟨frame, calls, hp⟩ := pop?_of_lt (m := m) (by rw [h.2]; omega)
    unfold unwindFrames
    rw [popFrame_bind_eq, hp]
    dsimp only
    rw [attempt_bind_eq]
    have hdrop := (drop_follows (some f) h (Nat.le_add_right _ _) hp).imp (Above b)
      (fun _ h => h.1) (fun _ _ h => h)
    refine hdrop.handle fun r m' h' => ?_
    cases r with
    | ok _ => exact ih hf h'.1
    | error e =>
      show (unwindFrames n (m'.locate e) m').Follows _ _ _
      exact ih ((isYield_locate m' e).trans h'.2.of_error) h'.1

theorem unwind_follows {f : Fault} (h : Failed b f m) :
    ((unwind b.callDepth f m).bind (Step.raise (α := Option (List Value)))).Follows (floor (Above b))
      (fun r m' => ∃ f', r = .error f' ∧
        if f'.isYield then Awaits b m' else At b b.callDepth m') m := by
  unfold unwind
  split
  · exact ⟨.refl, _, rfl, h⟩
  · rename_i hf
    have hf := Fault.isYield_of_ne hf
    rw [Failed, hf] at h
    have hat : At b (b.callDepth + (m.callDepth - b.callDepth)) m := by
      have hle := h.callDepth_le
      exact ⟨h, by omega⟩
    have hframes := unwindFrames_follows _ ((isYield_locate m f).trans hf) hat
    refine hframes.bind (fun f' m' h' => ⟨.refl, f', rfl, ?_⟩) fun _ _ h' => h'.elim
    rw [h'.2]
    exact h'.1

/-- All frames of a fiber were closed. -/
def ClosedOff (b : Machine) : Except Fault (Option Fault) → Machine → Prop
  | .ok failure, m => At b b.callDepth m ∧ ∀ f, failure = some f → f.isYield = false
  | .error _, _ => False

theorem closeFrames_follows (n : Nat) {failure : Option Fault}
    (hf : ∀ f, failure = some f → f.isYield = false) (h : At b (b.callDepth + n) m) :
    (closeFrames failure n m).Follows (floor (Above b)) (ClosedOff b) m := by
  induction n generalizing failure m with
  | zero => exact ⟨.refl, h, hf⟩
  | succ n ih =>
    obtain ⟨frame, calls, hp⟩ := pop?_of_lt (m := m) (by rw [h.2]; omega)
    unfold closeFrames
    rw [popFrame_bind_eq, hp]
    dsimp only
    rw [attempt_bind_eq]
    have hdrop := (drop_follows none h (Nat.le_add_right _ _) hp).imp (Above b)
      (fun _ h => h.1) (fun _ _ h => h)
    refine hdrop.handle fun r m' h' => ?_
    cases r with
    | ok _ => exact ih hf h'.1
    | error e =>
      refine ih (fun f hf => ?_) h'.1
      cases hf
      exact h'.2.of_error

end Exec
end RegisterMachine
