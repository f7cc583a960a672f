import RegisterMachine.Proofs.Frames

/-! Targets. Every frame has a slot from which on its results are written, and a number of them that is
wanted. Whatever runs on top of a frame leaves them as they are, a call in its place takes them over, and
so the values that leave it at last go where they would have gone in the first place. -/
namespace RegisterMachine

open Machine

/-- The slot and the number of the results. -/
abbrev Target : Type := Nat × Option Nat

def Frame.target (f : Frame) : Target := (f.returnSlot, f.wanted)

def Exit.target (e : Exit) : Target := (e.slot, e.wanted)

namespace Machine

variable {m m' : Machine}

def targets (m : Machine) : List Target := m.fiber.calls.frames.map Frame.target

theorem length_targets (m : Machine) : m.targets.length = m.callDepth := by
  rw [targets, List.length_map, callDepth_eq]

theorem stable_targets (P : List Target → Prop) : Stable fun m => P m.targets where
  quiet hq h := by
    rw [targets, hq.calls_eq]
    exact h
  balanced hb h := by
    rw [targets, hb.fiber]
    exact h

theorem targets_modifyFrame {g : Frame → Frame}
    (hg : ∀ f, m.frame? = some f → (g f).target = f.target) : (m.modifyFrame g).targets = m.targets := by
  show (m.fiber.calls.modifyTop g).frames.map Frame.target = m.fiber.calls.frames.map Frame.target
  rw [frame?, CallStack.top?] at hg
  cases hf : m.fiber.calls.frames with
  | nil =>
    rw [← List.length_eq_zero_iff, ← CallStack.depth_eq] at hf
    rw [List.map_nil, List.map_eq_nil_iff, ← List.length_eq_zero_iff, ← CallStack.depth_eq,
      depth_modifyTop, hf]
  | cons f fs =>
    rw [frames_modifyTop g hf, List.map_cons, List.map_cons, hg f (by rw [hf]; rfl)]

theorem Touch.targets_eq (h : Touch m m') : m'.targets = m.targets := by
  cases h with
  | goto g => exact targets_modifyFrame fun _ _ => rfl
  | mark slot => exact targets_modifyFrame fun _ _ => rfl
  | @capture f slot hf hb => exact targets_modifyFrame (m := { m with heap := _ }) fun _ _ => rfl
  | @part f start hf =>
    refine targets_modifyFrame (m := m) fun f' hf' => ?_
    rw [hf] at hf'
    cases hf'
    rfl

theorem steady_targets (P : List Target → Prop) : Exec.Steady fun m => P m.targets where
  toStable := stable_targets P
  touch ht h := by
    rw [ht.targets_eq]
    exact h

theorem targets_of_pop {f : Frame} {calls : CallStack} (h : m.fiber.calls.pop? = some (f, calls)) :
    m.targets = f.target :: (m.dropFrame f calls).targets := by
  rw [targets, frames_of_pop h]
  rfl

end Machine

namespace Exec

variable {m : Machine} {T : List Target}

def Aimed (T : List Target) {α : Type} : Except Fault α → Machine → Prop
  | .ok _, m => T <:+ m.targets
  | .error _, m => T.tail <:+ m.targets

/-- A computation in a frame that keeps its target and those of the frames below. -/
def Aims (T : List Target) (α : Type) (x : Exec α) : Prop :=
  ∀ m, T <:+ m.targets → (x m).Follows (floor fun _ => True) (Aimed T) m

theorem aimed_of_suffix {α : Type} (h : T <:+ m.targets) (r : Except Fault α) : Aimed T r m := by
  cases r with
  | ok a => exact h
  | error f => exact (List.tail_suffix T).trans h

/-- What follows from holding the targets as they are. -/
theorem holds_targets {α : Type} {x : Exec α} (P : List Target → Prop)
    (hx : Holds (fun m => P m.targets) α x) (h : P m.targets) :
    (x m).Follows (floor fun _ => True) (fun _ m' => P m'.targets) m :=
  (hx m h).imp (fun _ => True) (fun _ _ => trivial) fun _ _ h => h.1

theorem tail_suffix_of_cons {x : Target} {X : List Target} (h : T <:+ x :: X) : T.tail <:+ X := by
  obtain rfl | h := List.suffix_cons_iff.1 h
  · exact List.suffix_refl X
  · exact (List.tail_suffix T).trans h

namespace Aims

variable {α β : Type}

theorem of_holds {x : Exec α} (hx : Holds (fun m => T <:+ m.targets) α x) : Aims T α x := by
  intro m hm
  exact (holds_targets (T <:+ ·) hx hm).imp _ (fun _ _ => trivial) fun r _ h => aimed_of_suffix h r

theorem bind {x : Exec α} {f : α → Exec β} (hx : Aims T α x) (hf : ∀ a, Aims T β (f a)) :
    Aims T β (x >>= f) := by
  intro m hm
  rw [bind_eq]
  exact (hx m hm).bind (fun a m' h => hf a m' h) fun _ _ h => h

theorem raise (hm : T <:+ m.targets) (f : Fault) :
    (Step.raise f m : Step α).Follows (floor fun _ => True) (Aimed T) m :=
  ⟨.refl, aimed_of_suffix hm _⟩

theorem closed (T : List Target) : Closed (Aims T) :=
  (Holds.closed (stable_targets (T <:+ ·))).weaken of_holds bind

end Aims

/-- A frame with a target was opened on top of others, or something failed before that. -/
def Stacked (t : Target) (X : List Target) : Except Fault Unit → Machine → Prop
  | .ok _, m => m.targets = t :: X
  | .error _, m => m.targets = X

/-- A new frame has the target of the call. -/
theorem pushFrame_targets (r : Ref .closure) (start count : Nat) (wanted : Option Nat) {X : List Target}
    (h : m.targets = X) : (pushFrame r start count wanted m).Follows (floor fun _ => True)
      (Stacked (start, wanted) X) m := by
  obtain ⟨m', hq, hr⟩ := pushFrame_cases r start count wanted m
  have hpath : Changes m m' := hq.lift id fun _ _ => .quiet
  have h' : m'.targets = X := (stable_targets (· = X)).path hq h
  obtain hr | ⟨henter, hr⟩ := hr <;> rw [hr]
  · exact ⟨hpath, h'⟩
  · exact ⟨hpath.tail (.enter henter), congrArg (List.cons (start, wanted)) h'⟩

theorem begin_targets (host : Host) (start count : Nat) (wanted : Option Nat) (h : T <:+ m.targets) :
    (begin host start count wanted m).Follows (floor fun _ => True) (fun _ m' => T <:+ m'.targets) m := by
  have hJ := stable_targets (T <:+ ·)
  unfold begin
  rw [bind_eq]
  refine (holds_targets (T <:+ ·) ((Holds.closed hJ).resolveAlong _ _ _) h).bind (fun p m₁ h₁ => ?_)
    fun _ _ h₁ => h₁
  obtain ⟨r | r, count⟩ := p
  · dsimp only
    rw [bind_eq]
    refine (pushFrame_targets r start count wanted rfl).bind (fun _ m₂ h₂ => ⟨.refl, ?_⟩) fun f m₂ h₂ => ?_
    · show T <:+ m₂.targets
      rw [show m₂.targets = (start, wanted) :: m₁.targets from h₂]
      exact h₁.trans (List.suffix_cons _ _)
    · rw [show m₂.targets = m₁.targets from h₂]
      exact h₁
  · dsimp only
    simp only [map_eq_pure_bind, bind_eq, readRange, read, Step.bind]
    exact ((invokeNative_follows hJ host r _ h₁).imp _ (fun _ _ => trivial) fun _ _ h => h).bind
      (fun vs m₂ h₂ => ⟨.refl, h₂⟩) fun f m₂ h₂ => h₂

theorem callFault_targets (start : Nat) (wanted : Option Nat) (f : Fault) (h : T <:+ m.targets) :
    (callFault start wanted f m).Follows (floor fun _ => True) (Aimed T) m := by
  unfold callFault
  split
  · rename_i vs
    rw [bind_eq]
    show (Step.Follows _ _ _ ((if _ then _ else _ : Exec Unit) m))
    split
    · exact Aims.raise h _
    · split
      · exact Aims.raise h _
      · rename_i hy
        have hy : m.fiber.isYieldable = true := by simpa using hy
        exact ⟨.single (.await _ hy), (List.tail_suffix T).trans h⟩
  · exact Aims.raise h _

theorem aims_callAt (host : Host) (start count : Nat) (wanted : Option Nat) :
    Aims T Unit (callAt host start count wanted) := by
  intro m hm
  have hcall : (callOutcome host start count wanted m).Follows (floor fun _ => True)
      (fun _ m' => T <:+ m'.targets) m := by
    unfold callOutcome
    rw [bind_eq]
    refine (begin_targets host start count wanted hm).bind (fun results m₁ h₁ => ?_) fun _ _ h₁ => h₁
    cases results with
    | none => exact ⟨.refl, h₁⟩
    | some vs =>
      exact holds_targets (T <:+ ·) ((Holds.closed (stable_targets _)).placeResults start wanted vs) h₁
  rw [callAt_eq]
  refine hcall.handle fun result m' h' => ?_
  cases result with
  | ok _ => exact ⟨.refl, h'⟩
  | error f => exact callFault_targets start wanted f h'

/-- A frame that goes leaves the targets of the others. -/
theorem drop_targets {f : Frame} {calls : CallStack} {X : List Target} (fault : Option Fault)
    (hp : m.fiber.calls.pop? = some (f, calls)) (h : m.targets = f.target :: X) :
    (cleanup f fault (m.modifyFiber fun fiber => { fiber with calls })).Follows (floor fun _ => True)
      (fun r m' => m'.targets = X ∧ NoYield r) m := by
  rw [targets_of_pop hp] at h
  have hX : (m.dropFrame f calls).targets = X := (List.cons.inj h).2
  rw [cleanup_eq]
  exact ((holds_closeSlots (stable_targets (· = X)) _ _ _ hX).imp (fun _ => True) (fun _ _ => trivial)
    fun _ _ h => h).mono (.single (.drop (.intro hp)))

def Sent (T : List Target) : Except Fault Exit → Machine → Prop
  | .ok e, m => T <:+ e.target :: m.targets
  | .error _, m => T.tail <:+ m.targets

theorem leave_targets (vs : List Value) (h : T <:+ m.targets) :
    (leave vs m).Follows (floor fun _ => True) (Sent T) m := by
  unfold leave
  rw [popFrame_bind_eq]
  cases hp : m.fiber.calls.pop? with
  | none => exact ⟨.refl, (List.tail_suffix T).trans h⟩
  | some p =>
    obtain ⟨f, calls⟩ := p
    have ht := targets_of_pop hp
    rw [ht] at h
    dsimp only
    rw [bind_eq]
    refine (drop_targets none hp ht).bind (fun _ m' h' => ⟨.refl, ?_⟩) fun e m' h' => ?_
    · show T <:+ f.target :: m'.targets
      rw [h'.1]
      exact h
    · show T.tail <:+ m'.targets
      rw [h'.1]
      exact tail_suffix_of_cons h

theorem aims_tailCall (r : Ref .closure) (start count : Nat) : Aims T Unit (tailCall r start count) := by
  intro m h
  unfold tailCall
  rw [bind_eq]
  show ((popFrame >>= _) m).Follows _ _ _
  rw [popFrame_bind_eq]
  cases hp : m.fiber.calls.pop? with
  | none => exact Aims.raise h _
  | some p =>
    obtain ⟨f, calls⟩ := p
    have ht := targets_of_pop hp
    generalize (m.dropFrame f calls).targets = X at ht
    rw [ht] at h
    have htail := tail_suffix_of_cons h
    have hc := Holds.closed (stable_targets (· = X))
    have hwrite : Holds (fun m => m.targets = X) Unit (do
        setSlot f.returnSlot (.closure r)
        writeRange (f.returnSlot + 1) (m.arena.readRange (start + 1) count)) :=
      hc.bind (hc.setSlot _ _) fun _ => hc.writeRange _ _
    have hpush : Step.Follows (floor fun _ => True) (Aimed T) m ((do
        cleanup f none
        (do
          setSlot f.returnSlot (.closure r)
          writeRange (f.returnSlot + 1) (m.arena.readRange (start + 1) count))
        pushFrame r f.returnSlot count f.wanted : Exec Unit)
          (m.modifyFiber fun fiber => { fiber with calls })) := by
      rw [bind_eq]
      refine (drop_targets none hp ht).bind (fun _ m₁ h₁ => ?_) fun e m₁ h₁ => ?_
      · rw [bind_eq]
        refine (holds_targets (· = X) hwrite h₁.1).bind (fun _ m₂ h₂ => ?_) fun e m₂ h₂ => ?_
        · refine (pushFrame_targets r f.returnSlot count f.wanted h₂).imp _ (fun _ h => h) fun e m₃ h₃ => ?_
          cases e with
          | ok _ =>
            rw [Aimed, show m₃.targets = f.target :: X from h₃]
            exact h
          | error e =>
            rw [Aimed, show m₃.targets = X from h₃]
            exact htail
        · rw [Aimed, h₂]
          exact htail
      · rw [Aimed, h₁.1]
        exact htail
    simp only [bind_assoc] at hpush
    exact hpush

theorem aims_closedInFrame (host : Host) (T : List Target) : ClosedInFrame host (Aims T) :=
  (steady_targets (T <:+ ·)).closedInFrame Aims.of_holds Aims.bind (aims_callAt host) aims_tailCall

/-- A step up to what leaves the innermost frame. -/
def advance (host : Host) : Exec (Option Exit) := do
  if ← read fun m => m.isCancelled m.fiber.token then fail .cancelled
  match ← fetch with
  | none => some <$> leave []
  | some w => execute host w

/-- What left a frame, if anything did, is handed on. -/
def handOn (stop : Nat) : Option Exit → Exec (Option (List Value))
  | some e => deliver stop e
  | none => pure none

theorem step_eq (host : Host) (stop : Nat) : step host stop = advance host >>= handOn stop := by
  funext m
  simp only [step, advance, bind_assoc]
  rw [bind_eq, bind_eq]
  refine congrArg (Step.bind (read (fun m => m.isCancelled m.fiber.token) m)) ?_
  funext b m
  cases b with
  | true => rfl
  | false =>
    simp only [Bool.false_eq_true, if_false, bind_assoc]
    rw [bind_eq, bind_eq]
    refine congrArg (Step.bind (fetch m)) ?_
    funext w m
    cases w with
    | none => simp only [map_eq_pure_bind, bind_assoc, pure_bind, handOn]
    | some w =>
      refine congrFun (congrArg (execute host w >>= ·) (funext fun e => ?_)) m
      cases e <;> rfl

/-- The frame is there still, or what left it has its target. -/
def Advanced (T : List Target) : Except Fault (Option Exit) → Machine → Prop
  | .ok none, m => T <:+ m.targets
  | .ok (some e), m => T <:+ e.target :: m.targets
  | .error _, m => T.tail <:+ m.targets

theorem map_leave_targets {x : Exec Exit} (hx : (x m).Follows (floor fun _ => True) (Sent T) m) :
    ((some <$> x) m).Follows (floor fun _ => True) (Advanced T) m := by
  rw [map_eq_pure_bind, bind_eq]
  exact hx.bind (fun _ _ h => ⟨.refl, h⟩) fun _ _ h => h

theorem ret_targets (w : Word) (h : T <:+ m.targets) :
    (Instruction.ret w m).Follows (floor fun _ => True) (Sent T) m := by
  unfold Instruction.ret
  rw [bind_eq]
  show ((Instruction.listLength w.b _ >>= _) m).Follows _ _ _
  rw [bind_eq]
  have hlength := Instruction.closed_listLength ((Aims.closed T).above 0) w.b (m.base + w.a.toNat) m h
  exact hlength.bind (fun count m₁ h₁ => leave_targets _ h₁) fun _ _ h₁ => h₁

theorem execute_targets (host : Host) (w : Word) (h : T <:+ m.targets) :
    (execute host w m).Follows (floor fun _ => True) (Advanced T) m := by
  generalize hx : execute host w = x
  unfold execute at hx
  split at hx <;> subst hx
  · exact ⟨.refl, (List.tail_suffix T).trans h⟩
  · exact map_leave_targets (ret_targets w h)
  · rename_i op _ _
    rw [bind_eq]
    exact (Opcode.closed_run (aims_closedInFrame host T) op w m h).bind
      (fun _ m₁ h₁ => ⟨.refl, h₁⟩) fun _ _ h₁ => h₁

theorem advance_targets (host : Host) (h : T <:+ m.targets) :
    (advance host m).Follows (floor fun _ => True) (Advanced T) m := by
  unfold advance
  rw [bind_eq]
  show (Step.Follows _ _ _ ((if m.isCancelled m.fiber.token = true then _ else _ : Exec _) m))
  split
  · exact ⟨.refl, (List.tail_suffix T).trans h⟩
  · rw [bind_eq]
    refine ((aims_closedInFrame host T).fetch m h).bind (fun w m₁ h₁ => ?_) fun _ _ h₁ => h₁
    cases w with
    | none => exact map_leave_targets (leave_targets [] h₁)
    | some w => exact execute_targets host w h₁

end Exec
end RegisterMachine
