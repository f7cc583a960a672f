import RegisterMachine.Proofs.Frames
import RegisterMachine.Proofs.Scheduling

/-! The questions that wait. Each one was asked above the floor of its stage, and keeps to the contract of
the stage once it is answered; so every configuration of a run is sound, and every answer balanced. -/
namespace RegisterMachine

open Machine Exec

structure Resumed (o : Machine) (co : Ref .coroutine) (b : Machine) : Prop where
  isCoroutine : b.fiber.isCoroutine = true
  nested : b.fiber.nested = 0
  pending : b.fiber.pending = none
  calls : b.fiber.calls = {}
  waiting : b.waiting = o.fiber :: o.waiting
  active : b.active = co :: o.active
  nativeDepth : b.nativeDepth = o.nativeDepth + 1

/-- The floor of a run that was begun at a machine. -/
def Purpose.Opens (o b : Machine) : Purpose → Prop
  | .call stop top => stop = o.callDepth ∧ top = o.fiber.top ∧ b = o.enterCall
  | .resume co => Resumed o co b

namespace Stage

/-- The floor under the frames of a coroutine that is being closed. -/
structure Closing (o b : Machine) : Prop where
  calls : b.fiber.calls = {}
  waiting : b.waiting = o.fiber :: o.waiting
  active : b.active = o.active
  nativeDepth : b.nativeDepth = o.nativeDepth

def Opens (o b : Machine) : {α : Type} → Stage α → Prop
  | _, .place _ _ => b = o
  | _, .run p _ => p.Opens o b
  | _, .close _ _ => Closing o b

/-- A run was left by a yield: a call waits for values, or nothing is left but what the entry yielded. -/
def Yielded (p : Purpose) (guarded : Bool) (b m : Machine) : Prop :=
  Awaits b m ∨ guarded = false ∧
    match p with
    | .call _ _ => At b b.callDepth m
    | .resume _ => ∃ m₁, At b b.callDepth m₁ ∧ m = m₁.await .entry

def Ends (b : Machine) : {α : Type} → Stage α → Except Fault α → Machine → Prop
  | _, .place _ _, r, m => Balanced b m ∧ NoYield r
  | _, .run _ _, .ok none, m => Deep b m
  | _, .run _ _, .ok (some _), m => At b b.callDepth m
  | _, .run p guarded, .error f, m =>
    if f.isYield then Yielded p guarded b m else if guarded then Above b m else At b b.callDepth m
  | _, .close _ _, r, m => ClosedOff b r m

def closing {α : Type} : Stage α → List (Ref .coroutine)
  | .place _ _ => []
  | .run _ _ => []
  | .close co _ => [co]

end Stage

/-- The question was asked above the floor, and goes on from any balanced answer. -/
def Level.Sound (o : Machine) (l : Level) : Prop :=
  ∃ b, l.stage.Opens o b ∧ Above b l.machine ∧ ∀ r m, Balanced l.machine m ∧ NoYield r →
    (l.next r m).Follows (floor (Above b)) (l.stage.Ends b) m

namespace Config

/-- The questions that wait, down to the first one, which was asked at the given machine; the innermost
one was asked at the other. -/
def Rooted (origin : Machine) : List Level → Machine → Prop
  | [], o => o = origin
  | l :: below, o => o = l.machine ∧ ∃ o', Rooted origin below o' ∧ l.Sound o'

def Sound (origin : Machine) : Config → Prop
  | .work g s below => ∃ o b, Rooted origin below o ∧ g.Opens o b ∧
      s.Follows (floor (Above b)) (g.Ends b) s.machine
  | .loop p m below => ∃ o b, Rooted origin below o ∧ p.Opens o b ∧ Deep b m
  | .answer r m below => ∃ o, Rooted origin below o ∧ Balanced o m ∧ NoYield r

def closings (l : List (Ref .coroutine)) (below : List Level) : List (Ref .coroutine) :=
  below.flatMap (·.stage.closing) ++ l

def closing (l : List (Ref .coroutine)) : Config → List (Ref .coroutine)
  | .work g _ below => g.closing ++ closings l below
  | .loop _ _ below => closings l below
  | .answer _ _ below => closings l below

/-- A change within a stage or by the host, a switch at the end of a stage, or what a host that watches does. -/
inductive Move : List (Ref .coroutine) × Machine → List (Ref .coroutine) × Machine → Prop
  | change {l : List (Ref .coroutine)} {m m' : Machine} : Change m m' → Move (l, m) (l, m')
  | shift {l l' : List (Ref .coroutine)} {m m' : Machine} : Shift l m l' m' → Move (l, m) (l', m')
  | watch {l : List (Ref .coroutine)} {m : Machine} (hook : Option Hook) (snapshots : Array Snapshot)
      (warnings printed : Array String) (isSinkClosed : Bool) (notes : Array (List Value)) :
      Move (l, m) (l, { m with hook, snapshots, warnings, printed, isSinkClosed, notes })

abbrev Moves : List (Ref .coroutine) × Machine → List (Ref .coroutine) × Machine → Prop :=
  Relation.ReflTransGen Move

theorem moves_of_changes (l : List (Ref .coroutine)) {m m' : Machine} (h : Changes m m') :
    Moves (l, m) (l, m') := h.lift (fun m => (l, m)) fun _ _ => .change

/-- A configuration that is sound and can be got to by moves. -/
def Goes (origin : Machine) (l : List (Ref .coroutine)) (st : List (Ref .coroutine) × Machine)
    (c : Config) : Prop :=
  Sound origin c ∧ Moves st (c.closing l, c.machine)

variable {host : Host} {origin o b m : Machine} {l : List (Ref .coroutine)} {below : List Level}
  {α : Type}

theorem changes_of_follows {J : Machine → Prop} {ends : Except Fault α → Machine → Prop} {s : Step α}
    (h : s.Follows (floor J) ends m) : Changes m s.machine := by
  cases s with
  | ret a _ => exact h.1
  | raise f _ => exact h.1
  | ask q _ k => exact h.1

/-- A computation that keeps to the contract of its stage is sound. -/
theorem goes_work {g : Stage α} {s : Step α} (hr : Rooted origin below o) (ho : g.Opens o b)
    (hs : s.Follows (floor (Above b)) (g.Ends b) m) :
    Goes origin l (g.closing ++ closings l below, m) (.work g s below) := by
  have hself : s.Follows (floor (Above b)) (g.Ends b) s.machine := by
    cases s with
    | ret a _ => exact ⟨.refl, hs.2⟩
    | raise f _ => exact ⟨.refl, hs.2⟩
    | ask q _ k => exact ⟨.refl, hs.2⟩
  exact ⟨⟨o, b, hr, ho, hself⟩, moves_of_changes _ (changes_of_follows hs)⟩

theorem goes_answer {r : Except Fault Reply} {m' : Machine} (hr : Rooted origin below o)
    (hb : Balanced o m') (hn : NoYield r) {l' : List (Ref .coroutine)}
    (hs : Moves (l', m) (closings l below, m')) : Goes origin l (l', m) (.answer r m' below) :=
  ⟨⟨o, hr, hb, hn⟩, hs⟩

theorem leaving_eq {f : Fiber} {w : List Fiber} (hw : m.waiting = f :: w) :
    m.leaving = setActiveStatus
      { m with active := m.active.drop 1, nativeDepth := m.nativeDepth - 1, fiber := f, waiting := w }
      .running := by
  simp only [leaving, switchBack, hw]

/-- The coroutine that is left gives way to what resumed it. -/
theorem balanced_leaving {co : Ref .coroutine} (hw : m.waiting = o.fiber :: o.waiting)
    (ha : m.active = co :: o.active)
    (hn : m.nativeDepth = o.nativeDepth + 1) : Balanced o m.leaving := by
  rw [leaving_eq hw]
  refine ⟨fiber_setActiveStatus _ _, waiting_setActiveStatus _ _, ?_, ?_⟩
  · rw [active_setActiveStatus, ha]
    rfl
  · rw [nativeDepth_setActiveStatus, hn]
    rfl

theorem balanced_leaveCall (h : At o.enterCall o.enterCall.callDepth m) :
    Balanced o (m.leaveCall o.fiber.top) := by
  obtain ⟨ha, hd⟩ := h
  refine ⟨?_, ha.waiting, ha.active, ?_⟩
  · show ({ m.fiber with nested := m.fiber.nested - 1, top := o.fiber.top } : Fiber) = o.fiber
    rw [ha.fiber, ha.calls_eq hd]
    rfl
  · show m.nativeDepth - 1 = o.nativeDepth
    rw [ha.nativeDepth]
    rfl

theorem not_awaits_enterCall : ¬Awaits o.enterCall m := by
  rintro ⟨slot, wanted, hd, hy⟩
  rw [hd.1.fiber] at hy
  simp [Fiber.isYieldable, enterCall] at hy

theorem noYield_withoutYield (r : Except Fault (List Value)) :
    NoYield ((withoutYield r).map fun values => ({ values } : Reply)) := by
  unfold withoutYield
  split
  · exact noYield_error rfl
  · rename_i hf
    cases r with
    | ok vs => exact noYield_ok _
    | error f => exact noYield_error (Fault.isYield_of_ne fun vs h => hf vs (by rw [h]))

theorem goes_leave_call {stop top : Nat} {r : Except Fault (List Value)}
    (hr : Rooted origin below o) (ho : (Purpose.call stop top).Opens o b)
    (h : At b b.callDepth m) :
    Goes origin l (closings l below, m) (leave (.call stop top) r m below) := by
  obtain ⟨rfl, rfl, rfl⟩ := ho
  exact goes_answer hr (balanced_leaveCall h) (noYield_withoutYield r) (.single (.shift (.leaveCall _)))

theorem goes_finished {co : Ref .coroutine} {r : Except Fault Reply} (hr : Rooted origin below o)
    (ho : Resumed o co b) (h : At b b.callDepth m) (hn : NoYield r) :
    Goes origin l (closings l below, m) (.answer r (m.leaving.setStatus co .dead) below) := by
  obtain ⟨ha, hd⟩ := h
  have hw := ha.waiting.trans ho.waiting
  have hact := ha.active.trans ho.active
  have hb := balanced_leaving hw hact (ha.nativeDepth.trans ho.nativeDepth)
  have hframes : m.fiber.calls.frames = [] := by rw [ha.calls_eq hd, ho.calls]
  refine goes_answer hr ?_ hn (.single (.shift (.finish hact hw hframes)))
  exact ⟨hb.fiber, hb.waiting, hb.active, hb.nativeDepth⟩

theorem leaveCoroutine_error (co : Ref .coroutine) (m : Machine) {f : Fault} (hf : f.isYield = false) :
    leaveCoroutine co (.error f) m = (.error f, m.leaving.setStatus co .dead) := by
  unfold leaveCoroutine
  split
  · rename_i h
    cases h
  · rename_i h
    cases h
    cases hf
  · rename_i h
    cases h
    rfl

theorem parked_of_yielded {co : Ref .coroutine} {guarded : Bool} (ho : Resumed o co b)
    (h : Stage.Yielded (.resume co) guarded b m) : m.fiber.Parked := by
  obtain ⟨⟨slot, wanted, hd, -⟩⟩ | ⟨-, m₁, ⟨ha, hd⟩, rfl⟩ := h
  · rename_i m₁
    obtain ⟨f, fs, hf, -⟩ := Above.cons hd
    have hfiber := hd.1.fiber
    refine ⟨?_, ?_, ?_⟩
    · show m₁.fiber.isCoroutine = true
      rw [hfiber]
      exact ho.isCoroutine
    · show m₁.fiber.nested = 0
      rw [hfiber]
      exact ho.nested
    · show m₁.fiber.calls.frames ≠ []
      rw [hf]
      exact List.cons_ne_nil _ _
  · refine ⟨?_, ?_, ?_⟩
    · show m₁.fiber.isCoroutine = true
      rw [ha.fiber]
      exact ho.isCoroutine
    · show m₁.fiber.nested = 0
      rw [ha.fiber]
      exact ho.nested
    · show m₁.fiber.calls.frames = []
      rw [ha.calls_eq hd, ho.calls]

theorem Yielded.same {p : Purpose} {guarded : Bool} (h : Stage.Yielded p guarded b m) :
    m.waiting = b.waiting ∧ m.active = b.active ∧ m.nativeDepth = b.nativeDepth := by
  obtain ⟨⟨slot, wanted, hd, -⟩⟩ | ⟨-, h⟩ := h
  · exact ⟨hd.1.waiting, hd.1.active, hd.1.nativeDepth⟩
  · cases p with
    | call stop top => exact ⟨h.1.waiting, h.1.active, h.1.nativeDepth⟩
    | resume co =>
      obtain ⟨m₁, ⟨ha, -⟩, rfl⟩ := h
      exact ⟨ha.waiting, ha.active, ha.nativeDepth⟩

theorem goes_yielded {co : Ref .coroutine} {vs : List Value} {guarded : Bool}
    (hr : Rooted origin below o) (ho : Resumed o co b)
    (h : Stage.Yielded (.resume co) guarded b m) :
    Goes origin l (closings l below, m) (.answer (.ok ⟨vs, true⟩)
      ((m.leaving.park co (some m.fiber)).setStatus co .suspended) below) := by
  obtain ⟨hw, hact, hdepth⟩ := Yielded.same h
  have hw := hw.trans ho.waiting
  have hact := hact.trans ho.active
  have hb := balanced_leaving hw hact (hdepth.trans ho.nativeDepth)
  refine goes_answer hr ?_ (noYield_ok _) (.single (.shift (.yield hact hw (parked_of_yielded ho h))))
  exact ⟨hb.fiber, hb.waiting, hb.active, hb.nativeDepth⟩

/-- What a run comes to is answered. -/
theorem goes_leave {p : Purpose} {r : Except Fault (List Value)}
    (hr : Rooted origin below o) (ho : p.Opens o b)
    (h : (Stage.run p false).Ends b (r.map some) m) :
    Goes origin l (closings l below, m) (leave p r m below) := by
  cases p with
  | call stop top =>
    refine goes_leave_call hr ho ?_
    cases r with
    | ok vs => exact h
    | error f =>
      change (if f.isYield then _ else At b b.callDepth m) at h
      split at h
      · obtain ha | ⟨-, h⟩ := h
        · obtain ⟨-, -, rfl⟩ := ho
          exact absurd ha not_awaits_enterCall
        · exact h
      · exact h
  | resume co =>
    cases r with
    | ok vs => exact goes_finished hr ho h (noYield_ok _)
    | error f =>
      obtain ⟨vs, rfl⟩ | hf := f.yield_or
      · exact goes_yielded hr ho h
      · change (if f.isYield then _ else At b b.callDepth m) at h
        rw [hf] at h
        rw [leave, leaveCoroutine_error co m hf]
        exact goes_finished hr ho h (noYield_error hf)

/-- What a run comes to is answered after a switch. -/
theorem shift_leave {p : Purpose} {r : Except Fault (List Value)} (ho : p.Opens o b)
    (h : (Stage.run p false).Ends b (r.map some) m) (below : List Level) :
    Shift l m l (leave p r m below).machine := by
  cases p with
  | call stop top => exact .leaveCall top
  | resume co =>
    have hfinish : At b b.callDepth m → Shift l m l (m.leaving.setStatus co .dead) := by
      rintro ⟨ha, hd⟩
      have hframes : m.fiber.calls.frames = [] := by rw [ha.calls_eq hd, Resumed.calls ho]
      exact .finish (ha.active.trans ho.active) (ha.waiting.trans ho.waiting) hframes
    cases r with
    | ok vs => exact hfinish h
    | error f =>
      obtain ⟨vs, rfl⟩ | hf := f.yield_or
      · have hy : Stage.Yielded (.resume co) false b m := h
        obtain ⟨hw, hact, -⟩ := Yielded.same hy
        exact .yield (hact.trans ho.active) (hw.trans ho.waiting) (parked_of_yielded ho hy)
      · change (if f.isYield then _ else At b b.callDepth m) at h
        rw [hf] at h
        rw [leave, leaveCoroutine_error co m hf]
        exact hfinish h

theorem failed_of_ends {p : Purpose} {f : Fault} (h : (Stage.run p true).Ends b (.error f) m) :
    Failed b f m := by
  change (if f.isYield then Stage.Yielded p true b m else Above b m) at h
  unfold Failed
  split
  · rename_i hf
    rw [if_pos hf] at h
    exact h.resolve_right fun h => Bool.noConfusion h.1
  · rename_i hf
    rw [if_neg hf] at h
    exact h

/-- A guarded fault unwinds the frames. -/
theorem goes_unwind {p : Purpose} {f : Fault} (hr : Rooted origin below o)
    (ho : p.Opens o b) (hs : p.stop = b.callDepth)
    (h : (Stage.run p true).Ends b (.error f) m) :
    Goes origin l (closings l below, m)
      (.work (.run p false) ((Exec.unwind p.stop f m).bind .raise) below) := by
  have hends : ∀ r m', (∃ f', r = .error f' ∧ if f'.isYield then Exec.Awaits b m'
      else At b b.callDepth m') → (Stage.run p false).Ends b r m' := by
    rintro r m' ⟨f', rfl, h'⟩
    change (if f'.isYield then Stage.Yielded p false b m' else At b b.callDepth m')
    split
    · rename_i hf
      rw [if_pos hf] at h'
      exact .inl h'
    · rename_i hf
      rw [if_neg hf] at h'
      exact h'
  rw [hs]
  exact goes_work hr ho ((unwind_follows (failed_of_ends h)).imp (Above b) (fun _ h => h) hends)

theorem stop_eq {p : Purpose} (ho : p.Opens o b) :
    p.stop = b.callDepth := by
  cases p with
  | call stop top =>
    obtain ⟨rfl, -, rfl⟩ := ho
    rfl
  | resume co =>
    show 0 = b.fiber.calls.depth
    rw [Resumed.calls ho]

/-- The callee and the arguments are in place, and the call begins. -/
theorem goes_begin (start count : Nat) (hr : Rooted origin below o) (h : Balanced o m) :
    Goes origin l (closings l below, m)
      (.work (.run (.call m.callDepth m.fiber.top) false)
        (Exec.begin host start count none m.enterCall) below) := by
  have hd : m.callDepth = o.callDepth := h.callDepth_eq
  have hcall : Balanced o.enterCall m.enterCall :=
    ⟨by simp only [enterCall, h.fiber], h.waiting, h.active, by simp only [enterCall, h.nativeDepth]⟩
  have hat : At o.enterCall o.enterCall.callDepth m.enterCall :=
    ⟨(Above.refl _).balanced hcall, hcall.callDepth_eq⟩
  have ho : (Stage.run (.call m.callDepth m.fiber.top) false).Opens o o.enterCall :=
    ⟨hd, by rw [h.fiber], rfl⟩
  have hends : ∀ r m', Begun o.enterCall o.enterCall.callDepth r m' →
      (Stage.run (.call m.callDepth m.fiber.top) false).Ends o.enterCall r m' := by
    intro r m' h'
    obtain f | _ | vs := r
    · change (if f.isYield then _ else At _ _ m')
      split
      · exact .inr ⟨rfl, h'⟩
      · exact h'
    · exact ⟨h'.1, by rw [h'.2]; exact Nat.lt_succ_self _⟩
    · exact h'
  have hfollows := (begin_follows host start count none hat).imp (Above o.enterCall)
    (fun _ h => h.1) hends
  obtain ⟨hs, hm⟩ := goes_work (l := l) hr ho hfollows
  exact ⟨hs, hm.head (.shift .enterCall)⟩

/-- The frames of a coroutine were closed. -/
theorem goes_closed {co : Ref .coroutine} {token : Ref .token} {failure : Option Fault}
    (hr : Rooted origin below o) (ho : Stage.Closing o b) (h : ClosedOff b (.ok failure) m) :
    Goes origin l (co :: closings l below, m)
      (.answer (m.switchBack.endClosing co token failure).1
        (m.switchBack.endClosing co token failure).2 below) := by
  obtain ⟨⟨ha, hd⟩, hf⟩ := h
  have hw := ha.waiting.trans ho.waiting
  have hframes : m.fiber.calls.frames = [] := by rw [ha.calls_eq hd, ho.calls]
  have hback : m.switchBack = { m with fiber := o.fiber, waiting := o.waiting } := by
    simp only [switchBack, hw]
  have hactive := ha.active.trans ho.active
  have hdepth := ha.nativeDepth.trans ho.nativeDepth
  refine goes_answer hr ?_ ?_ (.single (.shift (.closed token failure hw hframes)))
  · rw [hback]
    cases failure <;> exact ⟨rfl, rfl, hactive, hdepth⟩
  · cases failure with
    | none => exact noYield_ok _
    | some f => exact noYield_error (hf f rfl)

/-- What follows when a stage is over is sound. -/
theorem goes_finish {g : Stage α} {r : Except Fault α} (hr : Rooted origin below o)
    (ho : g.Opens o b) (h : g.Ends b r m) :
    Goes origin l (g.closing ++ closings l below, m) (finish host g r m below) := by
  cases g with
  | place start count =>
    obtain rfl : b = o := ho
    cases r with
    | ok _ => exact goes_begin start count hr h.1
    | error f => exact goes_answer hr h.1 (noYield_error h.2.of_error) .refl
  | run p guarded =>
    obtain f | _ | vs := r
    · cases guarded with
      | true => exact goes_unwind hr ho (stop_eq ho) h
      | false => exact goes_leave hr ho (r := .error f) h
    · exact ⟨⟨o, b, hr, ho, h⟩, .refl⟩
    · exact goes_leave hr ho (r := .ok vs) h
  | close co token =>
    cases r with
    | ok failure => exact goes_closed hr ho h
    | error f => exact h.elim

theorem goes_place (i : Nat) (v : Value) (args : List Value) (hr : Rooted origin below m) :
    Goes origin l (closings l below, m) (.work (.place i args.length) ((do
      Exec.setSlot i v
      Exec.writeRange (i + 1) args : Exec Unit) m) below) := by
  refine goes_work (g := .place i args.length) (b := m) hr rfl ?_
  rw [bind_eq]
  unfold Exec.setSlot
  split
  · rename_i h₁
    have hpath := Relation.ReflTransGen.single (Change.quiet (Quiet.write (.put i v) h₁))
    simp only [Step.bind]
    unfold Exec.writeRange
    split
    · rename_i h₂
      exact ⟨hpath.tail (.quiet (.write (.putRange (i + 1) args) h₂)), ⟨rfl, rfl, rfl, rfl⟩, noYield_ok _⟩
    · exact ⟨hpath, ⟨rfl, rfl, rfl, rfl⟩, noYield_error rfl⟩
  · exact ⟨.refl, .refl m, noYield_error rfl⟩

theorem ends_of_failed {p : Purpose} {f : Fault} (h : Failed b f m) :
    (Stage.run p true).Ends b (.error f) m := by
  change (if f.isYield then Stage.Yielded p true b m else Above b m)
  unfold Failed at h
  split
  · rename_i hf
    rw [if_pos hf] at h
    exact .inl h
  · rename_i hf
    rw [if_neg hf] at h
    exact h

/-- A function of the host is the entry of a coroutine. -/
theorem goes_native (co : Ref .coroutine) (r : Ref .native) (args : List Value)
    (hr : Rooted origin below o) (ho : Resumed o co b) (h : At b b.callDepth m) :
    Goes origin l (closings l below, m) (.work (.run (.resume co) false)
      ((Exec.invokeNative host r args m).handle fun result m =>
        match result with
        | .ok vs => .ret (some vs) m
        | .error (.interrupt (.yield vs)) =>
          .raise (.yield vs) (m.modifyFiber fun f => { f with pending := some .entry })
        | .error f => .raise f m) below) := by
  refine goes_work (g := .run (.resume co) false) (b := b) hr ho ?_
  have hnative := (invokeNative_follows (stable_at b b.callDepth) host r args h).imp
    (Above b) (fun _ h => h.1) (fun _ _ h => h)
  refine hnative.handle fun result m' h' => ?_
  split
  · exact ⟨.refl, h'⟩
  · have hy : m'.fiber.isYieldable = true := by
      rw [Fiber.isYieldable, h'.1.fiber]
      simp only [ho.isCoroutine, ho.nested, BEq.rfl, Bool.and_self]
    exact ⟨.single (.await .entry hy), .inr ⟨rfl, m', h', rfl⟩⟩
  · rename_i f hf
    refine ⟨.refl, ?_⟩
    change (if f.isYield then _ else At b b.callDepth m')
    rw [Fault.isYield_of_ne fun vs he => hf vs he]
    exact h'

/-- A closure is the entry of a coroutine. -/
theorem goes_closure (co : Ref .coroutine) (r : Ref .closure) (args : List Value)
    (hr : Rooted origin below o) (ho : Resumed o co b) (h : At b b.callDepth m) :
    Goes origin l (closings l below, m) (.work (.run (.resume co) false) (((do
      Exec.setSlot 0 (.closure r)
      Exec.writeRange 1 args
      Exec.pushFrame r 0 args.length none : Exec Unit) m).bind fun () m => .ret none m) below) := by
  refine goes_work (g := .run (.resume co) false) (b := b) hr ho ?_
  have hc := Holds.closed (stable_at b b.callDepth)
  have hwrite := (hc.bind (hc.setSlot 0 (.closure r)) fun _ => hc.writeRange 1 args) m h
  have hpush : Step.Follows (floor (At b b.callDepth)) (Entered b b.callDepth) m ((do
      (do
        Exec.setSlot 0 (.closure r)
        Exec.writeRange 1 args)
      Exec.pushFrame r 0 args.length none : Exec Unit) m) := by
    rw [bind_eq]
    exact hwrite.bind (fun _ m₁ h₁ => pushFrame_follows _ r 0 _ none h₁.1) fun f m₁ h₁ =>
      ⟨h₁.1, h₁.2.of_error⟩
  simp only [bind_assoc] at hpush
  refine (hpush.imp (Above b) (fun _ h => h.1) fun _ _ h => h).bind (fun _ m₁ h₁ => ?_) ?_
  · exact ⟨.refl, h₁.1, by rw [h₁.2]; exact Nat.lt_succ_self _⟩
  · intro f m₁ h₁
    change (if f.isYield then _ else At b b.callDepth m₁)
    rw [h₁.2]
    exact h₁.1

/-- A coroutine that was parked goes on. -/
theorem goes_start {co : Ref .coroutine} {c : Coroutine} {fiber : Fiber} (args : List Value)
    (hr : Rooted origin below m) (hc : m.heap.coroutine? co = some c) (hs : c.status = .suspended)
    (hp : c.parked = some fiber) (hf : fiber.Parked) :
    Goes origin l (closings l below, m)
      (start host co c.entry args (m.enterCoroutine co fiber) below) := by
  let m₀ := m.enterCoroutine co { fiber with pending := none }
  let b : Machine := { m₀ with fiber := { m₀.fiber with calls := {} } }
  have ho : Resumed m co b := ⟨hf.isCoroutine, hf.nested, rfl, rfl, waiting_enterCoroutine _ _ _,
    active_enterCoroutine _ _ _, nativeDepth_enterCoroutine _ _ _⟩
  have ha : Above b m₀ := ⟨rfl, List.nil_suffix, rfl, rfl, rfl⟩
  have hempty : fiber.calls.frames = [] → At b b.callDepth m₀ := fun h =>
    ⟨ha, by rw [callDepth_eq]; exact congrArg List.length h⟩
  -- whatever goes on, the coroutine was entered before
  have hshift : ∀ {c'}, Goes origin l (closings l below, m₀) c' → Goes origin l (closings l below, m) c' :=
    fun h => ⟨h.1, h.2.head (.shift (.enter hc hs hp))⟩
  have hshape := hf.shape
  refine hshift ?_
  unfold start
  rw [fiber_enterCoroutine]
  dsimp only
  split
  · rename_i slot wanted hpending
    rw [hpending] at hshape
    have hdeep : Deep b m₀ := by
      refine ⟨ha, ?_⟩
      show 0 < m₀.callDepth
      rw [callDepth_eq]
      exact List.length_pos_iff.2 hshape
    have hplace := (Keeps.closed b).placeResults slot wanted args m₀ hdeep
    refine goes_work (g := .run (.resume co) true) (b := b) hr ho ?_
    exact hplace.bind (fun _ m₁ h₁ => ⟨.refl, h₁⟩) fun f m₁ h₁ => ends_of_failed h₁
  · rename_i hpending
    rw [hpending] at hshape
    exact goes_work (g := .run (.resume co) false) (b := b) hr ho ⟨.refl, hempty hshape⟩
  · rename_i hpending
    rw [hpending] at hshape
    split
    · exact goes_native co _ args hr ho (hempty hshape)
    · exact goes_closure co _ args hr ho (hempty hshape)

theorem balanced_setStatus (m : Machine) (co : Ref .coroutine) (status : Status) :
    Balanced m (m.setStatus co status) := ⟨rfl, rfl, rfl, rfl⟩

/-- A coroutine without frames, or whose frames are being closed already, is closed at once. -/
theorem goes_discard {co : Ref .coroutine} {c : Coroutine} (token : Ref .token)
    (hr : Rooted origin below m) (hc : m.heap.coroutine? co = some c) (hs : c.status = .suspended)
    (hp : ∀ fiber, c.parked = some fiber → fiber.calls.frames = []) :
    Goes origin l (closings l below, m) (.answer ((m.park co none).endClosing co token none).1
      ((m.park co none).endClosing co token none).2 below) := by
  refine goes_answer hr ?_ (noYield_ok _) (.single (.shift (.discard token hc hs hp)))
  exact ⟨rfl, rfl, rfl, rfl⟩

theorem goes_close {co : Ref .coroutine} {c : Coroutine} {fiber : Fiber} (hr : Rooted origin below m)
    (hc : m.heap.coroutine? co = some c) (hs : c.status = .suspended) (hp : c.parked = some fiber) :
    Goes origin l (closings l below, m) (.work (.close co c.token)
      (Exec.closeFrames none fiber.calls.depth ((m.park co none).switchTo fiber)) below) := by
  let m₀ := (m.park co none).switchTo fiber
  let b : Machine := { m₀ with fiber := { m₀.fiber with calls := {} } }
  have ho : (Stage.close co c.token).Opens m b := ⟨rfl, rfl, rfl, rfl⟩
  have ha : At b (b.callDepth + fiber.calls.depth) m₀ :=
    ⟨⟨rfl, List.nil_suffix, rfl, rfl, rfl⟩, (Nat.zero_add _).symm⟩
  have hnone : ∀ f : Fault, none = some f → f.isYield = false := fun _ h => nomatch h
  have hclose := closeFrames_follows fiber.calls.depth hnone ha
  obtain ⟨hsound, hmoves⟩ := goes_work (l := l) hr ho hclose
  exact ⟨hsound, hmoves.head (.shift (.close hc hs hp))⟩

theorem goes_ask (q : Query) (hr : Rooted origin below m) (hs : Scheduled (closings l below) m) :
    Goes origin l (closings l below, m) (ask host q m below) := by
  have h := response_ask host q m below
  generalize ask host q m below = c at h ⊢
  cases h with
  | refuse hf => exact goes_answer hr (.refl m) (noYield_error (Fault.isYield_of_isBare hf)) .refl
  | place f args _ => exact goes_place _ _ _ hr
  | cancel args hc hst _ =>
    exact goes_answer hr (balanced_setStatus _ _ _) (noYield_error rfl) (.single (.shift (.refuse hc hst)))
  | start args hc hst _ hp => exact goes_start _ hr hc hst hp (hs.parked_of_suspended hc hst hp).2
  | done co => exact goes_answer hr (.refl m) (noYield_ok _) .refl
  | discard hc hst hp => exact goes_discard _ hr hc hst hp
  | close hc hst hp => exact goes_close hr hc hst hp

theorem goes_next {c c' : Config} (h : Sound origin c) (hs : Scheduled (c.closing l) c.machine)
    (hn : Next host c c') : Goes origin l (c.closing l, c.machine) c' := by
  cases c with
  | work g s below =>
    obtain ⟨o, b, hr, ho, hf⟩ := h
    cases s with
    | ret a m =>
      cases hn
      exact goes_finish hr ho hf.2
    | raise f m =>
      cases hn
      exact goes_finish hr ho hf.2
    | ask q m k =>
      cases hn
      obtain ⟨-, ha, hk⟩ := hf
      have hroot : Rooted origin (⟨g, q, m, k⟩ :: below) m := ⟨rfl, o, hr, b, ho, ha, hk⟩
      have hcl : closings l (⟨g, q, m, k⟩ :: below) = g.closing ++ closings l below := by
        simp only [closings, List.flatMap_cons, List.append_assoc]
      change Scheduled (g.closing ++ closings l below) m at hs
      show Goes origin l (g.closing ++ closings l below, m) _
      rw [← hcl] at hs ⊢
      exact goes_ask q hroot hs
  | loop p m below =>
    cases hn
    obtain ⟨o, b, hr, ho, hd⟩ := h
    refine goes_work (g := .run p true) hr ho ?_
    have hstep := step_follows host hd
    rw [← stop_eq ho] at hstep
    refine hstep.imp (Above b) (fun _ h => h) fun r m' h' => ?_
    obtain f | _ | vs := r
    · exact ends_of_failed h'
    · exact h'
    · exact h'
  | answer r m below =>
    cases below with
    | nil => cases hn
    | cons lev below =>
      cases hn
      obtain ⟨o, ⟨rfl, o', hr, b, ho, ha, hk⟩, hb, hy⟩ := h
      have hcl : closings l (lev :: below) = lev.stage.closing ++ closings l below := by
        simp only [closings, List.flatMap_cons, List.append_assoc]
      show Goes origin l (closings l (lev :: below), m) _
      rw [hcl]
      exact goes_work hr ho (hk r m ⟨hb, hy⟩)

end Config
end RegisterMachine
