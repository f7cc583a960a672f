import RegisterMachine.Proofs.Slots

/-! Fences. A run on top of the frames of a machine writes only above all that those frames use: the
windows of its own frames, the slots where their results go and the ends of open lists are all at or
above the first slot that was free. So it spares every slot below. -/
namespace RegisterMachine
namespace Machine

/-- The slot behind the window of the innermost frame. -/
def windowEnd (m : Machine) : Nat :=
  match m.frame? with
  | some f => f.top
  | none => 0

theorem freeSlot_eq (m : Machine) : m.fiber.freeSlot = max m.fiber.top m.windowEnd := by
  unfold Fiber.freeSlot windowEnd frame?
  split <;> simp_all

/-- A frame whose window and results are at or above a slot. -/
structure FrameFrom (low : Nat) (f : Frame) : Prop where
  base : low ≤ f.base
  returnSlot : low ≤ f.returnSlot

/-- A machine that runs on top of the frames of another one, and uses no slot below the given one. -/
structure Fenced (low : Nat) (b m : Machine) : Prop where
  above : Above b m
  frames : ∃ upper, m.fiber.calls.frames = upper ++ b.fiber.calls.frames ∧ ∀ f ∈ upper, FrameFrom low f
  top : low ≤ max m.fiber.top b.windowEnd

namespace Fenced

variable {low : Nat} {b m m' : Machine}

theorem arena_eq (h : Fenced low b m) : m.fiber.arena = b.fiber.arena := by rw [h.above.fiber]

theorem of_calls (h : Fenced low b m) (ha : Above b m') (hc : m'.fiber.calls = m.fiber.calls)
    (ht : low ≤ m'.fiber.top ∨ m'.fiber.top = m.fiber.top) : Fenced low b m' := by
  refine ⟨ha, ?_, ?_⟩
  · rw [hc]
    exact h.frames
  · obtain ht | ht := ht
    · exact Nat.le_trans ht (Nat.le_max_left _ _)
    · rw [ht]
      exact h.top

theorem balanced (h : Fenced low b m) (hb : Balanced m m') : Fenced low b m' :=
  h.of_calls (h.above.balanced hb) (by rw [hb.fiber]) (.inr (by rw [hb.fiber]))

theorem quiet (h : Fenced low b m) (hq : Quiet m m')
    (ht : low ≤ m'.fiber.top ∨ m'.fiber.top = m.fiber.top) : Fenced low b m' :=
  h.of_calls (h.above.quiet hq) hq.calls_eq ht

/-- With a frame of its own, the innermost one is above the fence. -/
theorem exists_frame (h : Fenced low b m) (hd : b.callDepth < m.callDepth) :
    ∃ f upper, m.fiber.calls.frames = f :: (upper ++ b.fiber.calls.frames) ∧ FrameFrom low f ∧
      ∀ f ∈ upper, FrameFrom low f := by
  obtain ⟨upper, eq, bounds⟩ := h.frames
  cases upper with
  | nil =>
    rw [callDepth_eq, callDepth_eq, eq] at hd
    simp at hd
  | cons f upper =>
    exact ⟨f, upper, eq, bounds f List.mem_cons_self, fun g hg => bounds g (List.mem_cons_of_mem f hg)⟩

theorem frame? (h : Fenced low b m) (hd : b.callDepth < m.callDepth) :
    ∃ f, m.frame? = some f ∧ FrameFrom low f := by
  obtain ⟨f, upper, eq, bound, -⟩ := h.exists_frame hd
  refine ⟨f, ?_, bound⟩
  show m.fiber.calls.frames.head? = some f
  rw [eq]
  rfl

theorem le_freeSlot (h : Fenced low b m) : low ≤ m.fiber.freeSlot := by
  rw [freeSlot_eq]
  by_cases hd : b.callDepth < m.callDepth
  · obtain ⟨f, hf, bound⟩ := h.frame? hd
    have : f.base ≤ f.top := Nat.le_add_right _ _
    have := bound.base
    simp only [windowEnd, hf]
    omega
  · have hle := h.above.callDepth_le
    have hc := h.above.calls_eq (by omega)
    have htop := h.top
    have hend : m.windowEnd = b.windowEnd := by
      simp only [windowEnd, Machine.frame?, hc]
    rw [hend]
    exact htop

theorem modifyFrame (h : Fenced low b m) (hd : b.callDepth < m.callDepth) {g : Frame → Frame}
    (hg : ∀ f, FrameFrom low f → FrameFrom low (g f)) : Fenced low b (m.modifyFrame g) := by
  obtain ⟨f, upper, eq, bound, bounds⟩ := h.exists_frame hd
  refine ⟨(Deep.modifyFrame ⟨h.above, hd⟩ g).1, ⟨g f :: upper, ?_, ?_⟩, h.top⟩
  · exact frames_modifyTop g eq
  · intro f' hf'
    obtain rfl | hf' := List.mem_cons.1 hf'
    · exact hg f bound
    · exact bounds f' hf'

theorem modifyHeap (h : Fenced low b m) (g : Heap → Heap) : Fenced low b (m.modifyHeap g) :=
  ⟨⟨h.above.fiber, h.above.frames, h.above.waiting, h.above.active, h.above.nativeDepth⟩, h.frames, h.top⟩

theorem enterFrame (h : Fenced low b m) {f : Frame} (hf : FrameFrom low f) :
    Fenced low b (m.enterFrame f) := by
  obtain ⟨upper, eq, bounds⟩ := h.frames
  refine ⟨⟨?_, ?_, h.above.waiting, h.above.active, h.above.nativeDepth⟩, ⟨f :: upper, ?_, ?_⟩, h.top⟩
  · show ({ m.fiber with calls := _ } : Fiber) = _
    rw [h.above.fiber]
    rfl
  · exact h.above.frames.trans (List.suffix_cons _ _)
  · show f :: m.fiber.calls.frames = _
    rw [eq]
    rfl
  · intro f' hf'
    obtain rfl | hf' := List.mem_cons.1 hf'
    · exact hf
    · exact bounds f' hf'

theorem dropFrame (h : Fenced low b m) {f : Frame} {calls : CallStack}
    (hd : b.callDepth < m.callDepth) (hp : m.fiber.calls.pop? = some (f, calls)) :
    FrameFrom low f ∧ Fenced low b (m.dropFrame f calls) := by
  obtain ⟨f', upper, eq, bound, bounds⟩ := h.exists_frame hd
  obtain ⟨rfl, hcalls⟩ := List.cons.inj ((frames_of_pop hp).symm.trans eq)
  refine ⟨bound, ⟨?_, ?_, h.above.waiting, h.above.active, h.above.nativeDepth⟩, ⟨upper, hcalls, bounds⟩, h.top⟩
  · show ({ m.fiber with calls := _ } : Fiber) = _
    rw [h.above.fiber]
    rfl
  · show _ <:+ calls.frames
    rw [hcalls]
    exact List.suffix_append _ _

end Fenced
end Machine

open Machine

abbrev SparedChanges (a : Ref .arena) (i : Nat) : Machine → Machine → Prop :=
  Relation.ReflTransGen fun m m' => Change m m' ∧ Spares a i m m'

/-- Between questions there are changes that spare a slot; answers are balanced. -/
def fence (a : Ref .arena) (i low : Nat) (b : Machine) : Contract where
  path := SparedChanges a i
  asks := Fenced low b
  answers m _ m' := Balanced m m'

instance (a : Ref .arena) (i low : Nat) (b : Machine) : IsTrans Machine (fence a i low b).path :=
  inferInstanceAs (IsTrans Machine (SparedChanges a i))

namespace Exec

/-- A fenced machine with a certain number of frames. -/
def Inside (low : Nat) (b : Machine) (D : Nat → Prop) (m : Machine) : Prop :=
  Fenced low b m ∧ D m.callDepth

/-- A computation that stays behind the fence, with as many frames as are wanted. -/
def Stays (a : Ref .arena) (i low : Nat) (b : Machine) (D : Nat → Prop) (α : Type) (x : Exec α) : Prop :=
  ∀ m, Inside low b D m → (x m).Follows (fence a i low b) (fun _ m' => Inside low b D m') m

variable {a : Ref .arena} {i low : Nat} {b m m' : Machine} {D : Nat → Prop} {α β : Type}

namespace Stays

theorem bind {x : Exec α} {f : α → Exec β} (hx : Stays a i low b D α x)
    (hf : ∀ a', Stays a i low b D β (f a')) : Stays a i low b D β (x >>= f) := by
  intro m hm
  rw [bind_eq]
  exact (hx m hm).bind (fun a' m' h => hf a' m' h) fun _ _ h => h

theorem raise (hm : Inside low b D m) (f : Fault) :
    (Step.raise f m : Step α).Follows (fence a i low b) (fun _ m' => Inside low b D m') m := ⟨.refl, hm⟩

/-- A quiet change that spares the slot. -/
theorem quiet (hm : Inside low b D m) (hq : Quiet m m') (hs : Spares a i m m')
    (ht : low ≤ m'.fiber.top ∨ m'.fiber.top = m.fiber.top) (x : α) :
    (Step.ret x m').Follows (fence a i low b) (fun _ m' => Inside low b D m') m :=
  ⟨.single ⟨.quiet hq, hs⟩, hm.1.quiet hq ht, by rw [hq.callDepth_eq]; exact hm.2⟩

theorem script (s : Script α) : Stays a i low b D α s.exec := by
  intro m hm
  induction s generalizing m with
  | done a => exact ⟨.refl, hm⟩
  | fail f => exact raise hm f
  | look k ih => exact ih m m hm
  | act x k ih =>
    have hq := Quiet.act (m := m) x
    have htop : (x.apply m).2.fiber.top = m.fiber.top := by cases x <;> rfl
    have hin : Inside low b D (x.apply m).2 :=
      ⟨hm.1.quiet hq (.inr htop), by rw [hq.callDepth_eq]; exact hm.2⟩
    exact (ih _ _ hin).mono (.single ⟨.quiet hq, .act x⟩)
  | ask q k ih => exact ⟨.refl, hm.1, fun r m' h => ih r m' ⟨hm.1.balanced h, by rw [h.callDepth_eq]; exact hm.2⟩⟩

theorem setBroker (r : Ref .broker) (v : Value) : Stays a i low b D Unit (setBroker r v) := by
  intro m hm
  unfold Exec.setBroker
  split
  · rename_i x slot hr
    split
    · rename_i hs
      exact quiet hm (.assign v hr hs) (.assign v hr) (.inr rfl) ()
    · exact raise hm _
  · rename_i hr
    exact quiet hm (.assignClosed v hr) (.assignClosed r v) (.inr rfl) ()

variable (hb : b.fiber.arena = a → i < low)

include hb

theorem write (op : Arena.Op) (hw : op.WritesFrom low) : Stays a i low b D Unit fun m =>
    if op.fits m.arena then .ret () (m.modifyArena op.apply) else .raise .stackOverflow m := by
  intro m hm
  dsimp only
  split
  · rename_i h
    exact quiet hm (.write op h) (.write (fun ha => hb (hm.1.arena_eq.symm.trans ha)) hw) (.inr rfl) ()
  · exact raise hm _

theorem closed : ClosedAbove low (Stays a i low b D) where
  pure _ _ hm := ⟨.refl, hm⟩
  bind := bind
  fail _ _ hm := raise hm _
  read _ _ hm := ⟨.refl, hm⟩
  setSlot v hs := write hb (.put _ v) hs
  writeRange vs hs := write hb (.putRange _ vs) hs
  clearRange stop hs := write hb (.clearRange _ stop) hs
  setTop {top} ht _ hm := quiet hm (.top top) (.of_eq rfl rfl) (.inl ht) ()
  setFrom r first vs _ hm := quiet hm (.setFrom r first vs) (.of_eq rfl rfl) (.inr rfl) ()
  newClosure c _ hm := quiet hm (.closure c) (.of_eq rfl rfl) (.inr rfl) _
  script _ := script _

theorem closeSlots (slots : List Nat) (error : Value) :
    Stays a i low b D Unit (closeSlots slots error) :=
  (closed hb).bind ((closed hb).read _) fun _ => script _

omit hb in
theorem stopForDebugger : Stays a i low b D Unit stopForDebugger := by
  intro m hm
  unfold Exec.stopForDebugger
  split
  · rename_i s answer _ _
    have hq := quiet (a := a) (i := i) hm (.snapshot s) (.of_eq rfl rfl) (.inr rfl) ()
    cases answer with
    | some f => exact hq
    | none => exact hq
  · exact ⟨.refl, hm⟩

omit hb in
theorem invokeNative (host : Host) (r : Ref .native) (args : List Value) :
    Stays a i low b D (List Value) (invokeNative host r args) := by
  intro m hm
  refine (script _ m hm).handle fun result m' hm' => ?_
  split
  · exact ⟨.refl, hm'⟩
  · rw [bind_eq]
    exact (stopForDebugger m' hm').bind (fun _ m'' h => ⟨.refl, h⟩) fun _ _ h => h
  · exact raise hm' _

theorem openWindow {f : Frame} (hf : low ≤ f.base) (count : Nat) :
    Stays a i low b D Unit (openWindow f count) := by
  have hc := closed (D := D) hb
  have htop : low ≤ f.top := Nat.le_trans hf (Nat.le_add_right _ _)
  refine hc.bind (write hb (.grow f.top) trivial) fun _ => ?_
  exact hc.bind (hc.clearRange _ (by omega)) fun _ => hc.setTop htop

omit hb in
/-- Where there is a frame, the end of its window is above the fence. -/
theorem closeList (other : Nat) : Stays a i low b (b.callDepth < ·) Unit (modify fun m =>
    m.setTop (match m.frame? with
      | some f => f.top
      | none => other)) := by
  intro m hm
  obtain ⟨f, hf, bound⟩ := hm.1.frame? hm.2
  have htop : low ≤ f.top := Nat.le_trans bound.base (Nat.le_add_right _ _)
  simp only [modify, hf]
  exact quiet hm (.top f.top) (.of_eq rfl rfl) (.inl htop) ()

theorem placeResults {start : Nat} (hs : low ≤ start) (wanted : Option Nat) (vs : List Value) :
    Stays a i low b (b.callDepth < ·) Unit (placeResults start wanted vs) := by
  have hc := closed (D := (b.callDepth < ·)) hb
  cases wanted with
  | some n => exact hc.bind (hc.writeRange _ hs) fun _ => closeList _
  | none => exact hc.bind (hc.writeRange _ hs) fun _ => hc.setTop (by omega)

end Stays

/-- A frame was opened, or something failed before that. -/
def Opened (low : Nat) (b : Machine) (d : Nat) {α : Type} : Except Fault α → Machine → Prop
  | .ok _, m => Inside low b (· = d + 1) m
  | .error _, m => Inside low b (· = d) m

/-- A call was begun: it has a frame now, or it is done. -/
def Started (low : Nat) (b : Machine) (d : Nat) : Except Fault (Option (List Value)) → Machine → Prop
  | .ok none, m => Inside low b (· = d + 1) m
  | _, m => Inside low b (· = d) m

section

variable (hb : b.fiber.arena = a → i < low) {start d : Nat}

include hb

theorem pushFrame_fenced (r : Ref .closure) (hs : low ≤ start) (count : Nat) (wanted : Option Nat)
    (hm : Inside low b (· = d) m) :
    (pushFrame r start count wanted m).Follows (fence a i low b) (Opened low b d) m := by
  rw [pushFrame_eq]
  split
  · exact ⟨.refl, hm⟩
  · rename_i hlimit
    have hframe : FrameFrom low (newFrame m r start count wanted) := ⟨Nat.le_succ_of_le hs, hs⟩
    have hstays := Stays.openWindow (D := (· = d)) hb hframe.base count m hm
    obtain ⟨m', hq, hr⟩ := openWindow_quiet (newFrame m r start count wanted) count m
    obtain ⟨hdepth, hlimits⟩ := Quiet.same_of_path hq
    rw [bind_eq]
    obtain hr | hr := hr <;> rw [hr] at hstays ⊢
    · obtain ⟨hpath, hin⟩ := hstays
      have henter : Enter m' (m'.enterFrame (newFrame m r start count wanted)) :=
        .intro _ rfl rfl (by rw [hdepth, hlimits]; omega)
      refine ⟨hpath.tail ⟨.enter henter, .of_eq rfl rfl⟩, hin.1.enterFrame hframe, ?_⟩
      show m'.callDepth + 1 = d + 1
      rw [hin.2]
    · exact hstays

theorem begin_fenced (host : Host) (hs : low ≤ start) (count : Nat) (wanted : Option Nat)
    (hm : Inside low b (· = d) m) :
    (begin host start count wanted m).Follows (fence a i low b) (Started low b d) m := by
  unfold begin
  rw [bind_eq]
  refine ((Stays.closed hb).resolveAlong hs _ _ m hm).bind (fun p m₁ h₁ => ?_) fun f m₁ h₁ => h₁
  obtain ⟨r | r, count⟩ := p
  · dsimp only
    rw [bind_eq]
    exact (pushFrame_fenced hb r hs count wanted h₁).bind (fun _ m₂ h₂ => ⟨.refl, h₂⟩) fun f m₂ h₂ => h₂
  · dsimp only
    simp only [map_eq_pure_bind, bind_eq, readRange, read, Step.bind]
    exact (Stays.invokeNative host r _ m₁ h₁).bind (fun vs m₂ h₂ => ⟨.refl, h₂⟩) fun f m₂ h₂ => h₂

end

/-- A frame is left to go on with. After a yield there is nothing to go on with; any other fault is
raised behind the fence. -/
def Worked (low : Nat) (b : Machine) {α : Type} : Except Fault α → Machine → Prop
  | .ok _, m => Inside low b (b.callDepth < ·) m
  | .error f, m => f.isYield = false → Fenced low b m

/-- A computation in a frame of its own behind the fence. -/
def Works (a : Ref .arena) (i low : Nat) (b : Machine) (α : Type) (x : Exec α) : Prop :=
  ∀ m, Inside low b (b.callDepth < ·) m → (x m).Follows (fence a i low b) (Worked low b) m

namespace Works

theorem of_stays {x : Exec α} (hx : Stays a i low b (b.callDepth < ·) α x) : Works a i low b α x := by
  intro m hm
  refine (hx m hm).imp (Fenced low b) (fun _ h => h) fun r m' h => ?_
  cases r with
  | ok _ => exact h
  | error f => exact fun _ => h.1

theorem bind {x : Exec α} {f : α → Exec β} (hx : Works a i low b α x)
    (hf : ∀ a', Works a i low b β (f a')) : Works a i low b β (x >>= f) := by
  intro m hm
  rw [bind_eq]
  exact (hx m hm).bind (fun a' m' h => hf a' m' h) fun _ _ h => h

theorem raise (hm : Inside low b D m) (f : Fault) :
    (Step.raise f m : Step α).Follows (fence a i low b) (Worked low b) m := ⟨.refl, fun _ => hm.1⟩

/-- The innermost frame is changed, but not its place. -/
theorem modifyFrame {g : Frame → Frame} (hg : ∀ f, FrameFrom low f → FrameFrom low (g f))
    (ht : Touch m (m.modifyFrame g)) (hm : Inside low b (b.callDepth < ·) m) (x : α) :
    (Step.ret x (m.modifyFrame g)).Follows (fence a i low b) (Worked low b) m := by
  have hdeep := ht.deep ⟨hm.1.above, hm.2⟩
  exact ⟨.single ⟨.touch ht, .of_eq rfl rfl⟩, hm.1.modifyFrame hm.2 hg, hdeep.2⟩

theorem goto {pc : Frame → Nat} (hm : Inside low b (b.callDepth < ·) m) (x : α) :
    (Step.ret x (m.modifyFrame fun f => { f with pc := pc f })).Follows (fence a i low b) (Worked low b) m :=
  modifyFrame (g := fun f => { f with pc := pc f }) (fun _ h => ⟨h.base, h.returnSlot⟩) (.goto pc) hm x

theorem fetch : Works a i low b (Option Word) fetch := by
  intro m hm
  unfold Exec.fetch
  split
  · exact raise hm _
  · split
    · exact goto hm _
    · exact ⟨.refl, hm⟩

theorem jump (offset : Int) : Works a i low b Unit (jump offset) := by
  intro m hm
  unfold Exec.jump
  split
  · exact raise hm _
  · split
    · exact goto hm _
    · exact raise hm _

theorem onFrame {g : Frame → Frame} (hg : ∀ f, FrameFrom low f → FrameFrom low (g f))
    (ht : ∀ m, Touch m (m.modifyFrame g)) : Works a i low b Unit (Exec.modifyFrame g) := by
  intro m hm
  unfold Exec.modifyFrame
  split
  · exact modifyFrame hg (ht m) hm ()
  · exact raise hm _

theorem callFault (start : Nat) (wanted : Option Nat) (f : Fault) : Works a i low b Unit (callFault start wanted f) := by
  intro m hm
  unfold Exec.callFault
  split
  · rename_i vs
    rw [bind_eq]
    show (Step.Follows _ _ _ ((if _ then _ else _ : Exec Unit) m))
    split
    · exact raise hm _
    · split
      · exact raise hm _
      · rename_i hy
        have hy : m.fiber.isYieldable = true := by simpa using hy
        exact ⟨.single ⟨.await _ hy, .of_eq rfl rfl⟩, fun h => Bool.noConfusion h⟩
  · exact raise hm _

variable (hb : b.fiber.arena = a → i < low)

include hb

theorem capture {slot : Nat} (hs : low ≤ slot) : Works a i low b (Ref .broker) (capture slot) := by
  intro m hm
  rw [capture_eq]
  split
  · exact raise hm _
  · rename_i f hf
    split
    · exact ⟨.refl, hm⟩
    · rename_i hbroker
      have ht := Touch.capture hf hbroker
      have hin : Fenced low b (m.openBroker slot) :=
        (hm.1.modifyHeap fun h => (h.newBroker (.live m.fiber.arena slot)).2).modifyFrame hm.2
          fun _ h => ⟨h.base, h.returnSlot⟩
      refine ⟨.single ⟨.touch ht, ?_⟩, hin, (ht.deep ⟨hm.1.above, hm.2⟩).2⟩
      exact .openBroker (fun ha => hb (hm.1.arena_eq.symm.trans ha)) hs

theorem closed : ClosedAbove low (Works a i low b) := (Stays.closed hb).weaken of_stays bind

theorem callAt (host : Host) {start : Nat} (count : Nat) (wanted : Option Nat) (hs : low ≤ start) :
    Works a i low b Unit (callAt host start count wanted) := by
  intro m hm
  have hdeep : ∀ {m'}, Inside low b (· = m.callDepth) m' → Inside low b (b.callDepth < ·) m' :=
    fun h => ⟨h.1, by rw [h.2]; exact hm.2⟩
  rw [callAt_eq]
  -- up to the handler a frame is left, whatever failed
  have hcall : (callOutcome host start count wanted m).Follows (fence a i low b)
      (fun _ m' => Inside low b (b.callDepth < ·) m') m := by
    unfold callOutcome
    rw [bind_eq]
    refine (begin_fenced hb host hs count wanted (d := m.callDepth) ⟨hm.1, rfl⟩).bind
      (fun results m₁ h₁ => ?_) fun f m₁ h₁ => hdeep h₁
    cases results with
    | none => exact ⟨.refl, h₁.1, by rw [h₁.2]; exact Nat.lt_succ_of_lt hm.2⟩
    | some vs => exact Stays.placeResults hb hs wanted vs m₁ (hdeep h₁)
  refine hcall.handle fun result m' h' => ?_
  cases result with
  | ok _ => exact ⟨.refl, h'⟩
  | error f => exact callFault start wanted f m' h'

theorem closedInside (host : Host) : ClosedInside host low (Works a i low b) where
  toClosedAbove := closed hb
  base hk m hm := by
    obtain ⟨f, hf, bound⟩ := hm.1.frame? hm.2
    have hbase : m.base = f.base := by simp only [Machine.base, hf]
    rw [bind_eq]
    exact hk m.base (by rw [hbase]; exact bound.base) m hm
  frame hk m hm := by
    obtain ⟨f, hf, bound⟩ := hm.1.frame? hm.2
    rw [bind_eq, Exec.frame, hf]
    exact hk f bound.base m hm
  closeList other := of_stays (Stays.closeList other)
  fetch := fetch
  skip := onFrame (fun _ h => ⟨h.base, h.returnSlot⟩) fun _ => .goto fun f => f.pc + 1
  jump := jump
  capture := capture hb
  callAt count wanted hs := callAt hb host count wanted hs

theorem closeFrom (start : Nat) : Works a i low b Unit (closeFrom start) := by
  intro m hm
  rw [closeFrom_eq]
  split
  · exact raise hm _
  · rename_i f hf
    obtain ⟨f', hf', bound⟩ := hm.1.frame? hm.2
    obtain rfl : f = f' := Option.some.inj (hf.symm.trans hf')
    have ht := Touch.part start hf
    have hin : Fenced low b (m.part f start) :=
      (hm.1.modifyFrame (g := fun _ => ((f.detachBrokers start).2.takeMarks start).2) hm.2
        fun _ _ => ⟨bound.base, bound.returnSlot⟩).modifyHeap _
    have hdeep : Inside low b (b.callDepth < ·) (m.part f start) :=
      ⟨hin, (ht.deep ⟨hm.1.above, hm.2⟩).2⟩
    exact (of_stays (Stays.closeSlots hb _ .nil) _ hdeep).mono (.single ⟨.touch ht, .closeBrokers rfl⟩)

end Works

section

variable (hb : b.fiber.arena = a → i < low) {d : Nat} {f : Frame} {calls : CallStack}

include hb

/-- One frame less; where its results go is above the fence. -/
theorem drop_fenced (fault : Option Fault) (hm : Inside low b (· = d + 1) m) (hd : b.callDepth ≤ d)
    (hp : m.fiber.calls.pop? = some (f, calls)) :
    low ≤ f.returnSlot ∧
      (cleanup f fault (m.modifyFiber fun fiber => { fiber with calls })).Follows (fence a i low b)
        (fun _ m' => Inside low b (· = d) m') m := by
  have hdeep : b.callDepth < m.callDepth := by rw [hm.2]; omega
  obtain ⟨bound, hdrop⟩ := hm.1.dropFrame hdeep hp
  refine ⟨bound.returnSlot, ?_⟩
  have hdepth : (m.dropFrame f calls).callDepth = d := by
    show calls.depth = d
    have hall := callDepth_of_pop hp
    have hm := hm.2
    omega
  rw [cleanup_eq]
  exact (Stays.closeSlots hb _ _ _ ⟨hdrop, hdepth⟩).mono (.single ⟨.drop (.intro hp), .closeBrokers rfl⟩)

omit hb in
theorem exists_pop (hm : Inside low b (b.callDepth < ·) m) :
    ∃ d f calls, b.callDepth ≤ d ∧ Inside low b (· = d + 1) m ∧ m.fiber.calls.pop? = some (f, calls) := by
  have hdepth := hm.2
  obtain ⟨f, calls, hp⟩ := pop?_of_lt (m := m) (Nat.zero_lt_of_lt hdepth)
  exact ⟨m.callDepth - 1, f, calls, by omega, ⟨hm.1, by omega⟩, hp⟩

def Left (low : Nat) (b : Machine) : Except Fault Exit → Machine → Prop
  | .ok e, m => Fenced low b m ∧ low ≤ e.slot
  | .error _, m => Fenced low b m

theorem leave_fenced (vs : List Value) (hm : Inside low b (b.callDepth < ·) m) :
    (leave vs m).Follows (fence a i low b) (Left low b) m := by
  obtain ⟨d, f, calls, hd, hat, hp⟩ := exists_pop hm
  obtain ⟨hslot, hdrop⟩ := drop_fenced hb none hat hd hp
  unfold leave
  rw [popFrame_bind_eq, hp]
  dsimp only
  rw [bind_eq]
  exact hdrop.bind (fun _ m' h' => ⟨.refl, h'.1, hslot⟩) fun f m' h' => h'.1

theorem works_tailCall (r : Ref .closure) (start count : Nat) :
    Works a i low b Unit (tailCall r start count) := by
  intro m hm
  obtain ⟨d, f, calls, hd, hat, hp⟩ := exists_pop hm
  obtain ⟨hslot, hdrop⟩ := drop_fenced hb none hat hd hp
  have hc := Stays.closed (D := (· = d)) hb
  unfold tailCall
  rw [bind_eq]
  show ((popFrame >>= _) m).Follows _ _ _
  rw [popFrame_bind_eq, hp]
  dsimp only
  rw [bind_eq]
  refine hdrop.bind (fun _ m₁ h₁ => ?_) fun _ m₁ h₁ _ => h₁.1
  -- the new frame is opened where the results of the old one would have gone
  rw [bind_eq]
  refine (hc.setSlot (.closure r) hslot m₁ h₁).bind (fun _ m₂ h₂ => ?_) fun _ m₂ h₂ _ => h₂.1
  rw [bind_eq]
  refine (hc.writeRange _ (Nat.le_succ_of_le hslot) m₂ h₂).bind (fun _ m₃ h₃ => ?_) fun _ m₃ h₃ _ => h₃.1
  refine (pushFrame_fenced hb r hslot count f.wanted h₃).imp (Fenced low b) (fun _ h => h) fun r' m' h' => ?_
  cases r' with
  | ok _ => exact ⟨h'.1, by rw [h'.2]; omega⟩
  | error _ => exact fun _ => h'.1

theorem ret_fenced (w : Word) (hm : Inside low b (b.callDepth < ·) m) :
    (Instruction.ret w m).Follows (fence a i low b) (Left low b) m := by
  have hc := Stays.closed (D := (b.callDepth < ·)) hb
  unfold Instruction.ret
  rw [bind_eq]
  show ((Instruction.listLength w.b _ >>= _) m).Follows _ _ _
  rw [bind_eq]
  refine (Instruction.closed_listLength hc w.b (m.base + w.a.toNat) m hm).bind (fun count m₁ h₁ => ?_) ?_
  · exact leave_fenced hb _ h₁
  · exact fun f m₁ h₁ => h₁.1

/-- An instruction was executed; a return took the frame off. -/
def Done (low : Nat) (b : Machine) : Except Fault (Option Exit) → Machine → Prop
  | .ok none, m => Inside low b (b.callDepth < ·) m
  | .ok (some e), m => Fenced low b m ∧ low ≤ e.slot
  | .error f, m => f.isYield = false → Fenced low b m

theorem execute_fenced (host : Host) (w : Word) (hm : Inside low b (b.callDepth < ·) m) :
    (execute host w m).Follows (fence a i low b) (Done low b) m := by
  generalize hx : execute host w = x
  unfold execute at hx
  split at hx <;> subst hx
  · exact ⟨.refl, fun _ => hm.1⟩
  · rw [map_eq_pure_bind, bind_eq]
    exact (ret_fenced hb w hm).bind (fun e m₁ h₁ => ⟨.refl, h₁⟩) fun f m₁ h₁ _ => h₁
  · rename_i op _ _
    have hop := Opcode.closed_run_above (Works.closedInside hb host)
      (fun slot => Works.onFrame (fun _ h => ⟨h.base, h.returnSlot⟩) fun _ => .mark slot)
      (Works.closeFrom hb) (works_tailCall hb) op (fun _ r v => .of_stays (Stays.setBroker r v)) w m hm
    rw [bind_eq]
    exact hop.bind (fun _ m₁ h₁ => ⟨.refl, h₁⟩) fun _ _ h₁ => h₁

/-- A step was made: there is a frame to go on with, or values left the machine. -/
def Moved (low : Nat) (b : Machine) : Except Fault (Option (List Value)) → Machine → Prop
  | .ok none, m => Inside low b (b.callDepth < ·) m
  | .ok (some _), _ => True
  | .error f, m => f.isYield = false → Fenced low b m

theorem deliver_fenced (e : Exit) (hm : Fenced low b m) (hs : low ≤ e.slot) :
    (deliver b.callDepth e m).Follows (fence a i low b) (Moved low b) m := by
  unfold deliver
  rw [bind_eq]
  show (Step.Follows _ _ _ ((if decide (m.callDepth ≤ b.callDepth) = true then _ else _ : Exec _) m))
  split
  · exact ⟨.refl, trivial⟩
  · rename_i hd
    have hdeep : Inside low b (b.callDepth < ·) m := ⟨hm, by simpa using hd⟩
    rw [bind_eq]
    exact (Stays.placeResults hb hs _ _ m hdeep).bind (fun _ m' h' => ⟨.refl, h'⟩) fun _ _ h' _ => h'.1

theorem step_fenced (host : Host) (hm : Inside low b (b.callDepth < ·) m) :
    (step host b.callDepth m).Follows (fence a i low b) (Moved low b) m := by
  unfold step
  rw [bind_eq]
  show (Step.Follows _ _ _ ((if m.isCancelled m.fiber.token = true then _ else _ : Exec _) m))
  split
  · exact ⟨.refl, fun _ => hm.1⟩
  · rw [bind_eq]
    refine (Works.fetch m hm).bind (fun w m₁ h₁ => ?_) fun _ _ h₁ => h₁
    cases w with
    | none =>
      dsimp only
      rw [bind_eq]
      refine (leave_fenced hb [] h₁).bind (fun e m₂ h₂ => ?_) fun f m₂ h₂ _ => h₂
      exact deliver_fenced hb e h₂.1 h₂.2
    | some w =>
      dsimp only
      rw [bind_eq]
      refine (execute_fenced hb host w h₁).bind (fun e m₂ h₂ => ?_) fun _ _ h₂ => h₂
      cases e with
      | none => exact ⟨.refl, h₂⟩
      | some e => exact deliver_fenced hb e h₂.1 h₂.2

theorem unwindFrames_fenced (n : Nat) (f : Fault) (hm : Inside low b (· = b.callDepth + n) m) :
    (unwindFrames n f m).Follows (fence a i low b) (fun _ _ => True) m := by
  induction n generalizing f m with
  | zero => exact ⟨.refl, trivial⟩
  | succ n ih =>
    obtain ⟨frame, calls, hp⟩ := pop?_of_lt (m := m) (by rw [hm.2]; omega)
    obtain ⟨-, hdrop⟩ := drop_fenced hb (some f) hm (Nat.le_add_right _ _) hp
    unfold unwindFrames
    rw [popFrame_bind_eq, hp]
    dsimp only
    rw [attempt_bind_eq]
    refine hdrop.handle fun r m' h' => ?_
    cases r with
    | ok _ => exact ih f h'
    | error e => exact ih (m'.locate e) h'

theorem unwind_fenced {f : Fault} (hm : f.isYield = false → Fenced low b m) :
    (unwind b.callDepth f m).Follows (fence a i low b) (fun _ _ => True) m := by
  unfold unwind
  split
  · exact ⟨.refl, trivial⟩
  · rename_i hf
    have hm := hm (Fault.isYield_of_ne hf)
    have hle := hm.above.callDepth_le
    exact unwindFrames_fenced hb (m.callDepth - b.callDepth) (m.locate f) ⟨hm, by omega⟩

theorem closeFrames_fenced (n : Nat) (failure : Option Fault)
    (hm : Inside low b (· = b.callDepth + n) m) :
    (closeFrames failure n m).Follows (fence a i low b) (fun _ _ => True) m := by
  induction n generalizing failure m with
  | zero => exact ⟨.refl, trivial⟩
  | succ n ih =>
    obtain ⟨frame, calls, hp⟩ := pop?_of_lt (m := m) (by rw [hm.2]; omega)
    obtain ⟨-, hdrop⟩ := drop_fenced hb none hm (Nat.le_add_right _ _) hp
    unfold closeFrames
    rw [popFrame_bind_eq, hp]
    dsimp only
    rw [attempt_bind_eq]
    refine hdrop.handle fun r m' h' => ?_
    cases r with
    | ok _ => exact ih failure h'
    | error e => exact ih (some e) h'

end

end Exec
end RegisterMachine
