import RegisterMachine.Proofs.Instructions

/-! Floors. A run from a machine works on top of the frames that are there and never below them: whatever
it asks for in between comes back balanced, so the frames below the floor are as they were. -/
namespace RegisterMachine

def NoYield {α : Type} (r : Except Fault α) : Prop := ∀ f, r = .error f → f.isYield = false

theorem noYield_ok {α : Type} (a : α) : NoYield (.ok a) := fun _ h => nomatch h

theorem noYield_error {α : Type} {f : Fault} (h : f.isYield = false) :
    NoYield (.error f : Except Fault α) := by
  intro f' hf
  cases hf
  exact h

theorem NoYield.of_error {α : Type} {f : Fault} (h : NoYield (.error f : Except Fault α)) :
    f.isYield = false := h f rfl

theorem CallStack.eq_of_frames {s t : CallStack} (h : s.frames = t.frames) : s = t := by
  obtain ⟨fs, n, hn⟩ := s
  obtain ⟨gs, k, hk⟩ := t
  dsimp only at h hn hk
  subst h hn hk
  rfl

namespace Machine

/-- The machine after an answer: the same fiber runs, with the same frames, and the same fibers wait. -/
structure Balanced (m m' : Machine) : Prop where
  fiber : m'.fiber = m.fiber
  waiting : m'.waiting = m.waiting
  active : m'.active = m.active
  nativeDepth : m'.nativeDepth = m.nativeDepth

theorem Balanced.refl (m : Machine) : Balanced m m := ⟨rfl, rfl, rfl, rfl⟩

/-- A machine that runs on top of the frames of another one, its floor. -/
structure Above (b m : Machine) : Prop where
  fiber : m.fiber = { b.fiber with calls := m.fiber.calls, top := m.fiber.top }
  frames : b.fiber.calls.frames <:+ m.fiber.calls.frames
  waiting : m.waiting = b.waiting
  active : m.active = b.active
  nativeDepth : m.nativeDepth = b.nativeDepth

/-- With a number of frames in all. -/
def At (b : Machine) (depth : Nat) (m : Machine) : Prop := Above b m ∧ m.callDepth = depth

/-- With a frame of its own. -/
def Deep (b m : Machine) : Prop := Above b m ∧ b.callDepth < m.callDepth

theorem callDepth_eq (m : Machine) : m.callDepth = m.fiber.calls.frames.length := m.fiber.calls.depth_eq

theorem Above.refl (m : Machine) : Above m m := ⟨rfl, List.suffix_refl _, rfl, rfl, rfl⟩

theorem Above.callDepth_le {b m : Machine} (h : Above b m) : b.callDepth ≤ m.callDepth := by
  rw [callDepth_eq, callDepth_eq]
  exact h.frames.length_le

theorem Above.calls_eq {b m : Machine} (h : Above b m) (hd : m.callDepth = b.callDepth) :
    m.fiber.calls = b.fiber.calls := by
  rw [callDepth_eq, callDepth_eq] at hd
  exact CallStack.eq_of_frames (h.frames.eq_of_length hd.symm).symm

theorem Above.quiet {b m m' : Machine} (h : Above b m) (hq : Quiet m m') : Above b m' := by
  obtain ⟨hf, hw, ha, hn, -⟩ := hq.same
  refine ⟨?_, ?_, hw.trans h.waiting, ha.trans h.active, hn.trans h.nativeDepth⟩
  · rw [hf, h.fiber]
  · rw [hq.calls_eq]
    exact h.frames

theorem Above.balanced {b m m' : Machine} (h : Above b m) (hb : Balanced m m') : Above b m' := by
  refine ⟨?_, ?_, hb.waiting.trans h.waiting, hb.active.trans h.active,
    hb.nativeDepth.trans h.nativeDepth⟩
  · rw [hb.fiber]
    exact h.fiber
  · rw [hb.fiber]
    exact h.frames

theorem Above.cons {b m : Machine} (h : Deep b m) :
    ∃ f fs, m.fiber.calls.frames = f :: fs ∧ b.fiber.calls.frames <:+ fs := by
  obtain ⟨ha, hd⟩ := h
  rw [callDepth_eq, callDepth_eq] at hd
  cases hm : m.fiber.calls.frames with
  | nil => simp [hm] at hd
  | cons f fs =>
    refine ⟨f, fs, rfl, ?_⟩
    have hs := ha.frames
    rw [hm, List.suffix_cons_iff] at hs
    obtain hs | hs := hs
    · rw [hs, hm] at hd
      exact absurd hd (Nat.lt_irrefl _)
    · exact hs

theorem frames_modifyTop (g : Frame → Frame) {s : CallStack} {f : Frame} {fs : List Frame}
    (h : s.frames = f :: fs) : (s.modifyTop g).frames = g f :: fs := by
  obtain ⟨_, n, hn⟩ := s
  dsimp only at h
  subst h
  rfl

theorem depth_modifyTop (g : Frame → Frame) (s : CallStack) : (s.modifyTop g).depth = s.depth := by
  obtain ⟨_ | ⟨f, fs⟩, n, hn⟩ := s <;> rfl

theorem Deep.modifyFrame {b m : Machine} (h : Deep b m) (g : Frame → Frame) :
    Deep b (m.modifyFrame g) := by
  obtain ⟨f, fs, hm, hs⟩ := Above.cons h
  refine ⟨⟨?_, ?_, h.1.waiting, h.1.active, h.1.nativeDepth⟩, ?_⟩
  · show ({ m.fiber with calls := _ } : Fiber) = _
    rw [h.1.fiber]
    rfl
  · show _ <:+ (m.fiber.calls.modifyTop g).frames
    rw [frames_modifyTop g hm]
    exact hs.trans (List.suffix_cons _ _)
  · show _ < (m.fiber.calls.modifyTop g).depth
    rw [depth_modifyTop]
    exact h.2

theorem Deep.modifyHeap {b m : Machine} (h : Deep b m) (g : Heap → Heap) : Deep b (m.modifyHeap g) :=
  ⟨⟨h.1.fiber, h.1.frames, h.1.waiting, h.1.active, h.1.nativeDepth⟩, h.2⟩

theorem Touch.deep {b m m' : Machine} (ht : Touch m m') (h : Deep b m) : Deep b m' := by
  cases ht with
  | goto g => exact h.modifyFrame _
  | mark slot => exact h.modifyFrame _
  | @capture _ slot _ _ =>
    exact (h.modifyHeap fun heap => (heap.newBroker (.live m.fiber.arena slot)).2).modifyFrame _
  | part start _ => exact (h.modifyFrame _).modifyHeap _

theorem Enter.at {b m m' : Machine} {depth : Nat} (he : Enter m m') (h : At b depth m) :
    At b (depth + 1) m' := by
  cases he with
  | intro f _ _ _ =>
    obtain ⟨ha, hd⟩ := h
    refine ⟨⟨?_, ha.frames.trans (List.suffix_cons _ _), ha.waiting, ha.active, ha.nativeDepth⟩, ?_⟩
    · show ({ m.fiber with calls := _ } : Fiber) = _
      rw [ha.fiber]
      rfl
    · show m.callDepth + 1 = depth + 1
      rw [hd]

theorem frames_of_pop {m : Machine} {f : Frame} {calls : CallStack}
    (h : m.fiber.calls.pop? = some (f, calls)) : m.fiber.calls.frames = f :: calls.frames := by
  revert h
  obtain ⟨_ | ⟨g, gs⟩, n, hn⟩ := m.fiber.calls
  · intro h
    cases h
  · intro h
    cases h
    rfl

theorem callDepth_of_pop {m : Machine} {f : Frame} {calls : CallStack}
    (h : m.fiber.calls.pop? = some (f, calls)) : m.callDepth = calls.depth + 1 := by
  rw [callDepth_eq, frames_of_pop h, List.length_cons, calls.depth_eq]

theorem Drop.at {b m m' : Machine} {depth : Nat} (hp : Drop m m') (h : At b (depth + 1) m)
    (hb : b.callDepth ≤ depth) : At b depth m' := by
  cases hp with
  | @intro f calls hpop =>
    obtain ⟨ha, hd⟩ := h
    have hdeep : Deep b m := ⟨ha, by omega⟩
    obtain ⟨f', fs, hm, hs⟩ := Above.cons hdeep
    obtain ⟨rfl, rfl⟩ := List.cons.inj ((frames_of_pop hpop).symm.trans hm)
    refine ⟨⟨?_, hs, ha.waiting, ha.active, ha.nativeDepth⟩, ?_⟩
    · show ({ m.fiber with calls := _ } : Fiber) = _
      rw [ha.fiber]
      rfl
    · show calls.depth = depth
      rw [callDepth_of_pop hpop] at hd
      omega

theorem pop?_of_lt {m : Machine} (h : 0 < m.callDepth) :
    ∃ f calls, m.fiber.calls.pop? = some (f, calls) := by
  rw [callDepth_eq] at h
  revert h
  obtain ⟨_ | ⟨f, fs⟩, n, hn⟩ := m.fiber.calls
  · intro h
    cases h
  · intro _
    exact ⟨_, _, rfl⟩

/-- Conditions that quiet changes and answers keep. -/
structure Stable (J : Machine → Prop) : Prop where
  quiet {m m' : Machine} : Quiet m m' → J m → J m'
  balanced {m m' : Machine} : Balanced m m' → J m → J m'

theorem Stable.path {J : Machine → Prop} (hJ : Stable J) {m m' : Machine}
    (h : Relation.ReflTransGen Quiet m m') (hm : J m) : J m' := by
  induction h with
  | refl => exact hm
  | tail _ hq ih => exact hJ.quiet hq ih

theorem Balanced.callDepth_eq {m m' : Machine} (h : Balanced m m') : m'.callDepth = m.callDepth := by
  rw [callDepth, h.fiber, callDepth]

theorem stable_at (b : Machine) (depth : Nat) : Stable (At b depth) where
  quiet hq h := ⟨h.1.quiet hq, hq.callDepth_eq.trans h.2⟩
  balanced hb h := ⟨h.1.balanced hb, hb.callDepth_eq.trans h.2⟩

theorem stable_deep (b : Machine) : Stable (Deep b) where
  quiet hq h := ⟨h.1.quiet hq, by rw [hq.callDepth_eq]; exact h.2⟩
  balanced hb h := ⟨h.1.balanced hb, by rw [hb.callDepth_eq]; exact h.2⟩

end Machine

open Machine

/-- Between questions there are elementary changes; answers are balanced and no yields. -/
def floor (J : Machine → Prop) : Contract where
  path := Changes
  asks := J
  answers m r m' := Balanced m m' ∧ NoYield r

instance (J : Machine → Prop) : IsTrans Machine (floor J).path :=
  inferInstanceAs (IsTrans Machine Changes)

namespace Exec

/-- A computation that keeps a condition and yields nothing. -/
def Holds (J : Machine → Prop) (α : Type) (x : Exec α) : Prop :=
  ∀ m, J m → (x m).Follows (floor J) (fun r m' => J m' ∧ NoYield r) m

namespace Holds

variable {J : Machine → Prop} {α β : Type}

theorem bind {x : Exec α} {f : α → Exec β} (hx : Holds J α x) (hf : ∀ a, Holds J β (f a)) :
    Holds J β (x >>= f) := by
  intro m hm
  rw [bind_eq]
  exact (hx m hm).bind (fun a m' h => hf a m' h.1) fun f m' h => ⟨h.1, noYield_error h.2.of_error⟩

theorem quiet (hJ : Stable J) {m m' : Machine} (hm : J m) (hq : Quiet m m') (a : α) :
    (Step.ret a m').Follows (floor J) (fun r m' => J m' ∧ NoYield r) m :=
  ⟨.single (.quiet hq), hJ.quiet hq hm, noYield_ok a⟩

theorem raise {m : Machine} (hm : J m) {f : Fault} (hf : f.isYield = false) :
    (Step.raise f m : Step α).Follows (floor J) (fun r m' => J m' ∧ NoYield r) m :=
  ⟨.refl, hm, noYield_error hf⟩

theorem script (hJ : Stable J) {s : Script α} (hs : s.Plain) : Holds J α s.exec := by
  intro m hm
  induction s generalizing m with
  | done a => exact ⟨.refl, hm, noYield_ok a⟩
  | fail f => exact raise hm (Fault.isYield_of_isBare hs)
  | look k ih => exact ih m (hs m) m hm
  | act a k ih =>
    have hq := Quiet.act (m := m) a
    exact (ih _ (hs _) _ (hJ.quiet hq hm)).mono (.single (.quiet hq))
  | ask q k ih =>
    refine ⟨.refl, hm, fun r m' h => ?_⟩
    have hm' := hJ.balanced h.1 hm
    cases r with
    | ok reply => exact ih _ (hs.1 reply) m' hm'
    | error f =>
      show ((k (.error f)).exec m').Follows _ _ _
      rw [hs.2 f]
      exact raise hm' h.2.of_error

theorem write (hJ : Stable J) (op : Arena.Op) : Holds J Unit fun m =>
    if op.fits m.arena then .ret () (m.modifyArena op.apply) else .raise .stackOverflow m := by
  intro m hm
  dsimp only
  split
  · rename_i h
    exact quiet hJ hm (.write op h) ()
  · exact raise hm rfl

theorem setBroker (hJ : Stable J) (r : Ref .broker) (v : Value) : Holds J Unit (setBroker r v) := by
  intro m hm
  unfold Exec.setBroker
  split
  · rename_i a slot hr
    split
    · rename_i hs
      exact quiet hJ hm (.assign v hr hs) ()
    · exact raise hm rfl
  · rename_i hr
    exact quiet hJ hm (.assignClosed v hr) ()

theorem closed (hJ : Stable J) : Closed (Holds J) where
  pure a m hm := ⟨.refl, hm, noYield_ok a⟩
  bind := bind
  fail hf m hm := raise hm (Fault.isYield_of_isBare hf)
  read g m hm := ⟨.refl, hm, noYield_ok _⟩
  frame m hm := by
    unfold Exec.frame
    split
    · exact ⟨.refl, hm, noYield_ok _⟩
    · exact raise hm rfl
  setSlot i v := write hJ (.put i v)
  writeRange start vs := write hJ (.putRange start vs)
  clearRange start stop := write hJ (.clearRange start stop)
  modifyTop g m hm := quiet hJ hm (.top (g m)) ()
  setFrom r first vs m hm := quiet hJ hm (.setFrom r first vs) ()
  newClosure c m hm := quiet hJ hm (.closure c) _
  script hs := script hJ hs

end Holds
end Exec
end RegisterMachine
