import RegisterMachine.Proofs.Along
import RegisterMachine.Proofs.Brokers

/-! The marks that all frames hold. Marking a slot, giving slots up and taking a frame off are the only
ways to change them: all other computations keep them as they are between their questions, and so do the
switches between fibers. -/
namespace RegisterMachine

/-- A slot that is marked for closing, with the arena of the fiber and the number of frames below the one
that holds it. -/
structure Mark where
  arena : Ref .arena
  height : Nat
  slot : Nat
  deriving DecidableEq, Repr

def Frame.marksAt (f : Frame) (arena : Ref .arena) (height : Nat) : List Mark :=
  f.marks.toList.map fun slot => ⟨arena, height, slot⟩

def marksOf (arena : Ref .arena) : List Frame → List Mark
  | [] => []
  | f :: fs => f.marksAt arena fs.length ++ marksOf arena fs

def Fiber.marks (f : Fiber) : List Mark := marksOf f.arena f.calls.frames

theorem mem_marksOf {arena : Ref .arena} {fs : List Frame} {k : Mark} (h : k ∈ marksOf arena fs) :
    arena = k.arena ∧ k.height < fs.length := by
  induction fs with
  | nil => cases h
  | cons f fs ih =>
    obtain h | h := List.mem_append.1 h
    · obtain ⟨slot, -, rfl⟩ := List.mem_map.1 h
      exact ⟨rfl, Nat.lt_succ_self _⟩
    · exact ⟨(ih h).1, Nat.lt_succ_of_lt (ih h).2⟩

namespace Machine

def otherMarks (m : Machine) : List Mark := (m.waiting ++ m.heap.parked).flatMap Fiber.marks

def marks (m : Machine) : List Mark := m.fiber.marks ++ m.otherMarks

variable {m m' : Machine}

theorem marks_congr (hf : m'.fiber.marks = m.fiber.marks) (hw : m'.waiting = m.waiting)
    (hp : m'.heap.parked = m.heap.parked) : m'.marks = m.marks := by
  rw [marks, marks, otherMarks, otherMarks, hf, hw, hp]

theorem mem_marks {k : Mark} (h : k ∈ m.marks) :
    ∃ f ∈ m.fibers, f.arena = k.arena ∧ k.height < f.calls.depth := by
  obtain ⟨f, hf, hk⟩ : ∃ f ∈ m.fibers, k ∈ f.marks := List.mem_flatMap.1 h
  have hm := mem_marksOf hk
  rw [← f.calls.depth_eq] at hm
  exact ⟨f, hf, hm⟩

theorem marks_of_frames {f : Frame} {fs : List Frame} (h : m.fiber.calls.frames = f :: fs) :
    m.marks = f.marksAt m.fiber.arena fs.length ++ (marksOf m.fiber.arena fs ++ m.otherMarks) := by
  rw [marks, Fiber.marks, h, marksOf, List.append_assoc]

theorem marks_newCoroutine (m : Machine) (entry : Callee) : (m.newCoroutine entry).2.marks = m.marks := by
  have hother : (m.newCoroutine entry).2.otherMarks = m.otherMarks := by
    rw [otherMarks, otherMarks, parked_newCoroutine, ← List.append_assoc, List.flatMap_append]
    exact List.append_nil _
  rw [marks, marks, hother]
  rfl

theorem marks_load (m : Machine) (p : Prototype) : (m.load p).2.marks = m.marks :=
  marks_congr rfl rfl (parked_load m p)

theorem marks_quiet (h : Quiet m m') : m'.marks = m.marks := by
  cases h with
  | act x =>
    cases x with
    | newCoroutine entry => exact marks_newCoroutine m entry
    | load p => exact marks_load m p
    | setCoroutineMetatable r metatable =>
      exact marks_congr rfl rfl (m.heap.parked_modify_of_eq r fun _ _ => rfl)
    | _ => rfl
  | _ => rfl

/-- A change of the innermost frame only. -/
theorem marks_modifyFrame {f : Frame} (g : Frame → Frame) (h : m.frame? = some f) :
    ∃ rest, m.marks = f.marksAt m.fiber.arena (m.callDepth - 1) ++ rest ∧
      (m.modifyFrame g).marks = (g f).marksAt m.fiber.arena (m.callDepth - 1) ++ rest := by
  obtain ⟨fs, hf⟩ := frames_of_frame? h
  have hdepth : m.callDepth - 1 = fs.length := by
    rw [callDepth_eq, hf]
    rfl
  have hg : (m.modifyFrame g).fiber.calls.frames = g f :: fs := frames_modifyTop g hf
  refine ⟨marksOf m.fiber.arena fs ++ m.otherMarks, ?_, ?_⟩
  · rw [hdepth]
    exact marks_of_frames hf
  · rw [hdepth]
    exact marks_of_frames hg

theorem marks_modifyFrame_of_eq {f : Frame} {g : Frame → Frame} (h : m.frame? = some f)
    (hg : (g f).marks = f.marks) : (m.modifyFrame g).marks = m.marks := by
  obtain ⟨rest, hm, hm'⟩ := marks_modifyFrame g h
  rw [hm, hm', Frame.marksAt, Frame.marksAt, hg]

theorem marks_enterFrame {f : Frame} (hf : f.marks = #[]) : (m.enterFrame f).marks = m.marks := by
  have hframes : (m.enterFrame f).fiber.calls.frames = f :: m.fiber.calls.frames := rfl
  rw [marks_of_frames hframes, Frame.marksAt, hf]
  rfl

theorem marks_closeBrokers (m : Machine) (rs : List (Ref .broker)) :
    (m.modifyHeap (·.closeBrokers rs)).marks = m.marks :=
  marks_congr rfl rfl (parked_closeBrokers _ _)

theorem marks_setStatus (m : Machine) (co : Ref .coroutine) (status : Status) :
    (m.setStatus co status).marks = m.marks := marks_congr rfl rfl (parked_setStatus m co status)

theorem marks_setActiveStatus (m : Machine) (status : Status) :
    (m.setActiveStatus status).marks = m.marks := by
  unfold setActiveStatus
  split
  · exact marks_setStatus m _ status
  · rfl

theorem marks_endClosing (m : Machine) (co : Ref .coroutine) (token : Ref .token)
    (failure : Option Fault) : (m.endClosing co token failure).2.marks = m.marks := by
  have h := marks_setStatus (m.modifyHeap fun h => { h with tokens := h.tokens.cancel token }) co .dead
  cases failure <;> exact h

theorem marks_switchTo (m : Machine) (fiber : Fiber) :
    (m.switchTo fiber).marks = fiber.marks ++ m.marks := rfl

theorem marks_enterCoroutine (m : Machine) (co : Ref .coroutine) (fiber : Fiber) :
    (m.enterCoroutine co fiber).marks = fiber.marks ++ (m.park co none).marks := by
  show ((((m.park co none).setActiveStatus .normal).setStatus co .running).switchTo fiber).marks = _
  rw [marks_switchTo, marks_setStatus, marks_setActiveStatus]

theorem marks_of_waiting {f : Fiber} {w : List Fiber} (hw : m.waiting = f :: w) :
    m.marks = m.fiber.marks ++ m.switchBack.marks := by
  have hback : m.switchBack = { m with fiber := f, waiting := w } := by
    simp only [switchBack, hw]
  rw [hback, marks, otherMarks, hw]
  rfl

theorem marks_leaving {f : Fiber} {w : List Fiber} (hw : m.waiting = f :: w) :
    m.leaving.marks = m.switchBack.marks := by
  unfold leaving
  rw [marks_setActiveStatus]
  simp only [switchBack, hw]
  rfl

theorem marks_of_no_frames {f : Fiber} (h : f.calls.frames = []) : f.marks = [] := by
  rw [Fiber.marks, h, marksOf]

/-- Taking a fiber out of a coroutine takes its marks out. -/
theorem marks_perm_of_take {co : Ref .coroutine} {c : Coroutine} {fiber : Fiber}
    (hc : m.heap.coroutine? co = some c) (hp : c.parked = some fiber) :
    m.marks.Perm (fiber.marks ++ (m.park co none).marks) :=
  (fibers_perm_of_take hc hp).flatMap_right Fiber.marks

theorem marks_perm_of_put {co : Ref .coroutine} {c : Coroutine} (fiber : Fiber)
    (hc : m.heap.coroutine? co = some c) (hp : c.parked = none) :
    (m.park co (some fiber)).marks.Perm (fiber.marks ++ m.marks) :=
  (fibers_perm_of_put fiber hc hp).flatMap_right Fiber.marks

theorem marks_shift {l l' : List (Ref .coroutine)} (hs : Scheduled l m) (h : Shift l m l' m') :
    m'.marks.Perm m.marks := by
  cases h with
  | enterCall => exact .refl _
  | leaveCall top => exact .refl _
  | @enter _ _ _ _ fiber hc _ hp =>
    rw [marks_enterCoroutine]
    exact (marks_perm_of_take hc hp).symm
  | finish _ hw hf =>
    rw [marks_setStatus, marks_leaving hw, marks_of_waiting hw, marks_of_no_frames hf]
    exact .refl _
  | @yield _ _ co rest f w ha hw _ =>
    have hmem : co ∈ m.active := by
      rw [ha]
      exact List.mem_cons_self
    obtain ⟨c, hc⟩ := Option.isSome_iff_exists.1 (hs.present co (.inl hmem))
    have hp := ((hs.fits co c hc).of_mem hmem).2
    have hleft : ∃ c', m.leaving.heap.coroutine? co = some c' ∧ c'.parked = none := by
      rw [coroutine?_leaving, hc]
      split
      · exact ⟨_, rfl, hp⟩
      · exact ⟨_, rfl, hp⟩
    obtain ⟨c', hc', hp'⟩ := hleft
    rw [marks_setStatus, marks_of_waiting hw, ← marks_leaving hw]
    exact marks_perm_of_put m.fiber hc' hp'
  | refuse _ _ => rw [marks_setStatus]
  | close hc _ hp =>
    rw [marks_switchTo]
    exact (marks_perm_of_take hc hp).symm
  | closed token failure hw hf =>
    rw [marks_endClosing, marks_of_waiting hw, marks_of_no_frames hf]
    exact .refl _
  | @discard _ _ co c token hc _ hf =>
    rw [marks_endClosing]
    cases hp : c.parked with
    | none =>
      have h : (m.park co none).marks = m.marks := marks_congr rfl rfl (parked_park_none hc hp)
      rw [h]
    | some fiber =>
      have h := marks_perm_of_take hc hp
      rw [marks_of_no_frames (hf fiber hp)] at h
      exact h.symm

end Machine

open Machine

def SameMarks (m m' : Machine) : Prop := m'.marks = m.marks

instance : IsTrans Machine SameMarks := ⟨fun _ _ _ h h' => Eq.trans h' h⟩

theorem bears_sameMarks : Bears SameMarks where
  refl _ := rfl
  act m a := marks_quiet (.act a)
  plain h := marks_quiet h.quiet
  goto hf _ := marks_modifyFrame_of_eq hf rfl
  capture {m f slot} hf _ := by
    have hf' : Machine.frame? { m with heap := (m.heap.newBroker (.live m.fiber.arena slot)).2 } = some f := hf
    exact marks_modifyFrame_of_eq hf' rfl
  enter h := marks_enterFrame h.marks
  await _ _ := rfl

abbrev still : Contract := along SameMarks

namespace Exec

abbrev Still (α : Type) (x : Exec α) : Prop := Along SameMarks α x

namespace Still

theorem setBroker (r : Ref .broker) (v : Value) : Still Unit (setBroker r v) := by
  intro m
  unfold Exec.setBroker
  split
  · split
    · exact ⟨rfl, trivial⟩
    · exact ⟨rfl, trivial⟩
  · exact ⟨rfl, trivial⟩

end Still
end Exec
end RegisterMachine
