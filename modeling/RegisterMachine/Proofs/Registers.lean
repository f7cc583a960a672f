import RegisterMachine.Proofs.Fences

/-! Registers under re-entry. Whatever a function of the host calls runs behind a fence at the first slot
that was free, and so do the calls made in turn from there; a coroutine that is resumed or closed on the
way has another arena. So all that happens up to the answer spares every slot that was in use. -/
namespace RegisterMachine
namespace Machine

structure SameSlots (m m' : Machine) : Prop where
  arenas : m'.heap.arenas = m.heap.arenas
  brokers : m'.heap.brokers = m.heap.brokers

namespace SameSlots

variable {m m' m'' : Machine}

theorem refl (m : Machine) : SameSlots m m := ⟨rfl, rfl⟩

theorem trans (h : SameSlots m m') (h' : SameSlots m' m'') : SameSlots m m'' :=
  ⟨h'.arenas.trans h.arenas, h'.brokers.trans h.brokers⟩

theorem setActiveStatus (m : Machine) (status : Status) : SameSlots m (m.setActiveStatus status) := by
  unfold Machine.setActiveStatus
  split <;> exact ⟨rfl, rfl⟩

theorem switchBack (m : Machine) : SameSlots m m.switchBack := by
  unfold Machine.switchBack
  split <;> exact ⟨rfl, rfl⟩

theorem enterCoroutine (m : Machine) (co : Ref .coroutine) (fiber : Fiber) :
    SameSlots m (m.enterCoroutine co fiber) := by
  obtain ⟨ha, hb⟩ := setActiveStatus (m.park co none) .normal
  exact ⟨ha, hb⟩

theorem endClosing (m : Machine) (co : Ref .coroutine) (token : Ref .token) (failure : Option Fault) :
    SameSlots m (m.endClosing co token failure).2 := by
  cases failure <;> exact ⟨rfl, rfl⟩

theorem leaving (m : Machine) : SameSlots m m.leaving := by
  unfold Machine.leaving
  refine .trans ?_ (setActiveStatus _ _)
  obtain ⟨ha, hb⟩ := switchBack { m with active := m.active.drop 1, nativeDepth := m.nativeDepth - 1 }
  exact ⟨ha, hb⟩

theorem leaveCoroutine (co : Ref .coroutine) (r : Except Fault (List Value)) (m : Machine) :
    SameSlots m (leaveCoroutine co r m).2 := by
  obtain ⟨ha, hb⟩ := leaving m
  unfold Machine.leaveCoroutine
  dsimp only
  split <;> exact ⟨ha, hb⟩

end SameSlots

/-- What may happen on the way to an answer: a change, or a switch that leaves all slots and brokers as
they are. -/
inductive Turn (m m' : Machine) : Prop
  | change : Change m m' → Turn m m'
  | switch : SameSlots m m' → Turn m m'

abbrev SparedTurns (a : Ref .arena) (i : Nat) : Machine → Machine → Prop :=
  Relation.ReflTransGen fun m m' => Turn m m' ∧ Spares a i m m'

section

variable {a : Ref .arena} {i low : Nat} {b m m' : Machine}

theorem SparedTurns.of_changes (h : SparedChanges a i m m') : SparedTurns a i m m' :=
  h.lift id fun _ _ h => ⟨.change h.1, h.2⟩

theorem SparedTurns.switch (h : SameSlots m m') : SparedTurns a i m m' :=
  .single ⟨.switch h, .of_eq h.arenas h.brokers⟩

theorem SparedTurns.brokers (h : SparedTurns a i m m') (r : Ref .broker)
    (hr : m'.heap.brokers.get? r = some (.live a i)) : m.heap.brokers.get? r = some (.live a i) := by
  induction h with
  | refl => exact hr
  | tail _ hs ih => exact ih (hs.2.brokers r hr)

/-- Where no broker is live over it, the slot keeps its value. -/
theorem SparedTurns.get_eq (h : SparedTurns a i m m')
    (hn : ∀ r, m.heap.brokers.get? r ≠ some (.live a i)) :
    (m'.heap.arena a).get i = (m.heap.arena a).get i := by
  induction h with
  | refl => rfl
  | tail hpath hs ih =>
    obtain he | ⟨r, v, hr, -⟩ := hs.2.value
    · exact he.trans ih
    · exact absurd (SparedTurns.brokers hpath r hr) (hn r)

/-- The slot belongs to the fiber that runs, below a certain one, or to a fiber that waits. -/
structure Guards (a : Ref .arena) (i low : Nat) (m : Machine) : Prop where
  here : m.fiber.arena = a → i < low
  away : m.fiber.arena ≠ a → ∃ f ∈ m.waiting, f.arena = a

theorem Guards.switched (hg : Guards a i low m) (hw : b.waiting = m.fiber :: m.waiting)
    (hne : b.fiber.arena ≠ a) : Guards a i 0 b := by
  refine ⟨fun ha => absurd ha hne, fun _ => ?_⟩
  rw [hw]
  by_cases same : m.fiber.arena = a
  · exact ⟨m.fiber, List.mem_cons_self, same⟩
  · obtain ⟨f, hf, he⟩ := hg.away same
    exact ⟨f, List.mem_cons_of_mem _ hf, he⟩

theorem Fenced.guards (h : Fenced low b m) (hg : Guards a i low b) : Guards a i m.fiber.freeSlot m := by
  refine ⟨fun ha => ?_, fun ha => ?_⟩
  · rw [h.arena_eq] at ha
    exact Nat.lt_of_lt_of_le (hg.here ha) h.le_freeSlot
  · rw [h.arena_eq] at ha
    rw [h.above.waiting]
    exact hg.away ha

theorem Fenced.refl (m : Machine) : Fenced m.fiber.freeSlot m m := by
  refine ⟨.refl m, ⟨[], rfl, fun f hf => ?_⟩, ?_⟩
  · cases hf
  · exact Nat.le_of_eq (freeSlot_eq m)

theorem Fenced.enterCall (h : Fenced low b m) : Fenced low b.enterCall m.enterCall := by
  refine ⟨⟨?_, h.above.frames, h.above.waiting, h.above.active, ?_⟩, h.frames, h.top⟩
  · simp only [Machine.enterCall]
    rw [h.above.fiber]
  · simp only [Machine.enterCall, h.above.nativeDepth]

theorem fenced_zero (h : Above b m) (hc : b.fiber.calls = {}) : Fenced 0 b m := by
  refine ⟨h, ⟨m.fiber.calls.frames, ?_, fun f _ => ⟨Nat.zero_le _, Nat.zero_le _⟩⟩, Nat.zero_le _⟩
  rw [hc]
  exact (List.append_nil _).symm

/-- The arena of a parked fiber is neither that of the running one nor of one that waits. -/
theorem Guards.ne_of_parked (hg : Guards a i low m) (hl : Ledger.Balanced m.ledger)
    {co : Ref .coroutine} {c : Coroutine} {fiber : Fiber} (hc : m.heap.coroutine? co = some c)
    (hp : c.parked = some fiber) : fiber.arena ≠ a := by
  have hown : (m.fibers.map Fiber.arena).Nodup := by
    have h := hl.own
    rw [ledger, List.map_map] at h
    exact h
  have hmem : fiber ∈ m.heap.parked := by
    refine List.mem_filterMap.2 ⟨c, ?_, hp⟩
    exact Array.mem_toList_iff.2 (Array.mem_of_getElem? hc)
  have hfar : ∀ f ∈ m.fiber :: m.waiting, f.arena ≠ fiber.arena := by
    intro f hf
    have hparts : m.fibers = (m.fiber :: m.waiting) ++ m.heap.parked := rfl
    rw [hparts, List.map_append, List.nodup_append] at hown
    exact hown.2.2 _ (List.mem_map_of_mem hf) _ (List.mem_map_of_mem hmem)
  rintro rfl
  by_cases same : m.fiber.arena = fiber.arena
  · exact hfar _ List.mem_cons_self same
  · obtain ⟨f, hf, he⟩ := hg.away same
    exact hfar f (List.mem_cons_of_mem _ hf) he

end
end Machine

open Machine Exec

def Stage.Stands (low : Nat) (b : Machine) : {α : Type} → Stage α → Except Fault α → Machine → Prop
  | _, .place start _, _, m => low ≤ start ∧ Fenced low b m
  | _, .run _ _, .ok none, m => Inside low b (b.callDepth < ·) m
  | _, .run _ true, .error f, m => f.isYield = false → Fenced low b m
  | _, _, _, _ => True

/-- The question was asked behind a fence, and goes on behind it from any balanced answer. -/
def Level.Behind (a : Ref .arena) (i : Nat) (o : Machine) (l : Level) : Prop :=
  ∃ b low, l.stage.Opens o b ∧ Guards a i low b ∧ Fenced low b l.machine ∧
    ∀ r m, Balanced l.machine m → (l.next r m).Follows (fence a i low b) (l.stage.Stands low b) m

namespace Config

/-- All questions that wait were asked behind fences. -/
def AllBehind (a : Ref .arena) (i : Nat) (origin : Machine) : List Level → Machine → Prop
  | [], o => o = origin ∧ Guards a i o.fiber.freeSlot o
  | l :: below, o => o = l.machine ∧ ∃ o', AllBehind a i origin below o' ∧ l.Behind a i o'

/-- What is done for the innermost question is done behind a fence. -/
def Behind (a : Ref .arena) (i : Nat) (origin : Machine) : Config → Prop
  | .work g s below => ∃ o b low, AllBehind a i origin below o ∧ g.Opens o b ∧ Guards a i low b ∧
      s.Follows (fence a i low b) (g.Stands low b) s.machine
  | .loop p m below => ∃ o b low, AllBehind a i origin below o ∧ p.Opens o b ∧ Guards a i low b ∧
      Inside low b (b.callDepth < ·) m
  | .answer _ _ below => ∃ o, AllBehind a i origin below o

/-- A configuration behind fences that was got to by turns that spare the slot. -/
def Spared (a : Ref .arena) (i : Nat) (origin m : Machine) (c : Config) : Prop :=
  Behind a i origin c ∧ SparedTurns a i m c.machine

variable {host : Host} {a : Ref .arena} {i low : Nat} {origin o b m m' : Machine} {below : List Level}
  {α : Type}

theorem AllBehind.guards (h : AllBehind a i origin below o) : Guards a i o.fiber.freeSlot o := by
  cases below with
  | nil => exact h.2
  | cons l below =>
    obtain ⟨rfl, o', -, b, low, -, hg, hf, -⟩ := h
    exact hf.guards hg

theorem spared_work {g : Stage α} {s : Step α} (hr : AllBehind a i origin below o) (ho : g.Opens o b)
    (hg : Guards a i low b) (hs : s.Follows (fence a i low b) (g.Stands low b) m) :
    Spared a i origin m (.work g s below) := by
  have hself : s.Follows (fence a i low b) (g.Stands low b) s.machine := by
    cases s with
    | ret a _ => exact ⟨.refl, hs.2⟩
    | raise f _ => exact ⟨.refl, hs.2⟩
    | ask q _ k => exact ⟨.refl, hs.2⟩
  have hpath : SparedChanges a i m s.machine := by
    cases s with
    | ret a _ => exact hs.1
    | raise f _ => exact hs.1
    | ask q _ k => exact hs.1
  exact ⟨⟨o, b, low, hr, ho, hg, hself⟩, .of_changes hpath⟩

theorem spared_answer {r : Except Fault Reply} (hr : AllBehind a i origin below o)
    (hs : SameSlots m m') : Spared a i origin m (.answer r m' below) := ⟨⟨o, hr⟩, .switch hs⟩

theorem Spared.after_switch {c : Config} (hs : SameSlots m m') (h : Spared a i origin m' c) :
    Spared a i origin m c := ⟨h.1, (SparedTurns.switch hs).trans h.2⟩

theorem spared_leave (p : Purpose) (r : Except Fault (List Value)) (m : Machine)
    (hr : AllBehind a i origin below o) : Spared a i origin m (leave p r m below) := by
  cases p with
  | call stop top => exact spared_answer hr ⟨rfl, rfl⟩
  | resume co => exact spared_answer hr (.leaveCoroutine co r m)

theorem spared_begin {start : Nat} (count : Nat) (hr : AllBehind a i origin below o)
    (hg : Guards a i low o) (hm : Fenced low o m) (hs : low ≤ start) (hb : Balanced o m) :
    Spared a i origin m (.work (.run (.call m.callDepth m.fiber.top) false)
      (Exec.begin host start count none m.enterCall) below) := by
  have ho : (Stage.run (.call m.callDepth m.fiber.top) false).Opens o o.enterCall :=
    ⟨hb.callDepth_eq, by rw [hb.fiber], rfl⟩
  have hg' : Guards a i low o.enterCall := ⟨hg.here, hg.away⟩
  have hin : Inside low o.enterCall (· = o.callDepth) m.enterCall := ⟨hm.enterCall, hb.callDepth_eq⟩
  have hbegin := begin_fenced hg'.here host hs count none hin
  have hswitch : SameSlots m m.enterCall := ⟨rfl, rfl⟩
  refine .after_switch hswitch (spared_work hr ho hg' ?_)
  refine hbegin.imp (Fenced low o.enterCall) (fun _ h => h) fun r m' h' => ?_
  obtain f | _ | vs := r
  · trivial
  · exact ⟨h'.1, by rw [h'.2]; exact Nat.lt_succ_self _⟩
  · trivial

/-- What follows when a stage is over is done behind a fence too. -/
theorem spared_finish {g : Stage α} {r : Except Fault α} {b' : Machine}
    (hr : AllBehind a i origin below o) (ho : g.Opens o b) (hg : Guards a i low b)
    (h : g.Stands low b r m) (ho' : g.Opens o b') (he : g.Ends b' r m) :
    Spared a i origin m (finish host g r m below) := by
  cases g with
  | place start count =>
    obtain rfl : b = o := ho
    obtain rfl : b' = b := ho'
    cases r with
    | ok _ => exact spared_begin count hr hg h.2 h.1 he.1
    | error f => exact spared_answer hr (.refl m)
  | run p guarded =>
    obtain f | _ | vs := r
    · cases guarded with
      | true =>
        refine spared_work hr ho hg (g := .run p false) ?_
        rw [stop_eq ho]
        exact (unwind_fenced hg.here h).bind (fun _ _ _ => ⟨.refl, trivial⟩) fun _ _ _ => trivial
      | false => exact spared_leave p (.error f) m hr
    · exact ⟨⟨o, b, low, hr, ho, hg, h⟩, .refl⟩
    · exact spared_leave p (.ok vs) m hr
  | close co token =>
    cases r with
    | ok failure => exact spared_answer hr (.trans (.switchBack m) (.endClosing _ co token failure))
    | error f => exact spared_answer hr (.switchBack m)

theorem spared_place (f : Value) (args : List Value) (hr : AllBehind a i origin below m) :
    Spared a i origin m (.work (.place m.fiber.freeSlot args.length) ((do
      Exec.setSlot m.fiber.freeSlot f
      Exec.writeRange (m.fiber.freeSlot + 1) args : Exec Unit) m) below) := by
  have hg := hr.guards
  have hc := Stays.closed (b := m) (D := fun _ => True) hg.here
  have hplace := hc.bind (hc.setSlot f (Nat.le_refl _)) fun _ => hc.writeRange args (Nat.le_succ _)
  refine spared_work hr rfl hg ?_
  exact (hplace m ⟨.refl m, trivial⟩).imp _ (fun _ h => h) fun _ _ h => ⟨Nat.le_refl _, h.1⟩

/-- The fiber of a coroutine goes on in an arena of its own. -/
theorem spared_start {co : Ref .coroutine} {fiber : Fiber} (entry : Callee) (args : List Value)
    (hr : AllBehind a i origin below m) (hne : fiber.arena ≠ a) (hf : fiber.Parked) :
    Spared a i origin m (start host co entry args (m.enterCoroutine co fiber) below) := by
  let m₀ := m.enterCoroutine co { fiber with pending := none }
  let b : Machine := { m₀ with fiber := { m₀.fiber with calls := {} } }
  have ho : Resumed m co b := ⟨hf.isCoroutine, hf.nested, rfl, rfl, waiting_enterCoroutine _ _ _,
    active_enterCoroutine _ _ _, nativeDepth_enterCoroutine _ _ _⟩
  have hg : Guards a i 0 b := hr.guards.switched ho.waiting hne
  have hin : Fenced 0 b m₀ := fenced_zero ⟨rfl, List.nil_suffix, rfl, rfl, rfl⟩ rfl
  have hswitch : SameSlots m m₀ := .enterCoroutine _ _ _
  refine .after_switch hswitch ?_
  have hshape := hf.shape
  unfold start
  rw [fiber_enterCoroutine]
  dsimp only
  split
  · rename_i slot wanted hpending
    rw [hpending] at hshape
    have hdeep : b.callDepth < m₀.callDepth := by
      show 0 < m₀.callDepth
      rw [callDepth_eq]
      exact List.length_pos_iff.2 hshape
    have hplace := Stays.placeResults hg.here (Nat.zero_le slot) wanted args m₀ ⟨hin, hdeep⟩
    refine spared_work (g := .run (.resume co) true) hr ho hg ?_
    exact hplace.bind (fun _ m₁ h₁ => ⟨.refl, h₁⟩) fun f m₁ h₁ _ => h₁.1
  · exact spared_work (g := .run (.resume co) false) hr ho hg ⟨.refl, trivial⟩
  · split
    · rename_i r
      have hnative := Stays.invokeNative (a := a) (i := i) (D := fun _ => True) host r args m₀ ⟨hin, trivial⟩
      refine spared_work (g := .run (.resume co) false) hr ho hg ?_
      refine hnative.handle fun result m' h' => ?_
      split
      · exact ⟨.refl, trivial⟩
      · have hy : m'.fiber.isYieldable = true := by
          rw [Fiber.isYieldable, h'.1.above.fiber]
          simp only [ho.isCoroutine, ho.nested, BEq.rfl, Bool.and_self]
        exact ⟨.single ⟨.await .entry hy, .of_eq rfl rfl⟩, trivial⟩
      · exact ⟨.refl, trivial⟩
    · rename_i r
      have hc := Stays.closed (D := (· = m₀.callDepth)) hg.here
      refine spared_work (g := .run (.resume co) false) hr ho hg ?_
      have hopen : Step.Follows (fence a i 0 b) (Opened 0 b m₀.callDepth) m₀ ((do
          Exec.setSlot 0 (.closure r)
          Exec.writeRange 1 args
          Exec.pushFrame r 0 args.length none : Exec Unit) m₀) := by
        rw [bind_eq]
        refine (hc.setSlot _ (Nat.zero_le _) m₀ ⟨hin, rfl⟩).bind (fun _ m₁ h₁ => ?_) fun _ _ h₁ => h₁
        rw [bind_eq]
        refine (hc.writeRange _ (Nat.zero_le _) m₁ h₁).bind (fun _ m₂ h₂ => ?_) fun _ _ h₂ => h₂
        exact pushFrame_fenced hg.here r (Nat.zero_le _) _ _ h₂
      refine hopen.bind (fun _ m₁ h₁ => ⟨.refl, h₁.1, ?_⟩) fun _ _ _ => trivial
      rw [h₁.2]
      exact Nat.succ_pos _

theorem spared_close {co : Ref .coroutine} {fiber : Fiber} (token : Ref .token)
    (hr : AllBehind a i origin below m) (hne : fiber.arena ≠ a) :
    Spared a i origin m (.work (.close co token)
      (Exec.closeFrames none fiber.calls.depth ((m.park co none).switchTo fiber)) below) := by
  let m₀ := (m.park co none).switchTo fiber
  let b : Machine := { m₀ with fiber := { m₀.fiber with calls := {} } }
  have ho : (Stage.close co token).Opens m b := ⟨rfl, rfl, rfl, rfl⟩
  have hg : Guards a i 0 b := hr.guards.switched rfl hne
  have hin : Inside 0 b (· = b.callDepth + fiber.calls.depth) m₀ :=
    ⟨fenced_zero ⟨rfl, List.nil_suffix, rfl, rfl, rfl⟩ rfl, (Nat.zero_add _).symm⟩
  have hswitch : SameSlots m m₀ := ⟨rfl, rfl⟩
  refine .after_switch hswitch (spared_work hr ho hg ?_)
  exact (closeFrames_fenced hg.here fiber.calls.depth none hin).imp _ (fun _ h => h) fun _ _ _ => trivial

/-- Whatever is asked for is done behind a fence. -/
theorem spared_ask {l : List (Ref .coroutine)} (q : Query) (hr : AllBehind a i origin below m)
    (hs : Scheduled l m) (hl : Ledger.Balanced m.ledger) :
    Spared a i origin m (ask host q m below) := by
  have hresponse := response_ask host q m below
  generalize ask host q m below = c at hresponse ⊢
  cases hresponse with
  | refuse _ => exact spared_answer hr (.refl m)
  | place f args _ => exact spared_place _ _ hr
  | cancel args _ _ _ => exact spared_answer hr ⟨rfl, rfl⟩
  | start args hc hst _ hp =>
    have hparked := (hs.parked_of_suspended hc hst hp).2
    exact spared_start _ _ hr (hr.guards.ne_of_parked hl hc hp) hparked
  | done co => exact spared_answer hr (.refl m)
  | discard _ _ _ => exact spared_answer hr ⟨rfl, rfl⟩
  | close hc _ hp => exact spared_close _ hr (hr.guards.ne_of_parked hl hc hp)

theorem eq_of_rooted (h : Rooted origin below o) (h' : AllBehind a i origin below o') : o = o' := by
  cases below with
  | nil => exact h.trans h'.1.symm
  | cons l below => exact h.1.trans h'.1.symm

theorem spared_next {l : List (Ref .coroutine)} {c c' : Config} (h : Behind a i origin c)
    (hg : Good origin l c) (hl : Ledger.Balanced c.machine.ledger) (hn : Next host c c') :
    Spared a i origin c.machine c' := by
  cases c with
  | work g s below =>
    obtain ⟨o, b, low, hr, ho, hguard, hf⟩ := h
    obtain ⟨⟨o', b', hr', ho', hf'⟩, hs⟩ := hg
    obtain rfl := eq_of_rooted hr' hr
    cases s with
    | ret a m =>
      cases hn
      exact spared_finish hr ho hguard hf.2 ho' hf'.2
    | raise f m =>
      cases hn
      exact spared_finish hr ho hguard hf.2 ho' hf'.2
    | ask q m k =>
      cases hn
      obtain ⟨-, ha, hk⟩ := hf
      exact spared_ask q ⟨rfl, o', hr, b, low, ho, hguard, ha, hk⟩ hs hl
  | loop p m below =>
    cases hn
    obtain ⟨o, b, low, hr, ho, hguard, hin⟩ := h
    refine spared_work (g := .run p true) hr ho hguard ?_
    rw [stop_eq ho]
    refine (step_fenced hguard.here host hin).imp _ (fun _ h => h) fun r m' h' => ?_
    obtain f | _ | vs := r
    · exact h'
    · exact h'
    · trivial
  | answer r m below =>
    cases below with
    | nil => cases hn
    | cons lev below =>
      cases hn
      obtain ⟨o, rfl, o', hr, b, low, ho, hguard, -, hk⟩ := h
      obtain ⟨⟨o, ⟨rfl, -⟩, hb, -⟩, -⟩ := hg
      exact spared_work hr ho hguard (hk r m hb)

theorem spared_runs {l : List (Ref .coroutine)} {c c' : Config} (h : Behind a i origin c)
    (hg : Good origin l c) (hl : Ledger.Balanced c.machine.ledger) (hr : Runs host c c') :
    Spared a i origin c.machine c' ∧ Good origin l c' ∧ Ledger.Balanced c'.machine.ledger := by
  induction hr with
  | refl => exact ⟨⟨h, .refl⟩, hg, hl⟩
  | tail _ hn ih =>
    obtain ⟨⟨hb, hpath⟩, hg', hl'⟩ := ih
    obtain ⟨hb', hpath'⟩ := spared_next hb hg' hl' hn
    have hgoes := goes_next hg'.sound hg'.scheduled hn
    exact ⟨⟨hb', hpath.trans hpath'⟩, .of_goes hg'.scheduled hgoes,
      hl'.edits (edits_moves hg'.scheduled hgoes.2)⟩

/-- On the way to an answer, every slot below the first free one is left alone or assigned through a broker that was
live over it; so without such a broker it keeps its value. -/
theorem reentry_spares {c : Config} (hc : Reachable host c) {time : Nat} {f : Value}
    {args : List Value} {r : Except Fault Reply} {m : Machine}
    (h : serve host time (.call f args) c.machine = some (r, m)) {i : Nat}
    (hi : i < c.machine.fiber.freeSlot) :
    SparedTurns c.machine.fiber.arena i c.machine m ∧
      ((∀ r, c.machine.heap.brokers.get? r ≠ some (.live c.machine.fiber.arena i)) →
        m.arena.get i = c.machine.arena.get i) := by
  have hs := hc.scheduled
  have hl := hc.ledger_balanced
  have hguards : Guards c.machine.fiber.arena i c.machine.fiber.freeSlot c.machine :=
    ⟨fun _ => hi, fun hne => absurd rfl hne⟩
  have hgoes : Goes c.machine (c.closing []) (c.closing [], c.machine)
      (ask host (.call f args) c.machine []) := goes_ask _ rfl hs
  have hask : Spared c.machine.fiber.arena i c.machine c.machine
      (ask host (.call f args) c.machine []) := spared_ask _ ⟨rfl, hguards⟩ hs hl
  obtain ⟨hb, hpath⟩ := hask
  have hruns := spared_runs hb (.of_goes hs hgoes) (hl.edits (edits_moves hs hgoes.2))
    (served_serve time (.call f args) c.machine r m [] h)
  have hall : SparedTurns c.machine.fiber.arena i c.machine m := hpath.trans hruns.1.2
  refine ⟨hall, fun hn => ?_⟩
  have harena : m.fiber.arena = c.machine.fiber.arena := by
    rw [(balanced_of_serve hs h).1.fiber]
  rw [Machine.arena, Machine.arena, harena]
  exact hall.get_eq hn

/-- A function that captured its argument is called again while it runs: the slot below its window keeps
the function that stands there. -/
theorem reentry_spares_callee :
    let host : Host := fun _ _ => .done []
    let c := steps host 4 (ask host (.call (.closure ⟨0⟩) [.int 5])
      ((bare ⟨4, 64, 8, 8⟩).load captureArgument).2 [])
    0 < c.machine.fiber.freeSlot ∧ ∃ r m,
      serve host 8 (.call (.closure ⟨0⟩) [.int 7]) c.machine = some (r, m) ∧
        m.arena.get 0 = .closure ⟨0⟩ := by
  intro host c
  have hc : Reachable host c := reachable_asked host _ [.load captureArgument] _ 4
  have hfree : 0 < c.machine.fiber.freeSlot := by decide +kernel
  have hanswer : (serve host 8 (.call (.closure ⟨0⟩) [.int 7]) c.machine).isSome := by decide +kernel
  obtain ⟨⟨r, m⟩, h⟩ := Option.isSome_iff_exists.1 hanswer
  -- the only broker is over the argument
  have hbrokers : c.machine.heap.brokers.items = #[.live ⟨0⟩ 1] := by decide +kernel
  have hnone : ∀ q, c.machine.heap.brokers.get? q ≠ some (.live c.machine.fiber.arena 0) := by
    intro q hq
    rw [Store.get?, hbrokers, List.getElem?_toArray] at hq
    obtain hq := List.mem_of_getElem? hq
    simp at hq
  have hslot : c.machine.arena.get 0 = .closure ⟨0⟩ := by decide +kernel
  exact ⟨hfree, r, m, h, ((reentry_spares hc h hfree).2 hnone).trans hslot⟩

end Config
end RegisterMachine
