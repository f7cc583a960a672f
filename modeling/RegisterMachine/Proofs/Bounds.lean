import Mathlib.Algebra.GroupWithZero.Nat
import RegisterMachine.Proofs.Homes
import RegisterMachine.Proofs.Parameters

/-! The limits of a machine. Frames, arenas and calls from the host stay within their bounds whatever is run,
and what would take them beyond ends in a stack overflow, with everything as it was. -/
namespace RegisterMachine

open Machine
open Scene.Proceeds (fiber_leaving waiting_leaving)

namespace Arena

variable {limit : Nat} {a : Arena}

/-- An arena of a machine that allows a number of slots. One slot is always there. -/
structure Bounded (limit : Nat) (a : Arena) : Prop where
  own : a.limit = limit
  pos : 1 ≤ a.slots.size
  size : a.slots.size ≤ max 1 limit

theorem bounded_create (initial limit : Nat) : Bounded limit (create initial limit) := by
  refine ⟨rfl, ?_, ?_⟩ <;> simp only [create, Array.size_replicate] <;> omega

theorem Bounded.admits_iff (h : Bounded limit a) (i : Nat) : a.admits i ↔ i < max 1 limit := by
  have hp := h.pos
  have hs := h.size
  simp only [admits, h.own, Bool.or_eq_true, decide_eq_true_eq]
  omega

theorem Bounded.grow (h : Bounded limit a) (i : Nat) : Bounded limit (a.grow i) := by
  rw [Arena.grow]
  split
  · exact h
  · have hs := h.size
    have hp := h.pos
    refine ⟨h.own, ?_, ?_⟩ <;> simp only [Array.size_append, Array.size_replicate, h.own] <;> omega

theorem Bounded.of_size {slots : Array Value} (h : Bounded limit a) (hs : slots.size = a.slots.size) :
    Bounded limit ⟨slots, a.limit⟩ :=
  ⟨h.own, hs ▸ h.pos, hs ▸ h.size⟩

theorem Bounded.apply (h : Bounded limit a) (op : Op) : Bounded limit (op.apply a) := by
  cases op with
  | put i v => exact (h.grow i).of_size (Array.size_setIfInBounds ..)
  | grow i => exact h.grow i
  | putRange start vs =>
    show Bounded limit (a.putRange start vs)
    rw [putRange]
    split
    · exact h
    · exact (h.grow _).of_size (size_putAll _ _ _)
  | clearRange start stop =>
    show Bounded limit (a.clearRange start stop)
    rw [clearRange]
    split
    · exact h
    · exact (h.grow _).of_size (size_wipe _ _ _)

/-- The last slot that is written, if any. -/
def Op.last? : Op → Option Nat
  | .put i _ => some i
  | .grow i => some i
  | .putRange start vs => lastSlot? start vs.length
  | .clearRange start stop => lastSlot? start (stop - start)

theorem Bounded.fits_iff (h : Bounded limit a) (op : Op) :
    op.fits a ↔ ∀ i, op.last? = some i → i < max 1 limit := by
  have hrange : ∀ start count, a.admitsRange start count ↔
      ∀ i, lastSlot? start count = some i → i < max 1 limit := by
    intro start count
    rw [admitsRange]
    cases lastSlot? start count with
    | none => simp
    | some i => simp [h.admits_iff]
  cases op with
  | put i v => simpa [Op.fits, Op.last?] using h.admits_iff i
  | grow i => simpa [Op.fits, Op.last?] using h.admits_iff i
  | putRange start vs => exact hrange start vs.length
  | clearRange start stop => exact hrange start (stop - start)

end Arena

namespace Machine

variable {limits : Limits} {m m' : Machine}

/-- The machine keeps to its limits: all fibers have room for their frames, all arenas for their slots. -/
structure Within (limits : Limits) (m : Machine) : Prop where
  config : m.limits = limits
  frames : ∀ f ∈ m.fibers, f.calls.depth ≤ limits.maxCallDepth
  arenas : ∀ r a, m.heap.arenas.get? r = some a → a.Bounded limits.maxSlots

theorem within_bare (limits : Limits) : Within limits (bare limits) := by
  refine ⟨rfl, fun f hf => ?_, fun r a ha => ?_⟩
  · obtain rfl := List.mem_singleton.1 hf
    exact Nat.zero_le _
  · obtain ⟨_ | i⟩ := r
    · cases ha
      exact Arena.bounded_create _ _
    · cases ha

theorem mem_fibers_of_held {co : Ref .coroutine} {f : Fiber} (h : m.heap.held co = some f) :
    f ∈ m.fibers :=
  List.mem_cons_of_mem _ (List.mem_append_right _ (Heap.mem_parked_iff.2 ⟨co, h⟩))

/-- Every fiber was there before, up to what does not concern its frames. -/
def KeepsCalls (m m' : Machine) : Prop := ∀ f' ∈ m'.fibers, ∃ f ∈ m.fibers, f'.calls = f.calls

theorem KeepsCalls.of_fibers (hf : ∃ f ∈ m.fibers, m'.fiber.calls = f.calls) (hw : ∀ f ∈ m'.waiting, f ∈ m.fibers)
    (hp : ∀ co f, m'.heap.held co = some f → f ∈ m.fibers) : KeepsCalls m m' := by
  intro f' hf'
  obtain rfl | hf' := List.mem_cons.1 hf'
  · exact hf
  · refine ⟨f', ?_, rfl⟩
    obtain hf' | hf' := List.mem_append.1 hf'
    · exact hw f' hf'
    · obtain ⟨co, hco⟩ := Heap.mem_parked_iff.1 hf'
      exact hp co f' hco

theorem keepsCalls_of_shift {l l' : List (Ref .coroutine)} (hs : Shift l m l' m') : KeepsCalls m m' := by
  have hself : ∃ f ∈ m.fibers, m.fiber.calls = f.calls := ⟨m.fiber, List.mem_cons_self, rfl⟩
  have hwaiting : ∀ f ∈ m.waiting, f ∈ m.fibers := fun f hf =>
    List.mem_cons_of_mem _ (List.mem_append_left _ hf)
  have hback : ∀ {f w}, m.waiting = f :: w → (∃ f' ∈ m.fibers, f.calls = f'.calls) ∧ ∀ g ∈ w, g ∈ m.fibers := by
    intro f w hw
    refine ⟨⟨f, hwaiting f (by rw [hw]; exact List.mem_cons_self), rfl⟩, fun g hg => ?_⟩
    exact hwaiting g (by rw [hw]; exact List.mem_cons_of_mem _ hg)
  have hheld : ∀ co f, m.heap.held co = some f → f ∈ m.fibers := fun _ _ => mem_fibers_of_held
  have hparked : ∀ co q f, (m.park co none).heap.held q = some f → f ∈ m.fibers := by
    intro co q f hf
    obtain ⟨-, hf⟩ | ⟨-, hf⟩ := held_park m co q hf
    · cases hf
    · exact hheld q f hf
  cases hs with
  | enterCall => exact .of_fibers hself hwaiting hheld
  | leaveCall top => exact .of_fibers hself hwaiting hheld
  | @enter _ _ co c fiber hc _ hp =>
    refine .of_fibers ⟨fiber, hheld co fiber ((Heap.held_eq_parked hc).trans hp), rfl⟩ ?_ ?_
    · rw [waiting_enterCoroutine]
      intro f hf
      obtain rfl | hf := List.mem_cons.1 hf
      · exact List.mem_cons_self
      · exact hwaiting f hf
    · intro q f hf
      rw [held_enterCoroutine] at hf
      exact hparked co q f hf
  | @finish _ _ co _ f w _ hw _ =>
    obtain ⟨hf, hrest⟩ := hback hw
    refine .of_fibers ?_ ?_ fun q g hg => hheld q g (by simpa using hg)
    · rw [show (m.leaving.setStatus co .dead).fiber = f from fiber_leaving hw]
      exact hf
    · rw [show (m.leaving.setStatus co .dead).waiting = w from waiting_leaving hw]
      exact hrest
  | @yield _ _ co _ f w _ hw _ =>
    obtain ⟨hf, hrest⟩ := hback hw
    refine .of_fibers ?_ ?_ fun q g hg => ?_
    · rw [show ((m.leaving.park co (some m.fiber)).setStatus co .suspended).fiber = f from fiber_leaving hw]
      exact hf
    · rw [show ((m.leaving.park co (some m.fiber)).setStatus co .suspended).waiting = w from waiting_leaving hw]
      exact hrest
    · rw [held_setStatus] at hg
      obtain ⟨-, hg⟩ | ⟨-, hg⟩ := held_park _ co q hg
      · cases hg
        exact List.mem_cons_self
      · exact hheld q g (by simpa using hg)
  | @refuse _ _ co _ _ _ => exact .of_fibers hself hwaiting fun q g hg => hheld q g (by simpa using hg)
  | @close _ _ co c fiber hc _ hp =>
    refine .of_fibers ⟨fiber, hheld co fiber ((Heap.held_eq_parked hc).trans hp), rfl⟩ ?_ (hparked co)
    intro f hf
    obtain rfl | hf := List.mem_cons.1 hf
    · exact List.mem_cons_self
    · exact hwaiting f hf
  | @closed _ _ co f w token failure hw _ =>
    obtain ⟨hf, hrest⟩ := hback hw
    have hswitch : m.switchBack = { m with fiber := f, waiting := w } := by
      simp only [switchBack, hw]
    refine .of_fibers ?_ ?_ fun q g hg => hheld q g (by simpa using hg)
    · rw [hswitch]
      cases failure <;> exact hf
    · rw [hswitch]
      cases failure <;> exact hrest
  | @discard _ _ co _ token _ _ _ =>
    refine .of_fibers hself hwaiting fun q g hg => hparked co q g ?_
    rwa [held_endClosing] at hg

namespace Within

/-- The fibers are as deep as before, or not as deep. -/
theorem of_fibers (h : Within limits m) (hl : m'.limits = m.limits)
    (hf : ∀ f' ∈ m'.fibers, ∃ f ∈ m.fibers, f'.calls.depth ≤ f.calls.depth)
    (ha : m'.heap.arenas = m.heap.arenas) : Within limits m' := by
  refine ⟨hl.trans h.config, fun f' hf' => ?_, fun r a hr => h.arenas r a (ha ▸ hr)⟩
  obtain ⟨f, hmem, hle⟩ := hf f' hf'
  exact Nat.le_trans hle (h.frames f hmem)

/-- Of the fibers, only the running one changes. -/
theorem of_running (h : Within limits m) (hl : m'.limits = m.limits)
    (hd : m'.callDepth ≤ m.callDepth) (hw : m'.waiting = m.waiting)
    (hp : m'.heap.parked = m.heap.parked) (ha : m'.heap.arenas = m.heap.arenas) : Within limits m' := by
  refine h.of_fibers hl (fun f' hf' => ?_) ha
  rw [fibers, hw, hp] at hf'
  obtain rfl | hf' := List.mem_cons.1 hf'
  · exact ⟨m.fiber, List.mem_cons_self, hd⟩
  · exact ⟨f', List.mem_cons_of_mem _ hf', Nat.le_refl _⟩

theorem modifyArena (h : Within limits m) (r : Ref .arena) (op : Arena.Op) :
    Within limits (m.modifyHeap (·.modifyArena r op.apply)) := by
  refine ⟨h.config, h.frames, fun q a hq => ?_⟩
  change (m.heap.arenas.modify r op.apply).get? q = some a at hq
  by_cases hr : r = q
  · subst hr
    rw [Store.get?_modify_self] at hq
    obtain ⟨b, hb, rfl⟩ := Option.map_eq_some_iff.1 hq
    exact (h.arenas r b hb).apply op
  · rw [Store.get?_modify_of_ne _ hr] at hq
    exact h.arenas q a hq

theorem newCoroutine (h : Within limits m) (entry : Callee) :
    Within limits (m.newCoroutine entry).2 := by
  refine ⟨h.config, fun f hf => ?_, fun r a ha => ?_⟩
  · rw [fibers, parked_newCoroutine, ← List.append_assoc, ← List.cons_append, List.mem_append] at hf
    obtain hf | hf := hf
    · exact h.frames f hf
    · obtain rfl := List.mem_singleton.1 hf
      exact Nat.zero_le _
  · change (m.heap.arenas.alloc _).2.get? r = some a at ha
    rw [Store.get?, Store.alloc, Array.getElem?_push] at ha
    split at ha
    · cases ha
      rw [h.config]
      exact Arena.bounded_create _ _
    · exact h.arenas r a ha

theorem quiet (h : Within limits m) (hq : Quiet m m') : Within limits m' := by
  cases hq with
  | write op _ => exact h.modifyArena m.fiber.arena op
  | @assign r a slot v _ _ => exact h.modifyArena a (.put slot v)
  | act x =>
    cases x with
    | newCoroutine entry => exact h.newCoroutine entry
    | load p => exact h.of_running rfl (Nat.le_refl _) rfl (parked_load m p) (Loaded.load m p).arenas
    | setCoroutineMetatable r metatable =>
      exact h.of_running rfl (Nat.le_refl _) rfl (m.heap.parked_modify_of_eq r fun _ _ => rfl) rfl
    | _ => exact h.of_running rfl (Nat.le_refl _) rfl rfl rfl
  | _ => exact h.of_running rfl (Nat.le_refl _) rfl rfl rfl

theorem modifyFrame (h : Within limits m) (g : Frame → Frame) : Within limits (m.modifyFrame g) :=
  h.of_running rfl (Nat.le_of_eq (depth_modifyTop g m.fiber.calls)) rfl rfl rfl

theorem closeBrokers (h : Within limits m) (rs : List (Ref .broker)) :
    Within limits (m.modifyHeap (·.closeBrokers rs)) :=
  h.of_running rfl (Nat.le_refl _) rfl (parked_closeBrokers m.heap rs) (arenas_closeBrokers m.heap rs)

theorem change (h : Within limits m) (hc : Change m m') : Within limits m' := by
  cases hc with
  | quiet hq => exact h.quiet hq
  | touch ht =>
    cases ht with
    | goto g => exact h.modifyFrame _
    | mark slot => exact h.modifyFrame _
    | @capture f slot _ _ =>
      have h' : Within limits { m with heap := (m.heap.newBroker (.live m.fiber.arena slot)).2 } :=
        h.of_running rfl (Nat.le_refl _) rfl rfl rfl
      exact h'.modifyFrame _
    | part start _ => exact (h.modifyFrame _).closeBrokers _
  | enter he =>
    cases he with
    | intro f _ _ hroom =>
      refine ⟨h.config, fun f' hf' => ?_, h.arenas⟩
      obtain rfl | hf' := List.mem_cons.1 hf'
      · rw [h.config] at hroom
        exact hroom
      · exact h.frames f' (List.mem_cons_of_mem _ hf')
  | drop hd =>
    cases hd with
    | @intro f calls hp =>
      have hdepth := callDepth_of_pop hp
      have h' : Within limits (m.modifyFiber fun fiber => { fiber with calls }) :=
        h.of_running rfl (by rw [hdepth]; exact Nat.le_succ _) rfl rfl rfl
      exact h'.closeBrokers _
  | await p _ => exact h.of_running rfl (Nat.le_refl _) rfl rfl rfl

theorem shift {l l' : List (Ref .coroutine)} (h : Within limits m) (hs : Shift l m l' m') :
    Within limits m' := by
  have hsw := Switched.shift hs
  refine h.of_fibers hsw.limits (fun f' hf' => ?_) (by rw [hsw.heap])
  obtain ⟨f, hmem, hcalls⟩ := keepsCalls_of_shift hs f' hf'
  exact ⟨f, hmem, Nat.le_of_eq (by rw [hcalls])⟩

theorem moves {st st' : List (Ref .coroutine) × Machine} (h : Within limits st.2)
    (hm : Config.Moves st st') : Within limits st'.2 := by
  induction hm with
  | refl => exact h
  | tail _ hm ih =>
    cases hm with
    | change hc => exact ih.change hc
    | shift hs => exact ih.shift hs
    | watch _ _ _ _ _ _ => exact ih.of_running rfl (Nat.le_refl _) rfl rfl rfl

end Within
end Machine

namespace Stage

def runs {α : Type} : Stage α → Nat
  | .place _ _ => 0
  | .run _ _ => 1
  | .close _ _ => 0

/-- With that many runs below it, there is room for the run of a stage, or for the one that it prepares. -/
def HasRoom (limit below : Nat) {α : Type} : Stage α → Prop
  | .place _ _ => below < limit
  | .run _ _ => below < limit
  | .close _ _ => True

variable {α : Type} {o b m : Machine}

theorem HasRoom.add_runs_le {limit below : Nat} {g : Stage α} (h : g.HasRoom limit below)
    (hb : below ≤ limit) : below + g.runs ≤ limit := by
  cases g with
  | run p guarded => exact h
  | _ => exact hb

theorem nativeDepth_of_opens {g : Stage α} (h : g.Opens o b) : b.nativeDepth = o.nativeDepth + g.runs := by
  cases g with
  | place start count =>
    rw [show b = o from h]
    rfl
  | run p guarded =>
    cases p with
    | call stop top =>
      rw [h.2.2]
      rfl
    | resume co => exact Resumed.nativeDepth h
  | close co token => exact Closing.nativeDepth h

theorem nativeDepth_of_yielded {p : Purpose} {guarded : Bool} (h : Yielded p guarded b m) :
    m.nativeDepth = b.nativeDepth := by
  obtain h | ⟨-, h⟩ := h
  · cases h with
    | intro slot wanted hdeep _ => exact hdeep.1.nativeDepth
  · cases p with
    | call stop top => exact h.1.nativeDepth
    | resume co =>
      obtain ⟨m₁, hat, rfl⟩ := h
      exact hat.1.nativeDepth

theorem nativeDepth_of_ends {g : Stage α} {r : Except Fault α} (h : g.Ends b r m) :
    m.nativeDepth = b.nativeDepth := by
  cases g with
  | place start count => exact h.1.nativeDepth
  | run p guarded =>
    obtain f | _ | vs := r
    · change (if f.isYield then _ else if guarded then _ else _) at h
      split at h
      · exact nativeDepth_of_yielded h
      · split at h
        · exact h.nativeDepth
        · exact h.1.nativeDepth
    · exact h.1.nativeDepth
    · exact h.1.nativeDepth
  | close co token =>
    cases r with
    | error f => exact h.elim
    | ok failure => exact h.1.1.nativeDepth

end Stage

namespace Config

variable {host : Host} {limits : Limits} {origin o m : Machine} {below : List Level} {c c' : Config}

def waitingRuns (below : List Level) : Nat := (below.map fun l => l.stage.runs).sum

/-- The runs of frames that are nested in each other. -/
def runs : Config → Nat
  | .work g _ below => waitingRuns below + g.runs
  | .loop _ _ below => waitingRuns below + 1
  | .answer _ _ below => waitingRuns below

theorem waitingRuns_cons (l : Level) (below : List Level) :
    waitingRuns (l :: below) = waitingRuns below + l.stage.runs := by
  simp [waitingRuns, Nat.add_comm]

theorem nativeDepth_of_rooted (h : Rooted origin below o) :
    o.nativeDepth = origin.nativeDepth + waitingRuns below := by
  induction below generalizing o with
  | nil => rw [show o = origin from h]; rfl
  | cons l below ih =>
    obtain ⟨rfl, o', hr, b, hopens, habove, -⟩ := h
    rw [habove.nativeDepth, Stage.nativeDepth_of_opens hopens, ih hr, waitingRuns_cons, Nat.add_assoc]

theorem Sound.nativeDepth (h : Sound origin c) :
    c.machine.nativeDepth = origin.nativeDepth + c.runs := by
  cases c with
  | work g s below =>
    obtain ⟨o, b, hr, hopens, hs⟩ := h
    have hb : s.machine.nativeDepth = b.nativeDepth := by
      cases s with
      | ret a m => exact Stage.nativeDepth_of_ends hs.2
      | raise f m => exact Stage.nativeDepth_of_ends hs.2
      | ask q m k => exact hs.2.1.nativeDepth
    show s.machine.nativeDepth = _
    rw [hb, Stage.nativeDepth_of_opens hopens, nativeDepth_of_rooted hr, runs, Nat.add_assoc]
  | loop p m below =>
    obtain ⟨o, b, hr, hopens, hdeep⟩ := h
    have hopens : (Stage.run p true).Opens o b := hopens
    show m.nativeDepth = _
    rw [hdeep.1.nativeDepth, Stage.nativeDepth_of_opens hopens, nativeDepth_of_rooted hr, Nat.add_assoc]
    rfl
  | answer r m below =>
    obtain ⟨o, hr, hb, -⟩ := h
    show m.nativeDepth = _
    rw [hb.nativeDepth, nativeDepth_of_rooted hr, runs]

theorem exists_origin (h : LeadsTo host (initial limits) c) :
    ∃ origin, Good origin [] c ∧ origin.nativeDepth = 0 := by
  induction h with
  | refl => exact ⟨_, good_initial limits, rfl⟩
  | tail _ hl ih =>
    obtain ⟨origin, hg, hz⟩ := ih
    have hrest : ∀ {r m m'}, Good origin [] (.answer r m []) → Move ([], m) ([], m') →
        m'.nativeDepth = m.nativeDepth → ∃ origin, Good origin [] (.answer r m' []) ∧ origin.nativeDepth = 0 := by
      intro r m m' hg hm hn
      have hd := hg.sound.nativeDepth
      rw [hz] at hd
      exact ⟨m', hg.rest hm, hn.trans hd⟩
    cases hl with
    | next hn => exact ⟨origin, hg.runs (.single hn), hz⟩
    | @ask r m q =>
      have hd := hg.sound.nativeDepth
      rw [hz] at hd
      exact ⟨m, .of_goes hg.scheduled (goes_ask q rfl hg.scheduled), hd⟩
    | act a => exact hrest hg (.change (.quiet (.act a))) (Quiet.act a).same.2.2.2.1
    | watch hook snapshots warnings printed isSinkClosed notes =>
      exact hrest hg (.watch hook snapshots warnings printed isSinkClosed notes) rfl

theorem nativeDepth_eq_runs (h : LeadsTo host (initial limits) c) : c.machine.nativeDepth = c.runs := by
  obtain ⟨origin, hg, hz⟩ := exists_origin h
  rw [hg.sound.nativeDepth, hz, Nat.zero_add]

/-- There was room for each run that waits. -/
def Spacious (limit : Nat) : List Level → Prop
  | [] => True
  | l :: below => l.stage.HasRoom limit (waitingRuns below) ∧ Spacious limit below

theorem Spacious.waitingRuns_le {limit : Nat} (h : Spacious limit below) : waitingRuns below ≤ limit := by
  induction below with
  | nil => exact Nat.zero_le _
  | cons l below ih =>
    rw [waitingRuns_cons]
    exact h.1.add_runs_le (ih h.2)

def HasRoom (limit : Nat) : Config → Prop
  | .work g _ below => g.HasRoom limit (waitingRuns below) ∧ Spacious limit below
  | .loop _ _ below => waitingRuns below < limit ∧ Spacious limit below
  | .answer _ _ below => Spacious limit below

theorem HasRoom.runs_le {limit : Nat} (h : c.HasRoom limit) : c.runs ≤ limit := by
  cases c with
  | work g s below => exact h.1.add_runs_le h.2.waitingRuns_le
  | loop p m below => exact h.1
  | answer r m below => exact Spacious.waitingRuns_le h

theorem hasRoom_leave {limit : Nat} (h : Spacious limit below) (p : Purpose)
    (r : Except Fault (List Value)) (m : Machine) : (leave p r m below).HasRoom limit := by
  cases p <;> exact h

theorem hasRoom_finish {α : Type} {limit : Nat} {g : Stage α}
    (h : g.HasRoom limit (waitingRuns below)) (hb : Spacious limit below) (r : Except Fault α)
    (m : Machine) : (finish host g r m below).HasRoom limit := by
  cases g with
  | place start count =>
    cases r with
    | ok _ => exact ⟨h, hb⟩
    | error f => exact hb
  | run p guarded =>
    obtain f | _ | vs := r
    · cases guarded with
      | true => exact ⟨h, hb⟩
      | false => exact hasRoom_leave hb p _ m
    · exact ⟨h, hb⟩
    · exact hasRoom_leave hb p _ m
  | close co token => cases r <;> exact hb

theorem hasRoom_start {limit : Nat} (h : waitingRuns below < limit) (hb : Spacious limit below)
    (co : Ref .coroutine) (entry : Callee) (args : List Value) (m : Machine) :
    (start host co entry args m below).HasRoom limit := by
  unfold start
  dsimp only
  split
  · exact ⟨h, hb⟩
  · exact ⟨h, hb⟩
  · split <;> exact ⟨h, hb⟩

theorem hasRoom_ask (q : Query) (hb : Spacious m.limits.maxNativeDepth below)
    (hd : m.nativeDepth = waitingRuns below) : (ask host q m below).HasRoom m.limits.maxNativeDepth := by
  have h := response_ask host q m below
  generalize ask host q m below = c at h ⊢
  cases h with
  | place f args hroom => exact ⟨hd ▸ hroom, hb⟩
  | start args _ _ hroom _ => exact hasRoom_start (hd ▸ hroom) hb _ _ _ _
  | close _ _ _ => exact ⟨trivial, hb⟩
  | _ => exact hb

theorem hasRoom_next {limit : Nat} (hl : c.machine.limits.maxNativeDepth = limit)
    (hd : c.machine.nativeDepth = c.runs) (h : c.HasRoom limit) (hn : Next host c c') :
    c'.HasRoom limit := by
  subst hl
  cases c with
  | work g s below =>
    obtain ⟨hg, hb⟩ := h
    cases s with
    | ret a m =>
      cases hn
      exact hasRoom_finish hg hb _ m
    | raise f m =>
      cases hn
      exact hasRoom_finish hg hb _ m
    | ask q m k =>
      cases hn
      have hlevel : Spacious m.limits.maxNativeDepth (⟨g, q, m, k⟩ :: below) := ⟨hg, hb⟩
      refine hasRoom_ask q hlevel ?_
      rw [waitingRuns_cons]
      exact hd
  | loop p m below =>
    cases hn
    exact h
  | answer r m below =>
    cases below with
    | nil => cases hn
    | cons l below =>
      cases hn
      exact h

theorem within_of_leadsTo (h : LeadsTo host (initial limits) c) : c.machine.Within limits := by
  have hinit : Reachable host (initial limits) := ⟨limits, .refl⟩
  exact (within_bare limits).moves (hinit.moves h)

theorem hasRoom_of_leadsTo (h : LeadsTo host (initial limits) c) : c.HasRoom limits.maxNativeDepth := by
  induction h with
  | refl => exact trivial
  | tail h hl ih =>
    have hlimits := (within_of_leadsTo h).config
    have hdepth := nativeDepth_eq_runs h
    cases hl with
    | next hn => exact hasRoom_next (congrArg Limits.maxNativeDepth hlimits) hdepth ih hn
    | @ask r m q =>
      have hlimits : m.limits = limits := hlimits
      rw [← hlimits]
      exact hasRoom_ask q trivial hdepth
    | _ => exact trivial

end Config

namespace Machine

open Exec

variable {limits : Limits} {l : List (Ref .coroutine)} {m : Machine}

/-- What would exceed a limit ends in a stack overflow, and leaves the machine as it is. -/
structure Refuses (limits : Limits) (m : Machine) : Prop where
  frame : m.callDepth = limits.maxCallDepth → ∀ r start count wanted,
    pushFrame r start count wanted m = .raise .stackOverflow m
  slot : ∀ i v, setSlot i v m = .raise .stackOverflow m ↔ max 1 limits.maxSlots ≤ i
  room : ∀ i, ensureSlot i m = .raise .stackOverflow m ↔ max 1 limits.maxSlots ≤ i
  range : ∀ start vs, writeRange start vs m = .raise .stackOverflow m ↔
    vs ≠ [] ∧ max 1 limits.maxSlots ≤ start + vs.length - 1
  clear : ∀ start stop, clearRange start stop m = .raise .stackOverflow m ↔
    start < stop ∧ max 1 limits.maxSlots ≤ stop - 1
  broker : ∀ r a i v, m.heap.brokers.get? r = some (.live a i) →
    (setBroker r v m = .raise .stackOverflow m ↔ max 1 limits.maxSlots ≤ i)

theorem write_eq_raise_iff {limit : Nat} (h : m.arena.Bounded limit) (op : Arena.Op) :
    write op m = .raise .stackOverflow m ↔ ∃ i, op.last? = some i ∧ max 1 limit ≤ i := by
  have hfits := h.fits_iff op
  unfold write
  split
  · rename_i hf
    constructor
    · intro h
      cases h
    · rintro ⟨i, hi, hle⟩
      exact absurd (hfits.1 hf i hi) (Nat.not_lt.2 hle)
  · rename_i hf
    refine ⟨fun _ => ?_, fun _ => rfl⟩
    by_contra hno
    exact hf (hfits.2 fun i hi => Nat.lt_of_not_le fun hle => hno ⟨i, hi, hle⟩)

theorem exists_arena (hb : Ledger.Balanced m.ledger) {f : Fiber} (hf : f ∈ m.fibers) :
    ∃ x, m.heap.arenas.get? f.arena = some x := by
  have hlt := hb.made f.arena (by
    rw [ledger, List.map_map]
    exact List.mem_map_of_mem hf)
  exact ⟨_, Array.getElem?_eq_getElem hlt⟩

theorem refuses (hw : m.Within limits) (hb : Ledger.Balanced m.ledger) : m.Refuses limits := by
  have hbounded : ∀ f ∈ m.fibers, (m.heap.arena f.arena).Bounded limits.maxSlots := by
    intro f hf
    obtain ⟨x, hx⟩ := exists_arena hb hf
    rw [Heap.arena_eq, hx]
    exact hw.arenas _ x hx
  have harena : m.arena.Bounded limits.maxSlots := hbounded m.fiber List.mem_cons_self
  refine ⟨fun hd r start count wanted => ?_, fun i v => ?_, fun i => ?_, fun start vs => ?_,
    fun start stop => ?_, fun r a i v hr => ?_⟩
  · rw [pushFrame_eq, hw.config, hd, if_pos (Nat.le_refl _)]
  · exact (write_eq_raise_iff harena (.put i v)).trans (by simp [Arena.Op.last?])
  · exact (write_eq_raise_iff harena (.grow i)).trans (by simp [Arena.Op.last?])
  · exact (write_eq_raise_iff harena (.putRange start vs)).trans
      (by simp [Arena.Op.last?, Arena.lastSlot?])
  · refine (write_eq_raise_iff harena (.clearRange start stop)).trans ?_
    simp only [Arena.Op.last?, Arena.lastSlot?, Option.ite_none_left_eq_some, Option.some.injEq]
    constructor
    · rintro ⟨i, ⟨hne, rfl⟩, hle⟩
      omega
    · rintro ⟨hlt, hle⟩
      exact ⟨_, ⟨by omega, rfl⟩, by omega⟩
  · -- a broker is live in the arena of the fiber whose frame lists it
    obtain ⟨k, hk, rfl⟩ := hb.all r a i hr
    have hlive := hb.live k hk
    rw [Config.links_ledger] at hk
    obtain ⟨f, hf, ha, -⟩ := Config.mem_links.1 hk
    obtain ⟨rfl, rfl⟩ : k.arena = a ∧ k.slot = i := by
      simpa using hlive.symm.trans hr
    have hadmits := (hbounded f hf).admits_iff k.slot
    rw [ha] at hadmits
    simp only [setBroker, hr]
    split
    · rename_i hfits
      refine ⟨fun h => ?_, fun hle => ?_⟩
      · cases h
      · exact absurd (hadmits.1 hfits) (Nat.not_lt.2 hle)
    · rename_i hfits
      exact ⟨fun _ => Nat.le_of_not_lt fun hlt => hfits (hadmits.2 hlt), fun _ => rfl⟩

/-- A call from the host that would nest too deep is refused. -/
theorem callValue_overflow (host : Host) (serve : Server) (time : Nat) (f : Value) (args : List Value)
    (h : m.limits.maxNativeDepth ≤ m.nativeDepth) :
    callValue host serve time f args m = some (.error .stackOverflow, m) := if_pos h

/-- So is the resumption of a coroutine that could be resumed. -/
theorem resume_overflow (host : Host) (serve : Server) (time : Nat) {co : Ref .coroutine} {k : Coroutine}
    (args : List Value) (hk : m.heap.coroutine? co = some k) (hs : k.status = .suspended)
    (ht : m.isCancelled k.token = false) (h : m.limits.maxNativeDepth ≤ m.nativeDepth) :
    resume host serve time co args m = some (.error .stackOverflow, m) := by
  simp only [resume, hk, hs, ht, h, Bool.false_eq_true, if_false, if_true]

end Machine

namespace Config

variable {host : Host} {limits : Limits} {c : Config}

/-- No fiber has more frames than allowed, no arena more slots, and no more calls from the host nest than allowed,
whatever is run. What would exceed a limit ends in a stack overflow. -/
theorem limits_respected (h : LeadsTo host (initial limits) c) :
    (∀ l m, Moves (c.closing [], c.machine) (l, m) →
      (∀ f ∈ m.fibers, f.calls.frames.length ≤ limits.maxCallDepth) ∧
      (∀ r a, m.heap.arenas.get? r = some a → a.capacity ≤ max 1 limits.maxSlots) ∧
      m.Refuses limits) ∧
    c.machine.nativeDepth ≤ limits.maxNativeDepth ∧
    c.runs ≤ c.machine.nativeDepth ∧
    (c.machine.nativeDepth = limits.maxNativeDepth → ∀ (serve : Server) (time : Nat) (args : List Value),
      (∀ f, callValue host serve time f args c.machine = some (.error .stackOverflow, c.machine)) ∧
      ∀ co k, c.machine.heap.coroutine? co = some k → k.status = .suspended →
        c.machine.isCancelled k.token = false →
        resume host serve time co args c.machine = some (.error .stackOverflow, c.machine)) := by
  have hreach : Reachable host c := ⟨limits, h⟩
  have hwithin := within_of_leadsTo h
  have hdepth := nativeDepth_eq_runs h
  refine ⟨fun l m hm => ?_, ?_, Nat.le_of_eq hdepth.symm, fun hfull serve time args => ?_⟩
  · have hw : m.Within limits := hwithin.moves hm
    have hb : Ledger.Balanced m.ledger := hreach.ledger_balanced.edits (edits_moves hreach.scheduled hm)
    refine ⟨fun f hf => ?_, fun r a ha => (hw.arenas r a ha).size, refuses hw hb⟩
    rw [← f.calls.depth_eq]
    exact hw.frames f hf
  · rw [hdepth]
    exact (hasRoom_of_leadsTo h).runs_le
  · have hle : c.machine.limits.maxNativeDepth ≤ c.machine.nativeDepth := by
      rw [hwithin.config]
      exact Nat.le_of_eq hfull.symm
    exact ⟨fun f => callValue_overflow host serve time f args hle,
      fun co k hk hs ht => resume_overflow host serve time args hk hs ht hle⟩

def returnNothing : Prototype where
  name := "main"
  source := "test"
  code := #[.abc .ret 0 (.register 1) (.register 0)]

/-- One frame, called by the host, is all that these limits allow. -/
theorem limits_respected_full :
    let host : Host := fun _ _ => .done []
    let c := steps host 2 (ask host (.call (.closure ⟨0⟩) []) ((bare ⟨4, 64, 1, 1⟩).load returnNothing).2 [])
    c.machine.callDepth = 1 ∧ c.runs = 1 ∧
      Exec.pushFrame ⟨0⟩ 1 0 none c.machine = .raise .stackOverflow c.machine ∧
      callValue host (fun _ _ => none) 5 (.closure ⟨0⟩) [] c.machine =
        some (.error .stackOverflow, c.machine) := by
  intro host c
  have hc : LeadsTo host (initial ⟨4, 64, 1, 1⟩) c :=
    (leadsTo_acted _ _ [.load returnNothing]).trans ((leadsTo_of_runs (runs_steps 2 _)).head (.ask _))
  have hd : c.machine.callDepth = 1 := by decide +kernel
  obtain ⟨hall, -, -, hnative⟩ := limits_respected hc
  exact ⟨hd, rfl, (hall _ _ .refl).2.2.frame hd _ _ _ _, (hnative rfl _ _ _).1 _⟩

end Config
end RegisterMachine
