import RegisterMachine.Proofs.Homes

/-! Yields. A native function is called by an instruction, from the host or as the entry of a coroutine;
these are the sites at which a yield comes to something. Where the running fiber can yield it is parked in
its coroutine, and whoever resumed the coroutine gets the values; anywhere else the yield is an error like
any other. -/
namespace RegisterMachine

open Machine Exec

/-- Where a native function is called. -/
inductive Site
  /-- By an instruction, which has something else to do afterwards. -/
  | instruction (p : Purpose) (start : Nat) (wanted : Option Nat)
      (rest : Unit → Machine → Step (Option (List Value)))
  /-- From the host, or by one of its functions. -/
  | host (stop top : Nat)
  /-- As the entry of a coroutine. -/
  | entry (co : Ref .coroutine)

namespace Site

/-- What the frames at the site run for. -/
def purpose : Site → Purpose
  | .instruction p _ _ _ => p
  | .host stop top => .call stop top
  | .entry co => .resume co

def stage : Site → Stage (Option (List Value))
  | .instruction p _ _ _ => .run p true
  | .host stop top => .run (.call stop top) false
  | .entry co => .run (.resume co) false

/-- What is made of the computation of the function. -/
def fill : Site → Step (List Value) → Step (Option (List Value))
  | .instruction _ start wanted rest, s =>
    ((s.bind fun vs m => placeResults start wanted vs m).handle fun result m =>
      match result with
      | .ok () => .ret () m
      | .error f => callFault start wanted f m).bind rest
  | .host _ _, s => s.bind fun vs m => .ret (some vs) m
  | .entry _, s => s.handle fun result m =>
    match result with
    | .ok vs => .ret (some vs) m
    | .error (.interrupt (.yield vs)) =>
      .raise (.yield vs) (m.modifyFiber fun f => { f with pending := some .entry })
    | .error f => .raise f m

/-- Where the values of the next resumption go. -/
def pending : Site → Option Pending
  | .instruction _ start wanted _ => some (.call start wanted)
  | .host _ _ => none
  | .entry _ => some .entry

/-- A native function is being called at the site, and has the rest of its computation to do. -/
def calling (σ : Site) (s : Step (List Value)) (below : List Level) : Config :=
  .work σ.stage (σ.fill s) below

/-- The questions of the function are asked as they are. -/
theorem fill_ask (σ : Site) (q : Query) (m : Machine)
    (k : Except Fault Reply → Machine → Step (List Value)) :
    σ.fill (.ask q m k) = .ask q m fun r m => σ.fill (k r m) := by
  cases σ <;> rfl

variable {host : Host} {r : Ref .native} {start count n : Nat} {m m₁ : Machine}

/-- A native function that is called from the host. -/
theorem begin_native (stop top : Nat) (wanted : Option Nat)
    (h : resolve start count m = .ret (.native r, n) m₁) :
    begin host start count wanted m = (Site.host stop top).fill
      (invokeNative host r (m₁.arena.readRange (start + 1) n) m₁) := by
  unfold begin
  rw [bind_eq, h]
  simp only [Step.bind, map_eq_pure_bind, bind_eq, readRange, Exec.read]
  rfl

/-- A native function that is called by an instruction. -/
theorem callAt_native (p : Purpose) (wanted : Option Nat)
    (rest : Unit → Machine → Step (Option (List Value)))
    (h : resolve start count m = .ret (.native r, n) m₁) :
    (callAt host start count wanted m).bind rest = (Site.instruction p start wanted rest).fill
      (invokeNative host r (m₁.arena.readRange (start + 1) n) m₁) := by
  rw [callAt_eq, callOutcome, bind_eq, begin_native 0 0 wanted h]
  exact congrArg (fun s => (Step.handle s _).bind rest) (Step.bind_assoc _ _ _)

/-- A native function that is the entry of a coroutine. -/
theorem start_native (co : Ref .coroutine) (args : List Value) (below : List Level)
    (h : m.fiber.pending = none) : Config.start host co (.native r) args m below =
      (Site.entry co).calling (invokeNative host r args (m.modifyFiber fun f => { f with pending := none }))
        below := by
  unfold Config.start
  rw [h]
  rfl

/-- Whatever the function asks for on the way, the call at the site comes to the fault of the function. -/
theorem runs_calling {serve : Server} (hs : Config.Served host serve) (σ : Site) {s : Step (List Value)}
    {f : Fault} {m : Machine} (below : List Level) (h : s.run serve = some (.error f, m)) :
    Config.Runs host (σ.calling s below) (σ.calling (.raise f m) below) := by
  induction s with
  | ret vs m₁ => cases h
  | raise e m₁ =>
    cases h
    exact .refl
  | ask q m₁ k ih =>
    rw [Step.run] at h
    cases hq : serve q m₁ with
    | none =>
      rw [hq] at h
      cases h
    | some p =>
      obtain ⟨r, m₂⟩ := p
      rw [hq] at h
      have hnext : Config.next host (σ.calling (.ask q m₁ k) below) =
          some (Config.ask host q m₁ (⟨σ.stage, q, m₁, fun r m => σ.fill (k r m)⟩ :: below)) := by
        rw [calling, fill_ask]
        rfl
      have hanswer := hs q m₁ r m₂ (⟨σ.stage, q, m₁, fun r m => σ.fill (k r m)⟩ :: below) hq
      exact Config.Runs.of_next hnext (hanswer.trans (Config.Runs.of_next rfl (ih r m₂ h)))

end Site

/-- A stage on the way to the answer of a question. -/
def Stage.Serves : {α : Type} → Stage α → Query → Prop
  | _, .place _ _, .call _ _ => True
  | _, .run (.call _ _) _, .call _ _ => True
  | _, .run (.resume co) _, .resume co' _ => co = co'
  | _, .close co _, .close co' => co = co'
  | _, _, _ => False

theorem Stage.Serves.run {p : Purpose} {guarded : Bool} {q : Query}
    (h : (Stage.run p guarded).Serves q) (guarded' : Bool) : (Stage.run p guarded').Serves q := by
  cases p <;> cases q <;> exact h

/-- Only who asks for a resumption is told that a coroutine is alive. -/
def Query.Allows (q : Query) (r : Except Fault Reply) : Prop :=
  ∀ reply, r = .ok reply → reply.isAlive = true → ∃ co args, q = .resume co args

theorem Query.allows_error (q : Query) (f : Fault) : q.Allows (.error f) := fun _ h => nomatch h

theorem Query.allows_dead (q : Query) (values : List Value) : q.Allows (.ok { values }) := by
  rintro _ ⟨⟩ h
  cases h

namespace Config

/-- The innermost question that waits; the host's own one is not among the levels. -/
def asked (root : Query) : List Level → Query
  | [] => root
  | l :: _ => l.query

def ServedAll (root : Query) : List Level → Prop
  | [] => True
  | l :: below => l.stage.Serves (asked root below) ∧ ServedAll root below

/-- Each stage is for the question that waits for it. -/
def Serving (root : Query) : Config → Prop
  | .work g _ below => g.Serves (asked root below) ∧ ServedAll root below
  | .loop p _ below => (Stage.run p true).Serves (asked root below) ∧ ServedAll root below
  | .answer r _ below => (asked root below).Allows r ∧ ServedAll root below

variable {host : Host} {root : Query} {below : List Level} {m : Machine} {c c' : Config} {α : Type}

theorem serving_leave {p : Purpose} {r : Except Fault (List Value)}
    (hp : (Stage.run p false).Serves (asked root below)) (hb : ServedAll root below) :
    Serving root (leave p r m below) := by
  cases p with
  | call stop top =>
    refine ⟨?_, hb⟩
    cases hr : withoutYield r with
    | error f => exact Query.allows_error _ f
    | ok values => exact Query.allows_dead _ values
  | resume co =>
    refine ⟨fun _ _ _ => ?_, hb⟩
    generalize asked root below = q at hp
    cases q with
    | resume co' args => exact ⟨co', args, rfl⟩
    | call f args => exact hp.elim
    | close co' => exact hp.elim

theorem serving_finish {g : Stage α} (r : Except Fault α) (m : Machine)
    (hg : g.Serves (asked root below)) (hb : ServedAll root below) :
    Serving root (finish host g r m below) := by
  cases g with
  | place start count =>
    generalize hq : asked root below = q at hg
    cases q with
    | call f args =>
      cases r with
      | ok _ => exact ⟨hq ▸ trivial, hb⟩
      | error f => exact ⟨Query.allows_error _ f, hb⟩
    | resume co args => exact hg.elim
    | close co => exact hg.elim
  | run p guarded =>
    have hp (guarded' : Bool) : (Stage.run p guarded').Serves (asked root below) := hg.run guarded'
    obtain f | _ | vs := r
    · cases guarded with
      | true => exact ⟨hp false, hb⟩
      | false => exact serving_leave (r := .error f) (hp false) hb
    · exact ⟨hp true, hb⟩
    · exact serving_leave (r := .ok vs) (hp false) hb
  | close co token =>
    obtain f | failure := r
    · exact ⟨Query.allows_error _ f, hb⟩
    · refine ⟨?_, hb⟩
      cases failure with
      | none => exact Query.allows_dead _ []
      | some f => exact Query.allows_error _ f

theorem serving_start {co : Ref .coroutine} {args : List Value} (entry : Callee) (values : List Value)
    (m : Machine) (hq : asked root below = .resume co args) (hb : ServedAll root below) :
    Serving root (start host co entry values m below) := by
  have hp (guarded : Bool) : (Stage.run (.resume co) guarded).Serves (asked root below) := by
    rw [hq]
    rfl
  unfold start
  dsimp only
  split
  · exact ⟨hp true, hb⟩
  · exact ⟨hp false, hb⟩
  · cases entry <;> exact ⟨hp false, hb⟩

theorem serving_ask {q : Query} (m : Machine) (hq : asked root below = q) (hb : ServedAll root below) :
    Serving root (ask host q m below) := by
  have h := response_ask host q m below
  generalize ask host q m below = c at h ⊢
  cases h with
  | refuse _ => exact ⟨Query.allows_error _ _, hb⟩
  | place f args _ => exact ⟨hq ▸ trivial, hb⟩
  | cancel args _ _ _ => exact ⟨Query.allows_error _ _, hb⟩
  | start args _ _ _ _ => exact serving_start _ args _ hq hb
  | done co => exact ⟨Query.allows_dead _ [], hb⟩
  | discard _ _ _ => exact ⟨Query.allows_dead _ [], hb⟩
  | @close co c _ _ _ _ =>
    have hclose : (Stage.close co c.token).Serves (asked root below) := by
      rw [hq]
      rfl
    exact ⟨hclose, hb⟩

theorem serving_next (h : Serving root c) (hn : Next host c c') : Serving root c' := by
  cases c with
  | work g s below =>
    cases s with
    | ret a m =>
      cases hn
      exact serving_finish _ m h.1 h.2
    | raise f m =>
      cases hn
      exact serving_finish _ m h.1 h.2
    | ask q m k =>
      cases hn
      exact serving_ask m rfl h
  | loop p m below =>
    cases hn
    exact h
  | answer r m below =>
    cases below with
    | nil => cases hn
    | cons l below =>
      cases hn
      exact h.2

theorem Serving.runs (h : Serving root c) (hr : Runs host c c') : Serving root c' := by
  induction hr with
  | refl => exact h
  | tail _ hn ih => exact serving_next ih hn

theorem Reachable.serving (hc : Reachable host c) : ∃ root, Serving root c := by
  obtain ⟨limits, hc⟩ := hc
  induction hc with
  | refl => exact ⟨.close ⟨0⟩, Query.allows_dead _ [], trivial⟩
  | tail _ hl ih =>
    obtain ⟨root, h⟩ := ih
    cases hl with
    | next hn => exact ⟨root, serving_next h hn⟩
    | ask q => exact ⟨q, serving_ask _ rfl trivial⟩
    | act a => exact ⟨root, h⟩
    | watch _ _ _ _ _ _ => exact ⟨root, h⟩

end Config

namespace Machine

/-- The error that a yield is where the running fiber cannot yield. -/
def yieldCause (m : Machine) : Cause :=
  if m.fiber.isCoroutine then .yieldAcrossCall else .yieldOutside

/-- The running fiber is that of another machine, and has its frames below its own. -/
structure Stands (b m : Machine) : Prop where
  isCoroutine : m.fiber.isCoroutine = b.fiber.isCoroutine
  nested : m.fiber.nested = b.fiber.nested
  frames : b.fiber.calls.frames <:+ m.fiber.calls.frames
  waiting : m.waiting = b.waiting
  active : m.active = b.active

variable {o b m : Machine} {p : Purpose}

theorem Above.stands (h : Above b m) : Stands b m := by
  refine ⟨?_, ?_, h.frames, h.waiting, h.active⟩
  · rw [h.fiber]
  · rw [h.fiber]

theorem Stands.of_await {q : Pending} (h : Stands b (m.await q)) : Stands b m :=
  ⟨h.isCoroutine, h.nested, h.frames, h.waiting, h.active⟩

theorem stands_of_yielded {guarded : Bool} (h : Stage.Yielded p guarded b m) : Stands b m := by
  have hawait {m₁ : Machine} (q : Pending) (h₁ : Above b m₁) : Stands b (m₁.await q) :=
    ⟨h₁.stands.isCoroutine, h₁.stands.nested, h₁.frames, h₁.waiting, h₁.active⟩
  obtain ⟨slot, wanted, hd, -⟩ | ⟨-, h⟩ := h
  · exact hawait _ hd.1
  · cases p with
    | call stop top => exact h.1.stands
    | resume co =>
      obtain ⟨m₁, h₁, rfl⟩ := h
      exact hawait _ h₁.1

theorem Stands.isYieldable_iff (h : Stands b m) (ho : p.Opens o b) :
    m.fiber.isYieldable = true ↔ ∃ co, p = .resume co := by
  rw [Fiber.isYieldable, h.isCoroutine, h.nested]
  cases p with
  | call stop top =>
    obtain ⟨-, -, rfl⟩ := ho
    simp [enterCall]
  | resume co =>
    have hr : Resumed o co b := ho
    simp [hr.isCoroutine, hr.nested]

end Machine

namespace Exec

theorem callFault_yield (start : Nat) (wanted : Option Nat) (vs : List Value) (m : Machine) :
    callFault start wanted (.yield vs) m =
      if m.fiber.isYieldable then .raise (.yield vs) (m.await (.call start wanted))
      else .raise (.runtime m.yieldCause) m := by
  show ((if !m.fiber.isCoroutine then _ else if !m.fiber.isYieldable then _ else _ : Exec Unit) m) = _
  unfold yieldCause
  cases hc : m.fiber.isCoroutine <;> cases hy : m.fiber.isYieldable
  · rfl
  · simp [Fiber.isYieldable, hc] at hy
  · rfl
  · rfl

end Exec

namespace Site

variable {host : Host} {origin : Machine} {σ : Site} {vs : List Value} {m : Machine} {below : List Level}

def park (σ : Site) (m : Machine) : Machine := m.modifyFiber fun f => { f with pending := σ.pending }

theorem calling_yield_of_isYieldable {co : Ref .coroutine} (hp : σ.purpose = .resume co)
    (hy : m.fiber.isYieldable = true) :
    ∃ guarded, σ.calling (.raise (.yield vs) m) below =
      .work (.run (.resume co) guarded) (.raise (.yield vs) (σ.park m)) below := by
  cases σ with
  | instruction p start wanted rest =>
    obtain rfl : p = .resume co := hp
    have hfault := callFault_yield start wanted vs m
    rw [if_pos hy] at hfault
    exact ⟨true, congrArg (fun s => Config.work (.run (.resume co) true) (Step.bind s rest) below) hfault⟩
  | host stop top => cases hp
  | entry co' =>
    obtain rfl : co' = co := by simpa [purpose] using hp
    exact ⟨false, rfl⟩

theorem stands (h : Config.Sound origin (σ.calling (.raise (.yield vs) m) below)) :
    ∃ o b, Config.Rooted origin below o ∧ σ.purpose.Opens o b ∧ Stands b m := by
  cases σ with
  | instruction p start wanted rest =>
    obtain ⟨o, b, hr, ho, hf⟩ := h
    refine ⟨o, b, hr, ho, ?_⟩
    change ((callFault start wanted (.yield vs) m).bind rest).Follows _ _ _ at hf
    rw [callFault_yield] at hf
    split at hf
    · have hy : Stage.Yielded p true b (m.await (.call start wanted)) := hf.2
      exact (stands_of_yielded hy).of_await
    · have ha : Above b m := hf.2
      exact ha.stands
  | host stop top =>
    obtain ⟨o, b, hr, ho, hf⟩ := h
    have hy : Stage.Yielded (.call stop top) false b m := hf.2
    exact ⟨o, b, hr, ho, stands_of_yielded hy⟩
  | entry co =>
    obtain ⟨o, b, hr, ho, hf⟩ := h
    have hy : Stage.Yielded (.resume co) false b (m.await .entry) := hf.2
    exact ⟨o, b, hr, ho, (stands_of_yielded hy).of_await⟩

/-- Where the fiber cannot yield, all goes on as if the function had failed. -/
theorem next_calling_yield (hp : ∀ co, σ.purpose ≠ .resume co) (hy : m.fiber.isYieldable = false) :
    ∃ cause, (cause = .yieldOutside ∨ cause = .yieldAcrossCall) ∧
      (σ.calling (.raise (.yield vs) m) below).machine = m ∧
      Config.next host (σ.calling (.raise (.yield vs) m) below) =
        Config.next host (σ.calling (.raise (.runtime cause) m) below) := by
  cases σ with
  | instruction p start wanted rest =>
    have hfault := callFault_yield start wanted vs m
    rw [hy, if_neg Bool.false_ne_true] at hfault
    have heq : (Site.instruction p start wanted rest).calling (.raise (.yield vs) m) below =
        (Site.instruction p start wanted rest).calling (.raise (.runtime m.yieldCause) m) below :=
      congrArg (fun s => Config.work (.run p true) (Step.bind s rest) below) hfault
    refine ⟨m.yieldCause, ?_, ?_, congrArg (Config.next host) heq⟩
    · unfold yieldCause
      split
      · exact .inr rfl
      · exact .inl rfl
    · rw [heq]
      rfl
  | host stop top => exact ⟨.yieldAcrossCall, .inr rfl, rfl, rfl⟩
  | entry co => exact absurd rfl (hp co)

end Site

namespace Config

open Scene.Proceeds (fiber_leaving waiting_leaving)

variable {host : Host} {origin o m : Machine} {σ : Site} {vs : List Value} {below : List Level}

theorem Rooted.unique {o' : Machine} (h : Rooted origin below o) (h' : Rooted origin below o') :
    o = o' := by
  cases below with
  | nil => exact Eq.trans h (Eq.symm h')
  | cons l below => exact h.1.trans h'.1.symm

/-- A yield that gets out of a coroutine parks it. -/
theorem runs_of_yield (co : Ref .coroutine) (guarded : Bool) (vs : List Value) (m : Machine)
    (below : List Level) :
    Runs host (.work (.run (.resume co) guarded) (.raise (.yield vs) m) below)
      (.answer (.ok ⟨vs, true⟩) ((m.leaving.park co (some m.fiber)).setStatus co .suspended) below) := by
  cases guarded with
  | false => exact .single rfl
  | true => exact .of_next rfl (.single rfl)

structure Stopped (co : Ref .coroutine) (fiber : Fiber) (m m' : Machine) : Prop where
  waiting : m.waiting = m'.fiber :: m'.waiting
  active : m.active = co :: m'.active
  status : m'.heap.status co = .suspended
  held : m'.heap.held co = some fiber

theorem stopped_of_yield {co : Ref .coroutine} (hw : m.waiting = o.fiber :: o.waiting)
    (ha : m.active = co :: o.active) (hc : (m.heap.coroutine? co).isSome) :
    Stopped co m.fiber m ((m.leaving.park co (some m.fiber)).setStatus co .suspended) := by
  let m' := (m.leaving.park co (some m.fiber)).setStatus co .suspended
  obtain ⟨k, hk⟩ := Option.isSome_iff_exists.1 hc
  have hleaving : ∃ k', m.leaving.heap.coroutine? co = some k' := by
    rw [coroutine?_leaving, hk]
    split <;> exact ⟨_, rfl⟩
  obtain ⟨k', hk'⟩ := hleaving
  have hget : m'.heap.coroutine? co = some { k' with parked := some m.fiber, status := .suspended } := by
    rw [coroutine?_setStatus, if_pos rfl, coroutine?_park, if_pos rfl, hk']
    rfl
  refine ⟨?_, ?_, ?_, ?_⟩
  · show m.waiting = m.leaving.fiber :: m.leaving.waiting
    rw [fiber_leaving hw, waiting_leaving hw]
    exact hw
  · show m.active = co :: m.leaving.active
    rw [active_leaving, ha]
    rfl
  · show m'.heap.status co = _
    rw [Heap.status, ← Heap.coroutine?, hget]
  · show m'.heap.held co = _
    rw [Heap.held, hget]
    rfl

/-- The frames above a depth are gone, and the same fibers wait. -/
structure Reduced (stop : Nat) (m m' : Machine) : Prop where
  frames : m'.fiber.calls.frames = m.fiber.calls.frames.drop (m.callDepth - stop)
  waiting : m'.waiting = m.waiting
  active : m'.active = m.active

theorem reduced_of_balanced {stop top : Nat} {b m' : Machine} (ho : (Purpose.call stop top).Opens o b)
    (hs : Stands b m) (hb : Balanced o m') : Reduced stop m m' := by
  obtain ⟨rfl, -, rfl⟩ := ho
  refine ⟨?_, hb.waiting.trans hs.waiting.symm, hb.active.trans hs.active.symm⟩
  rw [hb.fiber, callDepth_eq, callDepth_eq]
  exact List.suffix_iff_eq_drop.1 hs.frames

section

variable (hc : Reachable host (σ.calling (.raise (.yield vs) m) below))

include hc

theorem isYieldable_iff_of_site : m.fiber.isYieldable = true ↔ ∃ co, σ.purpose = .resume co := by
  obtain ⟨origin, hg⟩ := hc.good
  obtain ⟨o, b, -, ho, hs⟩ := Site.stands hg.sound
  exact hs.isYieldable_iff ho

theorem exists_serving : ∃ root, Serving root (σ.calling (.raise (.yield vs) m) below) ∧
    (Stage.run σ.purpose false).Serves (asked root below) := by
  obtain ⟨root, hroot⟩ := hc.serving
  refine ⟨root, hroot, ?_⟩
  cases σ <;> exact Stage.Serves.run hroot.1 false

/-- A coroutine that yields is parked, and its resumption answered. -/
theorem exists_stopped {co : Ref .coroutine} (hp : σ.purpose = .resume co) : ∃ m',
    Runs host (σ.calling (.raise (.yield vs) m) below) (.answer (.ok ⟨vs, true⟩) m' below) ∧
      Stopped co (σ.park m).fiber m m' := by
  have hy := (isYieldable_iff_of_site hc).2 ⟨co, hp⟩
  obtain ⟨guarded, hcalling⟩ : ∃ guarded, σ.calling (.raise (.yield vs) m) below =
      .work (.run (.resume co) guarded) (.raise (.yield vs) (σ.park m)) below :=
    Site.calling_yield_of_isYieldable hp hy
  obtain ⟨origin, hg⟩ := hc.good
  obtain ⟨o, b, -, ho, hs⟩ := Site.stands hg.sound
  rw [hp] at ho
  have hresumed : Resumed o co b := ho
  have hwaiting : (σ.park m).waiting = o.fiber :: o.waiting := hs.waiting.trans hresumed.waiting
  have hactive : (σ.park m).active = co :: o.active := hs.active.trans hresumed.active
  have hscheduled := hg.scheduled
  rw [hcalling] at hscheduled
  have hpresent := hscheduled.present co (.inl (hactive ▸ List.mem_cons_self))
  have h := stopped_of_yield hwaiting hactive hpresent
  rw [hcalling]
  exact ⟨_, runs_of_yield co guarded vs _ below, ⟨h.waiting, h.active, h.status, h.held⟩⟩

theorem query_of_resume {co : Ref .coroutine} (hp : σ.purpose = .resume co) {l : Level} (hl : l ∈ below.head?) :
    ∃ args, l.query = .resume co args := by
  obtain ⟨root, -, hserves⟩ := exists_serving hc
  cases below with
  | nil => cases hl
  | cons l' below =>
    obtain rfl : l' = l := Option.some.inj hl
    rw [hp] at hserves
    change (Stage.run (.resume co) false).Serves l'.query at hserves
    cases hq : l'.query with
    | resume co' args =>
      rw [hq] at hserves
      obtain rfl : co = co' := hserves
      exact ⟨args, rfl⟩
    | call f args =>
      rw [hq] at hserves
      exact hserves.elim
    | close co' =>
      rw [hq] at hserves
      exact hserves.elim

/-- The answer to a call is no yield and tells of no coroutine that is alive, and the frames of the call are gone. -/
theorem reduced_of_call {stop top : Nat} (hp : σ.purpose = .call stop top) {r : Except Fault Reply} {m' : Machine}
    (hruns : Runs host (σ.calling (.raise (.yield vs) m) below) (.answer r m' below)) :
    NoYield r ∧ (∀ reply, r = .ok reply → reply.isAlive = false) ∧ Reduced stop m m' := by
  obtain ⟨root, hroot, hserves⟩ := exists_serving hc
  obtain ⟨origin, hg⟩ := hc.good
  obtain ⟨o, b, hr, ho, hs⟩ := Site.stands hg.sound
  rw [hp] at ho hserves
  obtain ⟨o', hr', hb, hn⟩ := (hg.runs hruns).sound
  obtain rfl := hr.unique hr'
  refine ⟨hn, fun reply he => Bool.eq_false_iff.2 fun halive => ?_, reduced_of_balanced ho hs hb⟩
  obtain ⟨co, args, hq⟩ := (hroot.runs hruns).1 reply he halive
  rw [hq] at hserves
  exact hserves

end

/-- A yield parks the running coroutine and answers its resumption exactly if its frames run for it and not for a call
from the host. Otherwise it is a fault, and nothing is parked. -/
theorem yield_parks_iff (hc : Reachable host (σ.calling (.raise (.yield vs) m) below)) :
    (m.fiber.isYieldable = true ↔ ∃ co, σ.purpose = .resume co) ∧
    (m.fiber.isYieldable = true ↔ ∃ m',
      Runs host (σ.calling (.raise (.yield vs) m) below) (.answer (.ok ⟨vs, true⟩) m' below)) ∧
    (∀ co, σ.purpose = .resume co →
      (∃ m', Runs host (σ.calling (.raise (.yield vs) m) below) (.answer (.ok ⟨vs, true⟩) m' below) ∧
        Stopped co (σ.park m).fiber m m') ∧
      ∀ l ∈ below.head?, ∃ args, l.query = .resume co args) ∧
    ∀ stop top, σ.purpose = .call stop top →
      (∃ cause, (cause = .yieldOutside ∨ cause = .yieldAcrossCall) ∧
        (σ.calling (.raise (.yield vs) m) below).machine = m ∧
        next host (σ.calling (.raise (.yield vs) m) below) =
          next host (σ.calling (.raise (.runtime cause) m) below)) ∧
      ∀ r m', Runs host (σ.calling (.raise (.yield vs) m) below) (.answer r m' below) →
        NoYield r ∧ (∀ reply, r = .ok reply → reply.isAlive = false) ∧ Reduced stop m m' := by
  have hyieldable := isYieldable_iff_of_site hc
  refine ⟨hyieldable, ⟨fun hy => ?_, fun ⟨m', hruns⟩ => ?_⟩,
    fun co hp => ⟨exists_stopped hc hp, fun l => query_of_resume hc hp⟩,
    fun stop top hp => ⟨?_, fun r m' => reduced_of_call hc hp⟩⟩
  · obtain ⟨co, hp⟩ := hyieldable.1 hy
    obtain ⟨m', hruns, -⟩ := exists_stopped hc hp
    exact ⟨m', hruns⟩
  · cases hp : σ.purpose with
    | call stop top => exact absurd ((reduced_of_call hc hp hruns).2.1 _ rfl) (Bool.noConfusion ·)
    | resume co => exact hyieldable.2 ⟨co, hp⟩
  · have hnot : ∀ co, σ.purpose ≠ .resume co := fun co h => by
      rw [hp] at h
      cases h
    refine Site.next_calling_yield hnot (Bool.eq_false_iff.2 fun hy => ?_)
    obtain ⟨co, h⟩ := hyieldable.1 hy
    exact hnot co h

/-- A function that yields a number is resumed as a coroutine, and called from outside. -/
theorem yield_parks_iff_number :
    let host : Host := fun _ _ => .fail (.yield [.int 7])
    let m := ((Action.newCoroutine (.native ⟨0⟩)).apply
      ((Action.newNative ⟨"yield", .host "yield", 0⟩).apply (bare ⟨4, 64, 8, 8⟩)).2).2
    (∃ m', Runs host (ask host (.resume ⟨0⟩ []) m []) (.answer (.ok ⟨[.int 7], true⟩) m' []) ∧
      m'.heap.status ⟨0⟩ = .suspended) ∧
    ∀ r m', Runs host (steps host 1 (ask host (.call (.native ⟨0⟩) []) m [])) (.answer r m' []) →
      ∀ reply, r = .ok reply → reply.isAlive = false := by
  intro host m
  have hm : Reachable host (.answer (.ok {}) m []) :=
    reachable_acted host _ [.newNative ⟨"yield", .host "yield", 0⟩, .newCoroutine (.native ⟨0⟩)]
  constructor
  · let fiber : Fiber := { arena := ⟨1⟩, token := ⟨1⟩, isCoroutine := true }
    have hcalling : ask host (.resume ⟨0⟩ []) m [] =
        (Site.entry ⟨0⟩).calling (.raise (.yield [.int 7]) (m.enterCoroutine ⟨0⟩ fiber)) [] := rfl
    have hc : Reachable host (ask host (.resume ⟨0⟩ []) m []) := hm.trans (.single (.ask _))
    rw [hcalling] at hc ⊢
    obtain ⟨⟨m', hruns, hstopped⟩, -⟩ := (yield_parks_iff hc).2.2.1 ⟨0⟩ rfl
    exact ⟨m', hruns, hstopped.status⟩
  · have hcalling : ∃ m₁, steps host 1 (ask host (.call (.native ⟨0⟩) []) m []) =
        (Site.host 0 0).calling (.raise (.yield [.int 7]) m₁) [] := ⟨_, rfl⟩
    obtain ⟨m₁, hcalling⟩ := hcalling
    have hc : Reachable host (steps host 1 (ask host (.call (.native ⟨0⟩) []) m [])) :=
      hm.trans ((leadsTo_of_runs (runs_steps 1 _)).head (.ask _))
    rw [hcalling] at hc ⊢
    intro r m' hruns
    exact (((yield_parks_iff hc).2.2.2 0 0 rfl).2 r m' hruns).2.1

end Config
end RegisterMachine
