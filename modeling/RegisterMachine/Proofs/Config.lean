import RegisterMachine.Proofs.Changes

/-! The machine one step at a time. A configuration holds the questions that wait for their answers, the
innermost first, and what is done for the innermost one. -/
namespace RegisterMachine

/-- What frames run for: a call from the host, with the depth at which it ends and the top that it brings
back, or a coroutine. -/
inductive Purpose
  | call (stop top : Nat)
  | resume (co : Ref .coroutine)
  deriving DecidableEq, Repr, Inhabited

/-- The depth at which the values leave. -/
def Purpose.stop : Purpose → Nat
  | .call stop _ => stop
  | .resume _ => 0

/-- The stages on the way to an answer, by what their computations give. -/
inductive Stage : Type → Type
  /-- A callee and its arguments are put in place. -/
  | place (start count : Nat) : Stage Unit
  /-- Frames run. A fault in the midst of it is guarded: it unwinds them before it gets out. -/
  | run (p : Purpose) (guarded : Bool) : Stage (Option (List Value))
  /-- The frames of a coroutine are closed. -/
  | close (co : Ref .coroutine) (token : Ref .token) : Stage (Option Fault)

/-- A question that waits for its answer, with the machine that it was asked at. -/
structure Level : Type 1 where
  {α : Type}
  stage : Stage α
  query : Query
  machine : Machine
  next : Except Fault Reply → Machine → Step α

inductive Config : Type 1
  /-- A computation goes on. -/
  | work {α : Type} (g : Stage α) (s : Step α) (below : List Level)
  /-- The next instruction is due. -/
  | loop (p : Purpose) (m : Machine) (below : List Level)
  /-- A question is answered. -/
  | answer (r : Except Fault Reply) (m : Machine) (below : List Level)

def Step.machine {α : Type} : Step α → Machine
  | .ret _ m => m
  | .raise _ m => m
  | .ask _ m _ => m

namespace Machine

/-- A coroutine whose frames are closed, with the failure of a handler: it and all it spawned is
cancelled. -/
def endClosing (m : Machine) (co : Ref .coroutine) (token : Ref .token) (failure : Option Fault) :
    Except Fault Reply × Machine :=
  let m := m.modifyHeap fun h => { h with tokens := h.tokens.cancel token }
  let m := m.setStatus co .dead
  match failure with
  | some f => (.error f, m)
  | none => (.ok {}, m)

end Machine

def failure? {α : Type} : Except Fault α → Option Fault
  | .ok _ => none
  | .error f => some f

namespace Outcome

variable {α β : Type}

theorem eq_error_of_failure? {x : Outcome α} {f : Fault}
    (h : x.map (fun p => failure? p.1) = some (some f)) : ∃ m, x = some (.error f, m) := by
  obtain ⟨⟨r, m⟩, rfl, hr⟩ := Option.map_eq_some_iff.1 h
  cases r with
  | ok a => cases hr
  | error e =>
    cases hr
    exact ⟨m, rfl⟩

theorem andThen_eq_some {x : Outcome α} {k : α → Machine → Outcome β} {p : Except Fault β × Machine}
    (h : x.andThen k = some p) :
    (∃ f m, x = some (.error f, m) ∧ p = (.error f, m)) ∨
      ∃ a m, x = some (.ok a, m) ∧ k a m = some p := by
  obtain _ | ⟨f | a, m⟩ := x
  · cases h
  · cases h
    exact .inl ⟨f, m, rfl, rfl⟩
  · exact .inr ⟨a, m, rfl, h⟩

theorem afterwards_eq_some {x : Outcome α} {k : Except Fault α → Machine → Except Fault β × Machine}
    {p : Except Fault β × Machine} (h : x.afterwards k = some p) :
    ∃ r m, x = some (r, m) ∧ p = k r m := by
  obtain _ | ⟨r, m⟩ := x
  · cases h
  · cases h
    exact ⟨r, m, rfl, rfl⟩

end Outcome

namespace Config

open Machine

variable (host : Host)

def machine : Config → Machine
  | .work _ s _ => s.machine
  | .loop _ m _ => m
  | .answer _ m _ => m

/-- The questions that wait. -/
def below : Config → List Level
  | .work _ _ below => below
  | .loop _ _ below => below
  | .answer _ _ below => below

/-- The answer that an outcome of a run is. -/
def leave (p : Purpose) (r : Except Fault (List Value)) (m : Machine) (below : List Level) : Config :=
  match p with
  | .call _ top => .answer ((withoutYield r).map fun values => { values }) (m.leaveCall top) below
  | .resume co => .answer (leaveCoroutine co r m).1 (leaveCoroutine co r m).2 below

/-- What follows when a stage is over. -/
def finish {α : Type} (g : Stage α) (r : Except Fault α) (m : Machine) (below : List Level) : Config :=
  match g, r with
  | .place start count, .ok () =>
    .work (.run (.call m.callDepth m.fiber.top) false)
      (Exec.begin host start count none m.enterCall) below
  | .place _ _, .error f => .answer (.error f) m below
  | .run p _, .ok none => .loop p m below
  | .run p _, .ok (some vs) => leave p (.ok vs) m below
  | .run p true, .error f => .work (.run p false) ((Exec.unwind p.stop f m).bind .raise) below
  | .run p false, .error f => leave p (.error f) m below
  | .close co token, .ok failure =>
    let (r, m) := m.switchBack.endClosing co token failure
    .answer r m below
  | .close _ _, .error f => .answer (.error f) m.switchBack below

/-- A coroutine that was just entered goes on from where it stopped, or begins. -/
def start (co : Ref .coroutine) (entry : Callee) (args : List Value) (m : Machine)
    (below : List Level) : Config :=
  let pending := m.fiber.pending
  let m := m.modifyFiber fun f => { f with pending := none }
  match pending with
  | some (.call start wanted) =>
    .work (.run (.resume co) true)
      ((Exec.placeResults start wanted args m).bind fun () m => .ret none m) below
  | some .entry => .work (.run (.resume co) false) (.ret (some args) m) below
  | none =>
    match entry with
    | .native r =>
      .work (.run (.resume co) false)
        ((Exec.invokeNative host r args m).handle fun result m =>
          match result with
          | .ok vs => .ret (some vs) m
          | .error (.interrupt (.yield vs)) =>
            .raise (.yield vs) (m.modifyFiber fun f => { f with pending := some .entry })
          | .error f => .raise f m) below
    | .closure r =>
      let start : Exec Unit := do
        Exec.setSlot 0 (.closure r)
        Exec.writeRange 1 args
        Exec.pushFrame r 0 args.length none
      .work (.run (.resume co) false) ((start m).bind fun () m => .ret none m) below

def ask (q : Query) (m : Machine) (below : List Level) : Config :=
  match q with
  | .call f args =>
    if m.limits.maxNativeDepth ≤ m.nativeDepth then .answer (.error .stackOverflow) m below
    else
      let start := m.fiber.freeSlot
      let place : Exec Unit := do
        Exec.setSlot start f
        Exec.writeRange (start + 1) args
      .work (.place start args.length) (place m) below
  | .resume co args =>
    match m.heap.coroutine? co with
    | none => .answer (.error (.runtime .resumeDead)) m below
    | some c =>
      match c.status with
      | .dead => .answer (.error (.runtime .resumeDead)) m below
      | .running | .normal => .answer (.error (.runtime .resumeBusy)) m below
      | .suspended =>
        if m.isCancelled c.token then .answer (.error .cancelled) (m.setStatus co .dead) below
        else if m.limits.maxNativeDepth ≤ m.nativeDepth then .answer (.error .stackOverflow) m below
        else
          match c.parked with
          | none => .answer (.error (.runtime .resumeBusy)) m below
          | some fiber => start host co c.entry args (m.enterCoroutine co fiber) below
  | .close co =>
    match m.heap.coroutine? co with
    | none => .answer (.ok {}) m below
    | some c =>
      match c.status with
      | .dead => .answer (.ok {}) m below
      | .running | .normal => .answer (.error (.runtime .closeBusy)) m below
      | .suspended =>
        let m := m.park co none
        match c.parked with
        | some fiber =>
          if fiber.calls.depth = 0 then
            .answer (m.endClosing co c.token none).1 (m.endClosing co c.token none).2 below
          else
            .work (.close co c.token)
              (Exec.closeFrames none fiber.calls.depth (m.switchTo fiber)) below
        | none => .answer (m.endClosing co c.token none).1 (m.endClosing co c.token none).2 below

/-- The next configuration; there is none once the first question is answered. -/
def next : Config → Option Config
  | .work g (.ret a m) below => some (finish host g (.ok a) m below)
  | .work g (.raise f m) below => some (finish host g (.error f) m below)
  | .work g (.ask q m k) below => some (ask host q m (⟨g, q, m, k⟩ :: below))
  | .loop p m below => some (.work (.run p true) (Exec.step host p.stop m) below)
  | .answer r m (l :: below) => some (.work l.stage (l.next r m) below)
  | .answer _ _ [] => none

def Next (c c' : Config) : Prop := next host c = some c'

/-- Any number of steps. -/
abbrev Runs : Config → Config → Prop := Relation.ReflTransGen (Next host)

/-- As many steps as are given, or until the first question is answered. -/
def steps : Nat → Config → Config
  | 0, c => c
  | n + 1, c =>
    match next host c with
    | some c' => steps n c'
    | none => c

variable {host}

theorem Runs.of_next {c c' c'' : Config} (h : next host c = some c') (h' : Runs host c' c'') :
    Runs host c c'' := h'.head h

theorem steps_succ (n : Nat) (c : Config) :
    steps host (n + 1) c = (next host (steps host n c)).getD (steps host n c) := by
  induction n generalizing c with
  | zero =>
    unfold steps
    cases next host c <;> rfl
  | succ n ih =>
    cases hn : next host c with
    | some c' =>
      have h (n : Nat) : steps host (n + 1) c = steps host n c' := by
        rw [steps, hn]
      rw [h, h, ih]
    | none =>
      have h (n : Nat) : steps host (n + 1) c = c := by
        rw [steps, hn]
      rw [h, h, hn]
      rfl

theorem runs_steps (n : Nat) (c : Config) : Runs host c (steps host n c) := by
  induction n generalizing c with
  | zero => exact .refl
  | succ n ih =>
    unfold steps
    split
    · rename_i c' hn
      exact .of_next hn (ih c')
    · exact .refl

/-- What the outcome of a native function is at the entry of a coroutine. -/
def entryOutcome (result : Except Fault (List Value)) (m : Machine) : Step (Option (List Value)) :=
  match result with
  | .ok vs => .ret (some vs) m
  | .error (.interrupt (.yield vs)) =>
    .raise (.yield vs) (m.modifyFiber fun f => { f with pending := some .entry })
  | .error f => .raise f m

inductive Begins (host : Host) : Machine → {α : Type} → Stage α → Step α → Prop
  | place (start : Nat) (f : Value) (args : List Value) (m : Machine) :
      Begins host m (.place start args.length) ((do
        Exec.setSlot start f
        Exec.writeRange (start + 1) args : Exec Unit) m)
  | call (p : Purpose) (start count : Nat) (m : Machine) :
      Begins host m (.run p false) (Exec.begin host start count none m)
  | unwind (p : Purpose) (f : Fault) (m : Machine) :
      Begins host m (.run p false) ((Exec.unwind p.stop f m).bind .raise)
  | resumed (p : Purpose) (start : Nat) (wanted : Option Nat) (args : List Value) (m : Machine) :
      Begins host m (.run p true) ((Exec.placeResults start wanted args m).bind fun () m => .ret none m)
  | yielded (p : Purpose) (args : List Value) (m : Machine) :
      Begins host m (.run p false) (.ret (some args) m)
  | native (p : Purpose) (r : Ref .native) (args : List Value) (m : Machine) :
      Begins host m (.run p false) ((Exec.invokeNative host r args m).handle entryOutcome)
  | closure (p : Purpose) (r : Ref .closure) (args : List Value) (m : Machine) :
      Begins host m (.run p false) (((do
        Exec.setSlot 0 (.closure r)
        Exec.writeRange 1 args
        Exec.pushFrame r 0 args.length none : Exec Unit) m).bind fun () m => .ret none m)
  | close (co : Ref .coroutine) (token : Ref .token) (m : Machine) :
      Begins host m (.close co token) (Exec.closeFrames none m.callDepth m)

/-- What goes on has just begun at a machine, or nothing goes on at it. -/
def StartsAt (host : Host) (m : Machine) : Config → Prop
  | .work g s _ => Begins host m g s
  | .loop _ m' _ => m' = m
  | .answer _ m' _ => m' = m

section

variable {α : Type} {below : List Level}

theorem below_leave (p : Purpose) (r : Except Fault (List Value)) (m : Machine) :
    (leave p r m below).below = below := by
  cases p <;> rfl

theorem below_finish (g : Stage α) (r : Except Fault α) (m : Machine) :
    (finish host g r m below).below = below := by
  cases g with
  | place start count => cases r <;> rfl
  | run p guarded =>
    obtain f | _ | vs := r
    · cases guarded with
      | false => exact below_leave p _ m
      | true => rfl
    · rfl
    · exact below_leave p _ m
  | close co token => cases r <;> rfl

theorem below_start (co : Ref .coroutine) (entry : Callee) (args : List Value) (m : Machine) :
    (start host co entry args m below).below = below := by
  unfold start
  dsimp only
  split
  · rfl
  · rfl
  · cases entry <;> rfl

/-- How a question is met: it is refused, or answered at once, or something begins that leads to its answer. -/
inductive Response (host : Host) (m : Machine) (below : List Level) : Query → Config → Prop
  | refuse {q : Query} {f : Fault} : f.isBare = true → Response host m below q (.answer (.error f) m below)
  | place (f : Value) (args : List Value) : m.nativeDepth < m.limits.maxNativeDepth →
      Response host m below (.call f args) (.work (.place m.fiber.freeSlot args.length) ((do
        Exec.setSlot m.fiber.freeSlot f
        Exec.writeRange (m.fiber.freeSlot + 1) args : Exec Unit) m) below)
  | cancel {co : Ref .coroutine} {c : Coroutine} (args : List Value) : m.heap.coroutine? co = some c →
      c.status = .suspended → m.isCancelled c.token = true →
      Response host m below (.resume co args) (.answer (.error .cancelled) (m.setStatus co .dead) below)
  | start {co : Ref .coroutine} {c : Coroutine} {fiber : Fiber} (args : List Value) :
      m.heap.coroutine? co = some c → c.status = .suspended → m.nativeDepth < m.limits.maxNativeDepth →
      c.parked = some fiber →
      Response host m below (.resume co args) (start host co c.entry args (m.enterCoroutine co fiber) below)
  | done (co : Ref .coroutine) : Response host m below (.close co) (.answer (.ok {}) m below)
  | discard {co : Ref .coroutine} {c : Coroutine} : m.heap.coroutine? co = some c → c.status = .suspended →
      (∀ fiber, c.parked = some fiber → fiber.calls.frames = []) →
      Response host m below (.close co) (.answer ((m.park co none).endClosing co c.token none).1
        ((m.park co none).endClosing co c.token none).2 below)
  | close {co : Ref .coroutine} {c : Coroutine} {fiber : Fiber} : m.heap.coroutine? co = some c →
      c.status = .suspended → c.parked = some fiber →
      Response host m below (.close co) (.work (.close co c.token)
        (Exec.closeFrames none fiber.calls.depth ((m.park co none).switchTo fiber)) below)

variable (host) in
theorem response_ask (q : Query) (m : Machine) (below : List Level) :
    Response host m below q (ask host q m below) := by
  unfold ask
  split
  · split
    · exact .refuse rfl
    · rename_i hdepth
      exact .place _ _ (Nat.lt_of_not_le hdepth)
  · split
    · exact .refuse rfl
    · rename_i c hc
      split
      · exact .refuse rfl
      · exact .refuse rfl
      · exact .refuse rfl
      · rename_i hst
        split
        · rename_i hcancelled
          exact .cancel _ hc hst hcancelled
        · split
          · exact .refuse rfl
          · rename_i hdepth
            split
            · exact .refuse rfl
            · rename_i hp
              exact .start _ hc hst (Nat.lt_of_not_le hdepth) hp
  · split
    · exact .done _
    · rename_i c hc
      split
      · exact .done _
      · exact .refuse rfl
      · exact .refuse rfl
      · rename_i hst
        dsimp only
        split
        · rename_i fiber hp
          split
          · rename_i hempty
            refine .discard hc hst fun fiber' hp' => ?_
            obtain rfl : fiber = fiber' := Option.some.inj (hp.symm.trans hp')
            rw [fiber.calls.depth_eq] at hempty
            exact List.length_eq_zero_iff.1 hempty
          · exact .close hc hst hp
        · rename_i hp
          exact .discard hc hst fun _ hp' => nomatch hp.symm.trans hp'

theorem below_ask (q : Query) (m : Machine) : (ask host q m below).below = below := by
  have h := response_ask host q m below
  generalize ask host q m below = c at h ⊢
  cases h with
  | start => exact below_start _ _ _ _
  | _ => rfl

/-- A step answers the innermost question that waits, or the same questions wait afterwards, but for one that
is asked. -/
theorem below_next {c c' : Config} (hn : Next host c c') :
    (∃ r m l low, c = .answer r m (l :: low) ∧ c' = .work l.stage (l.next r m) low) ∨
    c'.below = c.below ∨ ∃ (α : Type) (g : Stage α) (q : Query) (m : Machine)
      (k : Except Fault Reply → Machine → Step α), c = .work g (.ask q m k) c.below ∧
        c'.below = ⟨g, q, m, k⟩ :: c.below := by
  cases c with
  | work g s below =>
    cases s with
    | ret a m =>
      cases hn
      exact .inr (.inl (below_finish g _ m))
    | raise f m =>
      cases hn
      exact .inr (.inl (below_finish g _ m))
    | ask q m k =>
      cases hn
      exact .inr (.inr ⟨_, g, q, m, k, rfl, below_ask q m⟩)
  | loop p m below =>
    cases hn
    exact .inr (.inl rfl)
  | answer r m below =>
    cases below with
    | nil => cases hn
    | cons l low =>
      cases hn
      exact .inl ⟨r, m, l, low, rfl, rfl⟩

end

/-- What answers within a time is what the steps come to. -/
def Served (host : Host) (serve : Server) : Prop :=
  ∀ q m r m' below, serve q m = some (r, m') → Runs host (ask host q m below) (.answer r m' below)

section

variable {serve : Server} (hs : Served host serve)

include hs

theorem runs_of_run {α : Type} (g : Stage α) {s : Step α} {r : Except Fault α} {m' : Machine}
    (below : List Level) (h : s.run serve = some (r, m')) :
    Runs host (.work g s below) (finish host g r m' below) := by
  induction s with
  | ret a m =>
    simp only [Step.run, Option.some.injEq, Prod.mk.injEq] at h
    obtain ⟨rfl, rfl⟩ := h
    exact .single rfl
  | raise f m =>
    simp only [Step.run, Option.some.injEq, Prod.mk.injEq] at h
    obtain ⟨rfl, rfl⟩ := h
    exact .single rfl
  | ask q m k ih =>
    rw [Step.run] at h
    cases hq : serve q m with
    | none =>
      rw [hq] at h
      cases h
    | some p =>
      obtain ⟨r', m''⟩ := p
      rw [hq] at h
      have hask := hs q m r' m'' (⟨g, q, m, k⟩ :: below) hq
      exact Runs.of_next rfl (hask.trans (Runs.of_next rfl (ih r' m'' h)))

/-- A fault that is guarded gets out once the frames are unwound. -/
theorem runs_of_unwound (p : Purpose) {f : Fault} {m m' : Machine}
    {r : Except Fault (List Value)} (below : List Level)
    (h : unwound serve p.stop f m = some (r, m')) :
    Runs host (finish host (.run p true) (.error f) m below) (leave p r m' below) := by
  unfold unwound at h
  have hrun := Step.run_bind serve (Exec.unwind p.stop f m) (Step.raise (α := Option (List Value)))
  cases hu : (Exec.unwind p.stop f m).run serve with
  | none =>
    rw [hu] at h
    cases h
  | some q =>
    obtain ⟨e | e, m₁⟩ := q <;> rw [hu] at h hrun <;> cases h
    all_goals exact runs_of_run hs (.run p false) below hrun

theorem runs_of_dispatch (p : Purpose) (time : Nat) {m m' : Machine}
    {r : Except Fault (List Value)} (below : List Level)
    (h : dispatch host serve p.stop time m = some (r, m')) :
    Runs host (.loop p m below) (leave p r m' below) := by
  induction time generalizing m with
  | zero => cases h
  | succ time ih =>
    rw [dispatch] at h
    cases hstep : (Exec.step host p.stop m).run serve with
    | none =>
      rw [hstep] at h
      cases h
    | some q =>
      obtain ⟨e, m₁⟩ := q
      have hwork := runs_of_run hs (.run p true) below hstep
      rw [hstep] at h
      refine Runs.of_next rfl (hwork.trans ?_)
      obtain f | _ | vs := e
      · exact runs_of_unwound hs p below h
      · exact ih h
      · cases h
        exact .refl

theorem runs_of_callValue (time : Nat) (f : Value) (args : List Value) {m m' : Machine}
    {r : Except Fault (List Value)} (below : List Level)
    (h : callValue host serve time f args m = some (r, m')) :
    Runs host (ask host (.call f args) m below) (.answer (r.map fun values => { values }) m' below) := by
  unfold callValue at h
  unfold ask
  split at h
  · rename_i hd
    cases h
    simp only [hd, if_true]
    exact .refl
  · rename_i hd
    simp only [hd, if_false]
    obtain ⟨e, m₁, hp, h⟩ | ⟨⟨⟩, m₁, hp, h⟩ := Outcome.andThen_eq_some h
    · cases h
      exact runs_of_run hs (.place m.fiber.freeSlot args.length) below hp
    · refine (runs_of_run hs (.place m.fiber.freeSlot args.length) below hp).trans ?_
      obtain ⟨r', m₂, hc, h⟩ := Outcome.afterwards_eq_some h
      cases h
      let p : Purpose := .call m₁.callDepth m₁.fiber.top
      obtain ⟨e, m₃, hb, hc⟩ | ⟨vs, m₃, hb, hc⟩ := Outcome.andThen_eq_some hc
      · cases hc
        exact runs_of_run hs (.run p false) below hb
      · refine (runs_of_run hs (.run p false) below hb).trans ?_
        cases vs with
        | none => exact runs_of_dispatch hs p time below hc
        | some vs =>
          cases hc
          exact .refl

theorem runs_of_drive (time : Nat) (co : Ref .coroutine) (entry : Callee) (args : List Value)
    {m m' : Machine} {r : Except Fault (List Value)} (below : List Level)
    (h : drive host serve time entry args m = some (r, m')) :
    Runs host (start host co entry args m below) (leave (.resume co) r m' below) := by
  unfold drive at h
  unfold start
  dsimp only at h ⊢
  generalize m.modifyFiber (fun f => { f with pending := none }) = m₀ at h ⊢
  cases hp : m.fiber.pending with
  | some pending =>
    simp only [hp] at h ⊢
    cases pending with
    | call slot wanted =>
      dsimp only at h ⊢
      have hrun := Step.run_bind serve (Exec.placeResults slot wanted args m₀)
        fun _ m => Step.ret (none : Option (List Value)) m
      cases hr : (Exec.placeResults slot wanted args m₀).run serve with
      | none =>
        rw [hr] at h
        cases h
      | some q =>
        obtain ⟨f | ⟨⟩, m₁⟩ := q <;> rw [hr] at h hrun
        · exact (runs_of_run hs (.run (.resume co) true) below hrun).trans
            (runs_of_unwound hs (.resume co) below h)
        · exact (runs_of_run hs (.run (.resume co) true) below hrun).trans
            (runs_of_dispatch hs (.resume co) time below h)
    | entry =>
      cases h
      exact .single rfl
  | none =>
    simp only [hp] at h ⊢
    cases entry with
    | native r' =>
      obtain ⟨r₁, m₁, hn, h⟩ := Outcome.afterwards_eq_some h
      -- a yield by the entry itself leaves its results for the next resumption
      have hrun := Step.run_handle serve (Exec.invokeNative host r' args m₀)
        fun result m => match result with
          | .ok vs => Step.ret (some vs) m
          | .error (.interrupt (.yield vs)) =>
            .raise (.yield vs) (m.modifyFiber fun f => { f with pending := some .entry })
          | .error f => .raise f m
      rw [hn] at hrun
      split at h
      · cases h
        exact runs_of_run hs (.run (.resume co) false) below hrun
      · rename_i hf
        cases h
        cases r with
        | ok vs => exact runs_of_run hs (.run (.resume co) false) below hrun
        | error f =>
          refine runs_of_run hs (.run (.resume co) false) (r := .error f) below (hrun.trans ?_)
          dsimp only [Option.bind]
          split
          · rename_i vs heq
            cases heq
          · rename_i vs heq
            cases heq
            exact absurd rfl (hf vs)
          · rename_i heq
            cases heq
            rfl
    | closure r' =>
      obtain ⟨e, m₁, hc, h⟩ | ⟨⟨⟩, m₁, hc, h⟩ := Outcome.andThen_eq_some h
      · cases h
        refine runs_of_run hs (.run (.resume co) false) below (r := .error e) ?_
        rw [Step.run_bind, hc]
        rfl
      · refine (runs_of_run hs (.run (.resume co) false) below (r := .ok none) ?_).trans
          (runs_of_dispatch hs (.resume co) time below h)
        rw [Step.run_bind, hc]
        rfl

theorem runs_of_resume (time : Nat) (co : Ref .coroutine) (args : List Value) {m m' : Machine}
    {r : Except Fault Reply} (below : List Level)
    (h : resume host serve time co args m = some (r, m')) :
    Runs host (ask host (.resume co args) m below) (.answer r m' below) := by
  unfold resume at h
  unfold ask
  cases hc : m.heap.coroutine? co with
  | none =>
    simp only [hc] at h ⊢
    cases h
    exact .refl
  | some c =>
    simp only [hc] at h ⊢
    cases hst : c.status <;> simp only [hst] at h ⊢
    case suspended =>
      by_cases ht : m.isCancelled c.token = true
      · simp only [ht, if_true] at h ⊢
        cases h
        exact .refl
      by_cases hd : m.limits.maxNativeDepth ≤ m.nativeDepth
      · simp only [ht, hd, if_true] at h ⊢
        cases h
        exact .refl
      simp only [ht, hd, if_false] at h ⊢
      cases hp : c.parked with
      | none =>
        simp only [hp] at h ⊢
        cases h
        exact .refl
      | some fiber =>
        simp only [hp] at h ⊢
        obtain ⟨r', m₁, hd, h⟩ := Outcome.afterwards_eq_some h
        obtain ⟨rfl, rfl⟩ := Prod.mk.inj h
        exact runs_of_drive hs time co c.entry args below hd
    all_goals
      cases h
      exact .refl

theorem runs_of_closeCoroutine (co : Ref .coroutine) {m m' : Machine} {r : Except Fault Unit}
    (below : List Level) (h : closeCoroutine serve co m = some (r, m')) :
    Runs host (ask host (.close co) m below) (.answer (r.map fun _ => {}) m' below) := by
  unfold closeCoroutine at h
  unfold ask
  cases hc : m.heap.coroutine? co with
  | none =>
    simp only [hc] at h ⊢
    cases h
    exact .refl
  | some c =>
    simp only [hc] at h ⊢
    cases hst : c.status <;> simp only [hst] at h ⊢
    case suspended =>
      cases hp : c.parked with
      | none =>
        simp only [hp] at h ⊢
        cases h
        exact .refl
      | some fiber =>
        simp only [hp, closeFiber] at h ⊢
        split at h
        · rename_i hd
          simp only [hd, if_true]
          cases h
          exact .refl
        · rename_i hd
          simp only [hd, if_false]
          obtain ⟨e, m₁, hr, h⟩ | ⟨failure, m₁, hr, h⟩ := Outcome.andThen_eq_some h
          all_goals
            obtain ⟨r', m₂, hrun, he⟩ := Outcome.afterwards_eq_some hr
            have hwork := runs_of_run hs (.close co c.token) below hrun
            cases he
          · cases h
            exact hwork
          · cases failure with
            | none =>
              cases h
              exact hwork
            | some f =>
              cases h
              exact hwork
    all_goals
      cases h
      exact .refl

end

theorem served_serve (time : Nat) : Served host (serve host time) := by
  induction time with
  | zero =>
    intro q m r m' below h
    cases h
  | succ time ih =>
    intro q m r m' below h
    cases q with
    | call f args =>
      obtain ⟨e, m₁, hc, h⟩ | ⟨vs, m₁, hc, h⟩ := Outcome.andThen_eq_some h <;> cases h
      all_goals exact runs_of_callValue ih time f args below hc
    | resume co args => exact runs_of_resume ih time co args below h
    | close co =>
      obtain ⟨e, m₁, hc, h⟩ | ⟨⟨⟩, m₁, hc, h⟩ := Outcome.andThen_eq_some h <;> cases h
      all_goals exact runs_of_closeCoroutine ih co below hc

end Config
end RegisterMachine
