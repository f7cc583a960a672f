import RegisterMachine.Proofs.Floor
import RegisterMachine.Proofs.Config

/-! The scheduler: what the statuses of coroutines, the fibers parked in them and the stack of resumed
coroutines have to do with each other, and the switches between fibers that keep to it. -/
namespace RegisterMachine

/-- A fiber that can be resumed: it has not started, its entry has yielded, or a call in its innermost
frame has. -/
structure Fiber.Parked (f : Fiber) : Prop where
  isCoroutine : f.isCoroutine = true
  nested : f.nested = 0
  shape : match f.pending with
    | none => f.calls.frames = []
    | some .entry => f.calls.frames = []
    | some (.call _ _) => f.calls.frames ≠ []

def Coroutine.Idle (closing : List (Ref .coroutine)) (co : Ref .coroutine) (c : Coroutine) : Prop :=
  c.status = .dead ∨ c.status = .suspended ∧
    if co ∈ closing then c.parked = none else ∃ fiber, c.parked = some fiber ∧ fiber.Parked

/-- A coroutine in its place among those resumed, the running one first. -/
def Coroutine.Fits (closing active : List (Ref .coroutine)) (co : Ref .coroutine) (c : Coroutine) :
    Prop :=
  if active.head? = some co then c.status = .running ∧ c.parked = none
  else if co ∈ active then c.status = .normal ∧ c.parked = none
  else c.Idle closing co

namespace Coroutine

variable {closing active : List (Ref .coroutine)} {co : Ref .coroutine} {c : Coroutine}

theorem fits_of_not_mem (h : co ∉ active) : c.Fits closing active co ↔ c.Idle closing co := by
  have hh : active.head? ≠ some co := fun hh => h (List.mem_of_mem_head? hh)
  rw [Fits, if_neg hh, if_neg h]

theorem fits_of_head (h : active.head? = some co) :
    c.Fits closing active co ↔ c.status = .running ∧ c.parked = none := by
  rw [Fits, if_pos h]

theorem fits_of_tail (h : active.head? ≠ some co) (hm : co ∈ active) :
    c.Fits closing active co ↔ c.status = .normal ∧ c.parked = none := by
  rw [Fits, if_neg h, if_pos hm]

theorem Fits.of_mem (hf : c.Fits closing active co) (h : co ∈ active) :
    (c.status = .running ∨ c.status = .normal) ∧ c.parked = none := by
  unfold Fits at hf
  split at hf
  · exact ⟨.inl hf.1, hf.2⟩
  · exact ⟨.inr hf.1, hf.2⟩

theorem Fits.of_iff {closing' : List (Ref .coroutine)} (hf : c.Fits closing active co)
    (h : co ∈ closing' ↔ co ∈ closing) : c.Fits closing' active co := by
  simpa only [Fits, Idle, h] using hf

end Coroutine

namespace Machine

/-- No coroutine is resumed twice; the last one resumed runs, and those before it are waiting for it. -/
structure Scheduled (closing : List (Ref .coroutine)) (m : Machine) : Prop where
  nodup : m.active.Nodup
  present : ∀ co, co ∈ m.active ∨ co ∈ closing → (m.heap.coroutine? co).isSome
  apart : ∀ co ∈ closing, co ∉ m.active
  fits : ∀ co c, m.heap.coroutine? co = some c → c.Fits closing m.active co

end Machine

namespace Heap

theorem coroutine?_modify (h : Heap) (r q : Ref .coroutine) (f : Coroutine → Coroutine) :
    (h.modifyCoroutine r f).coroutine? q =
      if q = r then (h.coroutine? q).map f else h.coroutine? q := by
  unfold modifyCoroutine coroutine?
  split
  · rename_i hr
    subst hr
    exact Store.get?_modify_self _ _ _
  · rename_i hr
    exact Store.get?_modify_of_ne _ (Ne.symm hr) _

end Heap

namespace Machine

variable {m : Machine}

theorem coroutine?_setStatus (m : Machine) (r q : Ref .coroutine) (status : Status) :
    (m.setStatus r status).heap.coroutine? q =
      if q = r then (m.heap.coroutine? q).map fun c => { c with status }
      else m.heap.coroutine? q := Heap.coroutine?_modify _ _ _ _

theorem coroutine?_park (m : Machine) (r q : Ref .coroutine) (parked : Option Fiber) :
    (m.park r parked).heap.coroutine? q =
      if q = r then (m.heap.coroutine? q).map fun c => { c with parked }
      else m.heap.coroutine? q := Heap.coroutine?_modify _ _ _ _

theorem coroutine?_setActiveStatus (m : Machine) (q : Ref .coroutine) (status : Status) :
    (m.setActiveStatus status).heap.coroutine? q =
      if m.active.head? = some q then (m.heap.coroutine? q).map fun c => { c with status }
      else m.heap.coroutine? q := by
  unfold setActiveStatus
  split
  · rename_i co rest h
    rw [coroutine?_setStatus, h]
    simp only [List.head?_cons, Option.some.injEq, eq_comm]
  · rename_i h
    simp [h]

@[simp] theorem fiber_setActiveStatus (m : Machine) (status : Status) :
    (m.setActiveStatus status).fiber = m.fiber := by
  unfold setActiveStatus
  split <;> rfl

@[simp] theorem waiting_setActiveStatus (m : Machine) (status : Status) :
    (m.setActiveStatus status).waiting = m.waiting := by
  unfold setActiveStatus
  split <;> rfl

@[simp] theorem active_setActiveStatus (m : Machine) (status : Status) :
    (m.setActiveStatus status).active = m.active := by
  unfold setActiveStatus
  split <;> rfl

@[simp] theorem nativeDepth_setActiveStatus (m : Machine) (status : Status) :
    (m.setActiveStatus status).nativeDepth = m.nativeDepth := by
  unfold setActiveStatus
  split <;> rfl

/-- A coroutine that goes on runs, and the one that resumed it does not. -/
theorem coroutine?_enterCoroutine (m : Machine) (co q : Ref .coroutine) (fiber : Fiber) :
    (m.enterCoroutine co fiber).heap.coroutine? q =
      if q = co then (m.heap.coroutine? q).map fun c => { c with parked := none, status := .running }
      else if m.active.head? = some q then (m.heap.coroutine? q).map fun c => { c with status := .normal }
      else m.heap.coroutine? q := by
  show (((m.park co none).setActiveStatus .normal).setStatus co .running).heap.coroutine? q = _
  rw [coroutine?_setStatus, coroutine?_setActiveStatus, coroutine?_park]
  show (if q = co then Option.map _ (if m.active.head? = some q then _ else _) else
    if m.active.head? = some q then _ else _) = _
  by_cases hq : q = co
  · simp only [hq, if_true]
    split <;> cases m.heap.coroutine? co <;> rfl
  · simp only [hq, if_false]

@[simp] theorem fiber_enterCoroutine (m : Machine) (co : Ref .coroutine) (fiber : Fiber) :
    (m.enterCoroutine co fiber).fiber = fiber := rfl

@[simp] theorem waiting_enterCoroutine (m : Machine) (co : Ref .coroutine) (fiber : Fiber) :
    (m.enterCoroutine co fiber).waiting = m.fiber :: m.waiting := by
  show ((m.park co none).setActiveStatus .normal).fiber :: _ = _
  rw [fiber_setActiveStatus]
  show _ :: ((m.park co none).setActiveStatus .normal).waiting = _
  rw [waiting_setActiveStatus]
  rfl

@[simp] theorem active_enterCoroutine (m : Machine) (co : Ref .coroutine) (fiber : Fiber) :
    (m.enterCoroutine co fiber).active = co :: m.active := by
  show co :: ((m.park co none).setActiveStatus .normal).active = _
  rw [active_setActiveStatus]
  rfl

@[simp] theorem nativeDepth_enterCoroutine (m : Machine) (co : Ref .coroutine) (fiber : Fiber) :
    (m.enterCoroutine co fiber).nativeDepth = m.nativeDepth + 1 := by
  show ((m.park co none).setActiveStatus .normal).nativeDepth + 1 = _
  rw [nativeDepth_setActiveStatus]
  rfl

/-- The machine after a coroutine was left. -/
def leaving (m : Machine) : Machine :=
  (switchBack { m with active := m.active.drop 1, nativeDepth := m.nativeDepth - 1 }).setActiveStatus
    .running

theorem coroutine?_leaving (m : Machine) (q : Ref .coroutine) :
    m.leaving.heap.coroutine? q =
      if (m.active.drop 1).head? = some q then
        (m.heap.coroutine? q).map fun c => { c with status := .running }
      else m.heap.coroutine? q := by
  unfold leaving
  rw [coroutine?_setActiveStatus]
  unfold switchBack
  split <;> rfl

theorem active_leaving (m : Machine) : m.leaving.active = m.active.drop 1 := by
  unfold leaving
  rw [active_setActiveStatus]
  unfold switchBack
  split <;> rfl

/-- The changes at the ends of stages. They go with a change of the list of coroutines being closed. -/
inductive Shift : List (Ref .coroutine) → Machine → List (Ref .coroutine) → Machine → Prop
  | enterCall {l : List (Ref .coroutine)} {m : Machine} : Shift l m l m.enterCall
  | leaveCall {l : List (Ref .coroutine)} {m : Machine} (top : Nat) : Shift l m l (m.leaveCall top)
  /-- A suspended coroutine goes on. -/
  | enter {l : List (Ref .coroutine)} {m : Machine} {co : Ref .coroutine} {c : Coroutine}
      {fiber : Fiber} : m.heap.coroutine? co = some c → c.status = .suspended →
      c.parked = some fiber → Shift l m l (m.enterCoroutine co { fiber with pending := none })
  /-- The running coroutine has come to its end. -/
  | finish {l : List (Ref .coroutine)} {m : Machine} {co : Ref .coroutine}
      {rest : List (Ref .coroutine)} {f : Fiber} {w : List Fiber} : m.active = co :: rest →
      m.waiting = f :: w → m.fiber.calls.frames = [] → Shift l m l (m.leaving.setStatus co .dead)
  /-- The running coroutine yields. -/
  | yield {l : List (Ref .coroutine)} {m : Machine} {co : Ref .coroutine}
      {rest : List (Ref .coroutine)} {f : Fiber} {w : List Fiber} : m.active = co :: rest →
      m.waiting = f :: w → m.fiber.Parked →
      Shift l m l ((m.leaving.park co (some m.fiber)).setStatus co .suspended)
  /-- A suspended coroutine is found cancelled. -/
  | refuse {l : List (Ref .coroutine)} {m : Machine} {co : Ref .coroutine} {c : Coroutine} :
      m.heap.coroutine? co = some c → c.status = .suspended → Shift l m l (m.setStatus co .dead)
  /-- The frames of a suspended coroutine are about to be closed. -/
  | close {l : List (Ref .coroutine)} {m : Machine} {co : Ref .coroutine} {c : Coroutine}
      {fiber : Fiber} : m.heap.coroutine? co = some c → c.status = .suspended →
      c.parked = some fiber → Shift l m (co :: l) ((m.park co none).switchTo fiber)
  /-- They are closed. -/
  | closed {l : List (Ref .coroutine)} {m : Machine} {co : Ref .coroutine} {f : Fiber}
      {w : List Fiber} (token : Ref .token) (failure : Option Fault) : m.waiting = f :: w →
      m.fiber.calls.frames = [] → Shift (co :: l) m l (m.switchBack.endClosing co token failure).2
  /-- A suspended coroutine without frames is closed. -/
  | discard {l : List (Ref .coroutine)} {m : Machine} {co : Ref .coroutine} {c : Coroutine}
      (token : Ref .token) : m.heap.coroutine? co = some c → c.status = .suspended →
      (∀ fiber, c.parked = some fiber → fiber.calls.frames = []) →
      Shift l m l ((m.park co none).endClosing co token none).2

theorem coroutine?_endClosing (m : Machine) (co q : Ref .coroutine) (token : Ref .token)
    (failure : Option Fault) : (m.endClosing co token failure).2.heap.coroutine? q =
      if q = co then (m.heap.coroutine? q).map fun c => { c with status := .dead }
      else m.heap.coroutine? q := by
  have h := coroutine?_setStatus
    (m.modifyHeap fun h => { h with tokens := h.tokens.cancel token }) co q .dead
  cases failure <;> exact h

/-- Switching concerns fibers, coroutines and tokens; the limits and all other objects stay as they are. -/
structure Switched (m m' : Machine) : Prop where
  limits : m'.limits = m.limits
  heap : m'.heap = { m.heap with coroutines := m'.heap.coroutines, tokens := m'.heap.tokens }

namespace Switched

variable {m' : Machine}

theorem trans {m'' : Machine} (h : Switched m m') (h' : Switched m' m'') : Switched m m'' := by
  refine ⟨h'.limits.trans h.limits, ?_⟩
  rw [h'.heap, h.heap]

theorem setStatus (m : Machine) (co : Ref .coroutine) (status : Status) :
    Switched m (m.setStatus co status) := ⟨rfl, rfl⟩

theorem park (m : Machine) (co : Ref .coroutine) (parked : Option Fiber) :
    Switched m (m.park co parked) := ⟨rfl, rfl⟩

theorem setActiveStatus (m : Machine) (status : Status) : Switched m (m.setActiveStatus status) := by
  unfold Machine.setActiveStatus
  split <;> exact ⟨rfl, rfl⟩

theorem switchBack (m : Machine) : Switched m m.switchBack := by
  unfold Machine.switchBack
  split <;> exact ⟨rfl, rfl⟩

theorem leaving (m : Machine) : Switched m m.leaving := by
  let m₁ : Machine := { m with active := m.active.drop 1, nativeDepth := m.nativeDepth - 1 }
  have h : Switched m m₁ := ⟨rfl, rfl⟩
  exact (h.trans (switchBack m₁)).trans (setActiveStatus _ _)

theorem enterCoroutine (m : Machine) (co : Ref .coroutine) (fiber : Fiber) :
    Switched m (m.enterCoroutine co fiber) := by
  have h := ((park m co none).trans (setActiveStatus _ .normal)).trans (setStatus _ co .running)
  exact ⟨h.limits, h.heap⟩

theorem endClosing (m : Machine) (co : Ref .coroutine) (token : Ref .token) (failure : Option Fault) :
    Switched m (m.endClosing co token failure).2 := by
  cases failure <;> exact ⟨rfl, rfl⟩

theorem shift {l l' : List (Ref .coroutine)} (h : Shift l m l' m') : Switched m m' := by
  cases h with
  | enterCall => exact ⟨rfl, rfl⟩
  | leaveCall top => exact ⟨rfl, rfl⟩
  | enter _ _ _ => exact enterCoroutine _ _ _
  | finish _ _ _ => exact (leaving m).trans (setStatus _ _ _)
  | yield _ _ _ => exact ((leaving m).trans (park _ _ _)).trans (setStatus _ _ _)
  | refuse _ _ => exact setStatus _ _ _
  | close _ _ _ => exact ⟨rfl, rfl⟩
  | closed token failure _ _ => exact (switchBack m).trans (endClosing _ _ _ _)
  | discard token _ _ _ => exact (park m _ none).trans (endClosing _ _ _ _)

end Switched

/-- The coroutines are as they were, up to their metatables and new ones that have not started. -/
structure SameCoroutines (m m' : Machine) : Prop where
  active : m'.active = m.active
  old : ∀ q c, m.heap.coroutine? q = some c →
    ∃ c', m'.heap.coroutine? q = some c' ∧ c'.status = c.status ∧ c'.parked = c.parked
  new : ∀ q c, m.heap.coroutine? q = none → m'.heap.coroutine? q = some c →
    c.status = .suspended ∧ ∃ fiber, c.parked = some fiber ∧ fiber.Parked ∧ fiber.pending = none

theorem SameCoroutines.trans {m₁ m₂ m₃ : Machine} (h : SameCoroutines m₁ m₂) (h' : SameCoroutines m₂ m₃) :
    SameCoroutines m₁ m₃ := by
  refine ⟨h'.active.trans h.active, fun q c hc => ?_, fun q c hn hc => ?_⟩
  · obtain ⟨c₂, hc₂, hst₂, hp₂⟩ := h.old q c hc
    obtain ⟨c₃, hc₃, hst₃, hp₃⟩ := h'.old q c₂ hc₂
    exact ⟨c₃, hc₃, hst₃.trans hst₂, hp₃.trans hp₂⟩
  · cases hc₂ : m₂.heap.coroutine? q with
    | none => exact h'.new q c hc₂ hc
    | some c₂ =>
      obtain ⟨c₃, hc₃, hst, hp⟩ := h'.old q c₂ hc₂
      rw [hc₃] at hc
      cases hc
      rw [hst, hp]
      exact h.new q c₂ hn hc₂

theorem SameCoroutines.of_eq {m m' : Machine} (ha : m'.active = m.active)
    (h : m'.heap.coroutines = m.heap.coroutines) : SameCoroutines m m' := by
  have hget : ∀ q, m'.heap.coroutine? q = m.heap.coroutine? q := by
    intro q
    rw [Heap.coroutine?, h, Heap.coroutine?]
  refine ⟨ha, fun q c hc => ⟨c, (hget q).trans hc, rfl, rfl⟩, fun q c hn hc => ?_⟩
  rw [hget, hn] at hc
  cases hc

theorem SameCoroutines.newCoroutine (m : Machine) (entry : Callee) :
    SameCoroutines m (m.newCoroutine entry).2 := by
  have hget : ∀ q, (m.newCoroutine entry).2.heap.coroutine? q =
      (m.heap.coroutines.alloc _).2.get? q := fun q => rfl
  refine ⟨rfl, fun q c hc => ⟨c, ?_, rfl, rfl⟩, fun q c hn hc => ?_⟩
  · rw [hget, Store.get?_alloc_of_isSome _ _ _ (by rw [← Heap.coroutine?, hc]; rfl)]
    exact hc
  · rw [hget, Store.alloc, Store.get?, Array.getElem?_push] at hc
    split at hc
    · cases hc
      exact ⟨rfl, _, rfl, ⟨rfl, rfl, rfl⟩, rfl⟩
    · rw [Heap.coroutine?, Store.get?] at hn
      rw [hn] at hc
      cases hc

theorem SameCoroutines.quiet {m m' : Machine} (h : Quiet m m') : SameCoroutines m m' := by
  cases h with
  | act a =>
    cases a with
    | newCoroutine entry => exact .newCoroutine m entry
    | load p => exact .of_eq rfl (Loaded.load m p).coroutines
    | setCoroutineMetatable r metatable =>
      have hget := Heap.coroutine?_modify m.heap r
      refine ⟨rfl, fun q c hc => ?_, fun q c hn hc => ?_⟩
      · show ∃ c', (m.heap.modifyCoroutine r _).coroutine? q = some c' ∧ _
        rw [hget, hc]
        split
        · exact ⟨_, rfl, rfl, rfl⟩
        · exact ⟨_, rfl, rfl, rfl⟩
      · change (m.heap.modifyCoroutine r _).coroutine? q = some c at hc
        rw [hget, hn] at hc
        split at hc <;> cases hc
    | _ => exact .of_eq rfl rfl
  | _ => exact .of_eq rfl rfl

theorem coroutines_closeBrokers (h : Heap) (rs : List (Ref .broker)) :
    (h.closeBrokers rs).coroutines = h.coroutines := by
  induction rs generalizing h with
  | nil => rfl
  | cons r rs ih => exact ih _

theorem SameCoroutines.change {m m' : Machine} (h : Change m m') : SameCoroutines m m' := by
  cases h with
  | quiet hq => exact .quiet hq
  | touch ht =>
    cases ht with
    | part start _ => exact .of_eq rfl (coroutines_closeBrokers _ _)
    | _ => exact .of_eq rfl rfl
  | enter he =>
    cases he
    exact .of_eq rfl rfl
  | drop hd =>
    cases hd
    exact .of_eq rfl (coroutines_closeBrokers _ _)
  | await p _ => exact .of_eq rfl rfl

namespace Scheduled

variable {l l' : List (Ref .coroutine)} {m' : Machine} {co : Ref .coroutine} {c : Coroutine}

theorem not_mem_of_suspended (h : Scheduled l m) (hc : m.heap.coroutine? co = some c)
    (hs : c.status = .suspended) : co ∉ m.active := by
  intro hmem
  obtain ⟨hr | hr, -⟩ := (h.fits co c hc).of_mem hmem <;> rw [hs] at hr <;> cases hr

/-- The fiber of a suspended coroutine is parked, unless it is being closed. -/
theorem parked_of_suspended (h : Scheduled l m) (hc : m.heap.coroutine? co = some c)
    (hs : c.status = .suspended) {fiber : Fiber} (hp : c.parked = some fiber) :
    co ∉ l ∧ fiber.Parked := by
  have hf := (Coroutine.fits_of_not_mem (h.not_mem_of_suspended hc hs)).1 (h.fits co c hc)
  obtain hd | ⟨-, hi⟩ := hf
  · rw [hs] at hd
    cases hd
  · rw [hp] at hi
    split at hi
    · cases hi
    · rename_i hl
      obtain ⟨fiber', hf, hp⟩ := hi
      cases hf
      exact ⟨hl, hp⟩

/-- A coroutine that is not resumed may come to be dead, and need not be closed then. -/
theorem kill (h : Scheduled l m) (hco : co ∉ m.active) (hl : l' ⊆ l)
    (hq : ∀ q, q ≠ co → q ∈ l → q ∈ l') (ha : m'.active = m.active)
    (hh : ∀ q, q ≠ co → m'.heap.coroutine? q = m.heap.coroutine? q)
    (hp : (m'.heap.coroutine? co).isSome = (m.heap.coroutine? co).isSome)
    (hd : ∀ c, m'.heap.coroutine? co = some c → c.status = .dead) : Scheduled l' m' := by
  refine ⟨ha ▸ h.nodup, ?_, ?_, ?_⟩
  · intro q hq
    rw [ha] at hq
    have hs := h.present q (hq.imp id fun hm => hl hm)
    by_cases hqc : q = co
    · rw [hqc, hp, ← hqc]
      exact hs
    · rw [hh q hqc]
      exact hs
  · intro q hq
    rw [ha]
    exact h.apart q (hl hq)
  · intro q c hc
    rw [ha]
    by_cases hqc : q = co
    · subst hqc
      exact (Coroutine.fits_of_not_mem hco).2 (.inl (hd c hc))
    · rw [hh q hqc] at hc
      exact (h.fits q c hc).of_iff ⟨fun hm => hl hm, hq q hqc⟩

theorem refuse (h : Scheduled l m) (hc : m.heap.coroutine? co = some c)
    (hs : c.status = .suspended) : Scheduled l (m.setStatus co .dead) := by
  refine h.kill (h.not_mem_of_suspended hc hs) (List.Subset.refl _) (fun _ _ hm => hm) rfl ?_ ?_ ?_
  · intro q hq
    rw [coroutine?_setStatus, if_neg hq]
  · rw [coroutine?_setStatus, if_pos rfl, Option.isSome_map]
  · intro c' hc'
    rw [coroutine?_setStatus, if_pos rfl, hc] at hc'
    cases hc'
    rfl

theorem closed {f : Fiber} {w : List Fiber} (h : Scheduled (co :: l) m) (hw : m.waiting = f :: w)
    (token : Ref .token) (failure : Option Fault) :
    Scheduled l (m.switchBack.endClosing co token failure).2 := by
  have hback : m.switchBack = { m with fiber := f, waiting := w } := by
    simp only [switchBack, hw]
  rw [hback]
  have hmem : co ∈ co :: l := List.mem_cons_self
  refine h.kill (h.apart co hmem) (List.subset_cons_self _ _) ?_ ?_ ?_ ?_ ?_
  · intro q hq hm
    exact (List.mem_cons.1 hm).resolve_left hq
  · cases failure <;> rfl
  · intro q hq
    rw [coroutine?_endClosing, if_neg hq]
  · rw [coroutine?_endClosing, if_pos rfl, Option.isSome_map]
  · intro c' hc'
    rw [coroutine?_endClosing, if_pos rfl] at hc'
    obtain ⟨c₀, -, rfl⟩ := Option.map_eq_some_iff.1 hc'
    rfl

theorem discard (h : Scheduled l m) (hc : m.heap.coroutine? co = some c)
    (hs : c.status = .suspended) (token : Ref .token) :
    Scheduled l ((m.park co none).endClosing co token none).2 := by
  refine h.kill (h.not_mem_of_suspended hc hs) (List.Subset.refl _) (fun _ _ hm => hm) rfl ?_ ?_ ?_
  · intro q hq
    rw [coroutine?_endClosing, if_neg hq, coroutine?_park, if_neg hq]
  · rw [coroutine?_endClosing, if_pos rfl, coroutine?_park, if_pos rfl, Option.isSome_map,
      Option.isSome_map]
  · intro c' hc'
    rw [coroutine?_endClosing, if_pos rfl] at hc'
    obtain ⟨c₀, -, rfl⟩ := Option.map_eq_some_iff.1 hc'
    rfl

theorem close (h : Scheduled l m) (hc : m.heap.coroutine? co = some c) (hs : c.status = .suspended)
    (fiber : Fiber) : Scheduled (co :: l) ((m.park co none).switchTo fiber) := by
  have hn := h.not_mem_of_suspended hc hs
  have hpark := coroutine?_park m co
  refine ⟨h.nodup, ?_, ?_, ?_⟩
  · intro q hq
    show ((m.park co none).heap.coroutine? q).isSome
    rw [hpark]
    split
    · rename_i hqc
      rw [hqc, hc]
      rfl
    · rename_i hqc
      exact h.present q (hq.imp id fun hm => (List.mem_cons.1 hm).resolve_left hqc)
  · intro q hq
    obtain rfl | hq := List.mem_cons.1 hq
    · exact hn
    · exact h.apart q hq
  · intro q c' hc'
    change (m.park co none).heap.coroutine? q = some c' at hc'
    rw [hpark] at hc'
    split at hc'
    · rename_i hqc
      subst hqc
      rw [hc] at hc'
      cases hc'
      refine (Coroutine.fits_of_not_mem hn).2 (.inr ⟨hs, ?_⟩)
      rw [if_pos List.mem_cons_self]
    · rename_i hqc
      refine (h.fits q c' hc').of_iff ?_
      rw [List.mem_cons, or_iff_right hqc]

theorem enter (h : Scheduled l m) (hc : m.heap.coroutine? co = some c) (hs : c.status = .suspended)
    {fiber : Fiber} (hp : c.parked = some fiber) (fiber' : Fiber) :
    Scheduled l (m.enterCoroutine co fiber') := by
  have hn := h.not_mem_of_suspended hc hs
  have hl := (h.parked_of_suspended hc hs hp).1
  have hget := coroutine?_enterCoroutine m co
  refine ⟨?_, ?_, ?_, ?_⟩
  · rw [active_enterCoroutine]
    exact List.nodup_cons.2 ⟨hn, h.nodup⟩
  · intro q hq
    rw [active_enterCoroutine, List.mem_cons, or_assoc] at hq
    have hsome : (m.heap.coroutine? q).isSome := by
      obtain rfl | hq := hq
      · rw [hc]
        rfl
      · exact h.present q hq
    rw [hget]
    split
    · rwa [Option.isSome_map]
    · split
      · rwa [Option.isSome_map]
      · exact hsome
  · intro q hq hmem
    rw [active_enterCoroutine, List.mem_cons] at hmem
    obtain rfl | hmem := hmem
    · exact hl hq
    · exact h.apart q hq hmem
  · intro q c' hc'
    rw [hget] at hc'
    rw [active_enterCoroutine]
    split at hc'
    · rename_i hqc
      subst hqc
      obtain ⟨c₀, -, rfl⟩ := Option.map_eq_some_iff.1 hc'
      exact (Coroutine.fits_of_head rfl).2 ⟨rfl, rfl⟩
    · rename_i hqc
      have hne : (co :: m.active).head? ≠ some q := fun h => hqc (Option.some.inj h).symm
      split at hc'
      · rename_i hhead
        -- the one that ran so far
        obtain ⟨c₀, hc₀, rfl⟩ := Option.map_eq_some_iff.1 hc'
        have hf := (Coroutine.fits_of_head hhead).1 (h.fits q c₀ hc₀)
        have hmem := List.mem_cons_of_mem co (List.mem_of_mem_head? hhead)
        exact (Coroutine.fits_of_tail hne hmem).2 ⟨rfl, hf.2⟩
      · rename_i hhead
        have hf := h.fits q c' hc'
        by_cases hmem : q ∈ m.active
        · rw [Coroutine.fits_of_tail hhead hmem] at hf
          exact (Coroutine.fits_of_tail hne (List.mem_cons_of_mem _ hmem)).2 hf
        · rw [Coroutine.fits_of_not_mem hmem] at hf
          refine (Coroutine.fits_of_not_mem ?_).2 hf
          rw [List.mem_cons, not_or]
          exact ⟨hqc, hmem⟩

/-- The running coroutine is left; what becomes of it fits a coroutine that is not resumed. -/
theorem leave {rest : List (Ref .coroutine)} (h : Scheduled l m) (ha : m.active = co :: rest)
    (ha' : m'.active = rest) {g : Coroutine → Coroutine} (hg : ∀ c, (g c).Idle l co)
    (hget : ∀ q, m'.heap.coroutine? q =
      if q = co then (m.leaving.heap.coroutine? q).map g else m.leaving.heap.coroutine? q) :
    Scheduled l m' := by
  have hnodup := h.nodup
  rw [ha, List.nodup_cons] at hnodup
  have hleft := coroutine?_leaving m
  rw [ha, List.drop_one, List.tail_cons] at hleft
  have hsome : ∀ q, (m'.heap.coroutine? q).isSome = (m.heap.coroutine? q).isSome := by
    intro q
    rw [hget, hleft]
    split <;> split <;> simp only [Option.isSome_map]
  refine ⟨?_, ?_, ?_, ?_⟩
  · rw [ha']
    exact hnodup.2
  · intro q hq
    rw [hsome]
    rw [ha'] at hq
    refine h.present q (hq.imp (fun hm => ?_) id)
    rw [ha]
    exact List.mem_cons_of_mem _ hm
  · intro q hq hmem
    rw [ha'] at hmem
    refine h.apart q hq ?_
    rw [ha]
    exact List.mem_cons_of_mem _ hmem
  · intro q c' hc'
    rw [hget] at hc'
    rw [ha']
    split at hc'
    · rename_i hqc
      subst hqc
      obtain ⟨c₀, -, rfl⟩ := Option.map_eq_some_iff.1 hc'
      exact (Coroutine.fits_of_not_mem hnodup.1).2 (hg c₀)
    · rename_i hqc
      have hne : m.active.head? ≠ some q := by
        rw [ha]
        exact fun h => hqc (Option.some.inj h).symm
      rw [hleft] at hc'
      split at hc'
      · rename_i hhead
        -- the one that resumed it
        obtain ⟨c₀, hc₀, rfl⟩ := Option.map_eq_some_iff.1 hc'
        have hmem : q ∈ m.active := by
          rw [ha]
          exact List.mem_cons_of_mem _ (List.mem_of_mem_head? hhead)
        have hf := (Coroutine.fits_of_tail hne hmem).1 (h.fits q c₀ hc₀)
        exact (Coroutine.fits_of_head hhead).2 ⟨rfl, hf.2⟩
      · rename_i hhead
        have hf := h.fits q c' hc'
        by_cases hmem : q ∈ rest
        · rw [ha] at hne
          rw [ha, Coroutine.fits_of_tail hne (List.mem_cons_of_mem _ hmem)] at hf
          exact (Coroutine.fits_of_tail hhead hmem).2 hf
        · have hmem' : q ∉ m.active := by
            rw [ha, List.mem_cons, not_or]
            exact ⟨hqc, hmem⟩
          rw [Coroutine.fits_of_not_mem hmem'] at hf
          exact (Coroutine.fits_of_not_mem hmem).2 hf

theorem finish {rest : List (Ref .coroutine)} (h : Scheduled l m) (ha : m.active = co :: rest) :
    Scheduled l (m.leaving.setStatus co .dead) := by
  refine h.leave ha ?_ (fun _ => .inl rfl) fun q => coroutine?_setStatus m.leaving co q .dead
  show m.leaving.active = rest
  rw [active_leaving, ha]
  rfl

theorem yield {rest : List (Ref .coroutine)} (h : Scheduled l m) (ha : m.active = co :: rest)
    (hp : m.fiber.Parked) :
    Scheduled l ((m.leaving.park co (some m.fiber)).setStatus co .suspended) := by
  have hl : co ∉ l := fun hl => h.apart co hl (by rw [ha]; exact List.mem_cons_self)
  refine h.leave ha ?_ (g := fun c => { c with parked := some m.fiber, status := .suspended }) ?_ ?_
  · show m.leaving.active = rest
    rw [active_leaving, ha]
    rfl
  · intro c
    right
    refine ⟨rfl, ?_⟩
    rw [if_neg hl]
    exact ⟨m.fiber, rfl, hp⟩
  · intro q
    rw [coroutine?_setStatus, coroutine?_park]
    split
    · rw [Option.map_map]
      rfl
    · rfl

theorem shift (h : Scheduled l m) (hs : Shift l m l' m') : Scheduled l' m' := by
  cases hs with
  | enterCall => exact ⟨h.nodup, h.present, h.apart, h.fits⟩
  | leaveCall top => exact ⟨h.nodup, h.present, h.apart, h.fits⟩
  | enter hc hs hp => exact h.enter hc hs hp _
  | finish ha _ _ => exact h.finish ha
  | yield ha _ hp => exact h.yield ha hp
  | refuse hc hs => exact h.refuse hc hs
  | close hc hs _ => exact h.close hc hs _
  | closed token failure hw _ => exact h.closed hw token failure
  | discard token hc hs _ => exact h.discard hc hs token

theorem same (h : Scheduled l m) (hs : SameCoroutines m m') : Scheduled l m' := by
  have hsome : ∀ q, (m.heap.coroutine? q).isSome → (m'.heap.coroutine? q).isSome := by
    intro q hq
    obtain ⟨c, hc⟩ := Option.isSome_iff_exists.1 hq
    obtain ⟨c', hc', -⟩ := hs.old q c hc
    rw [hc']
    rfl
  refine ⟨hs.active ▸ h.nodup, ?_, ?_, ?_⟩
  · intro q hq
    rw [hs.active] at hq
    exact hsome q (h.present q hq)
  · intro q hq
    rw [hs.active]
    exact h.apart q hq
  · intro q c' hc'
    rw [hs.active]
    cases hc : m.heap.coroutine? q with
    | some c =>
      obtain ⟨c₁, hc₁, hst, hp⟩ := hs.old q c hc
      rw [hc₁] at hc'
      cases hc'
      have hf := h.fits q c hc
      rw [Coroutine.Fits, Coroutine.Idle] at hf ⊢
      rw [hst, hp]
      exact hf
    | none =>
      -- a new coroutine is neither resumed nor being closed
      have hnot : ¬(q ∈ m.active ∨ q ∈ l) := by
        intro hq
        have hp := h.present q hq
        rw [hc] at hp
        cases hp
      rw [not_or] at hnot
      obtain ⟨hst, fiber, hp, hparked, -⟩ := hs.new q c' hc hc'
      refine (Coroutine.fits_of_not_mem hnot.1).2 (.inr ⟨hst, ?_⟩)
      rw [if_neg hnot.2]
      exact ⟨fiber, hp, hparked⟩

end Scheduled

end Machine
end RegisterMachine
