import RegisterMachine.Proofs.Brokers
import RegisterMachine.Proofs.Scheduler

/-! Where the fibers are. A coroutine has an arena of its own, and one fiber that uses it: it is parked in
the coroutine, or it runs or waits in the place of the stage that has resumed or closes the coroutine. With
that, what is left of a coroutine that dies. -/
namespace RegisterMachine

def Ref.home (co : Ref .coroutine) : Ref .arena := ⟨co.index + 1⟩

theorem Ref.home_injective : Function.Injective Ref.home := by
  rintro ⟨i⟩ ⟨j⟩ h
  have hij : i + 1 = j + 1 := congrArg Ref.index h
  rw [Nat.succ.inj hij]

theorem Ref.home_ne_first (co : Ref .coroutine) : co.home ≠ ⟨0⟩ :=
  fun h => Nat.succ_ne_zero _ (congrArg Ref.index h)

namespace Heap

def held (h : Heap) (co : Ref .coroutine) : Option Fiber := (h.coroutine? co).bind Coroutine.parked

theorem held_eq_parked {h : Heap} {co : Ref .coroutine} {c : Coroutine} (hc : h.coroutine? co = some c) :
    h.held co = c.parked := by
  rw [held, hc]
  rfl

def sizes (h : Heap) : Nat × Nat := (h.arenas.items.size, h.coroutines.items.size)

theorem held_modify (h : Heap) {r : Ref .coroutine} {f : Coroutine → Coroutine}
    (hf : ∀ c, (f c).parked = c.parked) (q : Ref .coroutine) :
    (h.modifyCoroutine r f).held q = h.held q := by
  rw [held, held, coroutine?_modify]
  split
  · cases h.coroutine? q with
    | none => rfl
    | some c => exact hf c
  · rfl

@[simp] theorem sizes_modify (h : Heap) (r : Ref .coroutine) (f : Coroutine → Coroutine) :
    (h.modifyCoroutine r f).sizes = h.sizes := by
  show (_, (h.coroutines.items.modify r.index f).size) = _
  rw [Array.size_modify]
  rfl

theorem mem_parked_iff {h : Heap} {fiber : Fiber} : fiber ∈ h.parked ↔ ∃ co, h.held co = some fiber := by
  constructor
  · intro hf
    obtain ⟨c, hc, hp⟩ := List.mem_filterMap.1 hf
    obtain ⟨i, hi⟩ := Array.getElem?_of_mem (Array.mem_toList_iff.1 hc)
    have hget : h.coroutine? ⟨i⟩ = some c := hi
    exact ⟨⟨i⟩, (held_eq_parked hget).trans hp⟩
  · rintro ⟨co, hco⟩
    obtain ⟨c, hc, hp⟩ := Option.bind_eq_some_iff.1 hco
    exact List.mem_filterMap.2 ⟨c, Array.mem_toList_iff.2 (Array.mem_of_getElem? hc), hp⟩

end Heap

namespace Machine

variable (m : Machine) (co q : Ref .coroutine) (status : Status)

@[simp] theorem held_setStatus : (m.setStatus co status).heap.held q = m.heap.held q :=
  m.heap.held_modify (f := fun c => { c with status }) (fun _ => rfl) q

@[simp] theorem sizes_setStatus : (m.setStatus co status).heap.sizes = m.heap.sizes :=
  m.heap.sizes_modify _ _

@[simp] theorem sizes_park (parked : Option Fiber) : (m.park co parked).heap.sizes = m.heap.sizes :=
  m.heap.sizes_modify _ _

@[simp] theorem held_setActiveStatus : (m.setActiveStatus status).heap.held q = m.heap.held q := by
  unfold setActiveStatus
  split
  · exact held_setStatus m _ q status
  · rfl

@[simp] theorem sizes_setActiveStatus : (m.setActiveStatus status).heap.sizes = m.heap.sizes := by
  unfold setActiveStatus
  split
  · exact sizes_setStatus m _ status
  · rfl

@[simp] theorem heap_switchBack : m.switchBack.heap = m.heap := by
  unfold switchBack
  split <;> rfl

theorem held_park {parked : Option Fiber} {fiber : Fiber}
    (h : (m.park co parked).heap.held q = some fiber) :
    q = co ∧ parked = some fiber ∨ q ≠ co ∧ m.heap.held q = some fiber := by
  rw [Heap.held, coroutine?_park] at h
  split at h
  · rename_i hq
    obtain ⟨c, hc, hp⟩ := Option.bind_eq_some_iff.1 h
    obtain ⟨c₀, -, rfl⟩ := Option.map_eq_some_iff.1 hc
    exact .inl ⟨hq, hp⟩
  · rename_i hq
    exact .inr ⟨hq, h⟩

theorem held_park_none : (m.park co none).heap.held co = none := by
  cases h : (m.park co none).heap.held co with
  | none => rfl
  | some fiber =>
    obtain ⟨-, hp⟩ | ⟨hne, -⟩ := held_park m co co h
    · cases hp
    · exact absurd rfl hne

@[simp] theorem held_leaving : m.leaving.heap.held q = m.heap.held q := by
  unfold leaving
  rw [held_setActiveStatus, heap_switchBack]

@[simp] theorem sizes_leaving : m.leaving.heap.sizes = m.heap.sizes := by
  unfold leaving
  rw [sizes_setActiveStatus, heap_switchBack]

@[simp] theorem held_endClosing (token : Ref .token) (failure : Option Fault) :
    (m.endClosing co token failure).2.heap.held q = m.heap.held q := by
  have h := held_setStatus (m.modifyHeap fun h => { h with tokens := h.tokens.cancel token }) co q .dead
  cases failure <;> exact h

@[simp] theorem sizes_endClosing (token : Ref .token) (failure : Option Fault) :
    (m.endClosing co token failure).2.heap.sizes = m.heap.sizes := by
  have h := sizes_setStatus (m.modifyHeap fun h => { h with tokens := h.tokens.cancel token }) co .dead
  cases failure <;> exact h

theorem held_enterCoroutine (fiber : Fiber) :
    (m.enterCoroutine co fiber).heap.held q = (m.park co none).heap.held q := by
  show (((m.park co none).setActiveStatus .normal).setStatus co .running).heap.held q = _
  rw [held_setStatus, held_setActiveStatus]

@[simp] theorem sizes_enterCoroutine (fiber : Fiber) :
    (m.enterCoroutine co fiber).heap.sizes = m.heap.sizes := by
  show (((m.park co none).setActiveStatus .normal).setStatus co .running).heap.sizes = _
  rw [sizes_setStatus, sizes_setActiveStatus, sizes_park]

end Machine

open Machine

/-- A machine with the coroutines that are being closed, and those in whose place the running fiber and
the waiting ones stand, from the running one on. -/
structure Scene where
  closing : List (Ref .coroutine)
  hosts : List (Ref .coroutine)
  machine : Machine

/-- The fibers are where they belong. -/
structure Scene.Housed (s : Scene) : Prop where
  /-- Those that run and wait use the arenas of the coroutines in whose place they are; the last one is that
  of the host. -/
  arenas : (s.machine.fiber :: s.machine.waiting).map Fiber.arena = s.hosts.map Ref.home ++ [⟨0⟩]
  nodup : s.hosts.Nodup
  known : ∀ co ∈ s.hosts, co ∈ s.machine.active ∨ co ∈ s.closing
  present : ∀ co ∈ s.hosts, co.index < s.machine.heap.sizes.2
  /-- The others are in their coroutines. -/
  held : ∀ co fiber, s.machine.heap.held co = some fiber → fiber.arena = co.home ∧ co ∉ s.hosts
  size : s.machine.heap.sizes.1 = s.machine.heap.sizes.2 + 1

namespace Scene.Housed

variable {l l' hs : List (Ref .coroutine)} {m m' : Machine} {co : Ref .coroutine}

/-- All fibers stay, but for some that were parked. -/
theorem stay (h : Housed ⟨l, hs, m⟩) (harena : m'.fiber.arena = m.fiber.arena)
    (hwaiting : m'.waiting = m.waiting) (hactive : m'.active = m.active)
    (hheld : ∀ co fiber, m'.heap.held co = some fiber → m.heap.held co = some fiber)
    (hsizes : m'.heap.sizes = m.heap.sizes) : Housed ⟨l, hs, m'⟩ where
  arenas := by
    have ha := h.arenas
    rwa [List.map_cons, ← harena, ← hwaiting, ← List.map_cons] at ha
  nodup := h.nodup
  known co hco := by
    rw [hactive]
    exact h.known co hco
  present co hco := by
    rw [hsizes]
    exact h.present co hco
  held co fiber hf := h.held co fiber (hheld co fiber hf)
  size := by
    rw [hsizes]
    exact h.size

/-- The fiber of a coroutine takes the place of the running one. -/
theorem push {fiber : Fiber} (h : Housed ⟨l, hs, m⟩) (hp : m.heap.held co = some fiber)
    (harena : m'.fiber.arena = fiber.arena) (hwaiting : m'.waiting = m.fiber :: m.waiting)
    (hnew : co ∈ m'.active ∨ co ∈ l') (hold : ∀ q, q ∈ m.active ∨ q ∈ l → q ∈ m'.active ∨ q ∈ l')
    (hheld : ∀ q fiber, m'.heap.held q = some fiber → q ≠ co ∧ m.heap.held q = some fiber)
    (hsizes : m'.heap.sizes = m.heap.sizes) : Housed ⟨l', co :: hs, m'⟩ where
  arenas := by
    rw [List.map_cons, List.map_cons, harena, hwaiting, (h.held co fiber hp).1, List.cons_append, h.arenas]
  nodup := List.nodup_cons.2 ⟨(h.held co fiber hp).2, h.nodup⟩
  known q hq := by
    obtain rfl | hq := List.mem_cons.1 hq
    · exact hnew
    · exact hold q (h.known q hq)
  present q hq := by
    rw [hsizes]
    obtain rfl | hq := List.mem_cons.1 hq
    · obtain ⟨c, hc, -⟩ := Option.bind_eq_some_iff.1 hp
      exact (Array.getElem?_eq_some_iff.1 hc).1
    · exact h.present q hq
  held q fiber hf := by
    obtain ⟨hne, hf⟩ := hheld q fiber hf
    obtain ⟨ha, hn⟩ := h.held q fiber hf
    exact ⟨ha, fun hq => (List.mem_cons.1 hq).elim hne hn⟩
  size := by
    rw [hsizes]
    exact h.size

/-- The running fiber gives way to the one that waits for it; it may be parked in its coroutine. -/
theorem pop {f : Fiber} {w : List Fiber} (h : Housed ⟨l, co :: hs, m⟩) (hw : m.waiting = f :: w)
    (hfiber : m'.fiber = f) (hwaiting : m'.waiting = w)
    (hold : ∀ q, q ≠ co → q ∈ m.active ∨ q ∈ l → q ∈ m'.active ∨ q ∈ l')
    (hheld : ∀ q fiber, m'.heap.held q = some fiber →
      m.heap.held q = some fiber ∨ q = co ∧ fiber = m.fiber)
    (hsizes : m'.heap.sizes = m.heap.sizes) : Housed ⟨l', hs, m'⟩ where
  arenas := by
    have ha := h.arenas
    rw [List.map_cons, List.map_cons, hw, List.cons_append, List.cons.injEq] at ha
    rw [hfiber, hwaiting]
    exact ha.2
  nodup := (List.nodup_cons.1 h.nodup).2
  known q hq := by
    refine hold q ?_ (h.known q (List.mem_cons_of_mem co hq))
    rintro rfl
    exact (List.nodup_cons.1 h.nodup).1 hq
  present q hq := by
    rw [hsizes]
    exact h.present q (List.mem_cons_of_mem co hq)
  held q fiber hf := by
    obtain hf | ⟨rfl, rfl⟩ := hheld q fiber hf
    · obtain ⟨ha, hn⟩ := h.held q fiber hf
      exact ⟨ha, fun hq => hn (List.mem_cons_of_mem co hq)⟩
    · have ha := h.arenas
      rw [List.map_cons, List.map_cons, List.cons_append, List.cons.injEq] at ha
      exact ⟨ha.1, (List.nodup_cons.1 h.nodup).1⟩
  size := by
    rw [hsizes]
    exact h.size

theorem held_of_mem {s : Scene} (h : s.Housed) (hco : co ∈ s.hosts) : s.machine.heap.held co = none := by
  cases hp : s.machine.heap.held co with
  | none => rfl
  | some fiber => exact absurd hco (h.held co fiber hp).2

theorem not_mem_arenas {s : Scene} (h : s.Housed) (hco : co ∉ s.hosts)
    (hp : s.machine.heap.held co = none) : ∀ f ∈ s.machine.fibers, f.arena ≠ co.home := by
  intro f hf ha
  obtain hf | hf := List.mem_append.1 (show f ∈ (s.machine.fiber :: s.machine.waiting) ++ _ from hf)
  · have hmem := List.mem_map_of_mem (f := Fiber.arena) hf
    rw [h.arenas, ha, List.mem_append, List.mem_singleton] at hmem
    obtain hmem | hmem := hmem
    · obtain ⟨q, hq, he⟩ := List.mem_map.1 hmem
      exact hco (Ref.home_injective he ▸ hq)
    · exact co.home_ne_first hmem
  · obtain ⟨q, hq⟩ := Heap.mem_parked_iff.1 hf
    have he : q = co := Ref.home_injective ((h.held q f hq).1.symm.trans ha)
    rw [he, hp] at hq
    cases hq

end Scene.Housed

open Config (IsDead)

/-- The fibers stay where they belong. What has died, but for what was refused, holds no fiber. -/
structure Scene.Proceeds (refused : Ref .coroutine → Prop) (s s' : Scene) : Prop where
  housed : s'.Housed
  died : ∀ co, ¬refused co → IsDead s'.machine co → s'.machine.heap.held co = none ∨
    IsDead s.machine co ∧ s'.machine.heap.held co = s.machine.heap.held co

namespace Scene.Proceeds

variable {refused : Ref .coroutine → Prop} {s s' s'' : Scene} {l hs : List (Ref .coroutine)}
  {m m' : Machine} {co : Ref .coroutine} {fiber : Fiber}

theorem refl (h : s.Housed) : Proceeds refused s s := ⟨h, fun _ _ hd => .inr ⟨hd, rfl⟩⟩

theorem trans (h : Proceeds refused s s') (h' : Proceeds refused s' s'') : Proceeds refused s s'' := by
  refine ⟨h'.housed, fun co hr hd => ?_⟩
  obtain hp | ⟨hd', hp⟩ := h'.died co hr hd
  · exact .inl hp
  · rw [hp]
    exact h.died co hr hd'

theorem isDead_of_same (hc : SameCoroutines m m') (h : IsDead m' co) : IsDead m co := by
  obtain ⟨k', hk', hd⟩ := h
  cases hk : m.heap.coroutine? co with
  | none =>
    rw [(hc.new co k' hk hk').1] at hd
    cases hd
  | some k =>
    obtain ⟨k'', hk'', hst, -⟩ := hc.old co k hk
    rw [hk'] at hk''
    cases hk''
    exact ⟨k, hk, hst.symm.trans hd⟩

theorem same (h : Housed ⟨l, hs, m⟩) (hc : SameCoroutines m m')
    (harena : m'.fiber.arena = m.fiber.arena) (hwaiting : m'.waiting = m.waiting)
    (hheld : ∀ co, m'.heap.held co = m.heap.held co) (hsizes : m'.heap.sizes = m.heap.sizes) :
    Proceeds refused ⟨l, hs, m⟩ ⟨l, hs, m'⟩ := by
  refine ⟨h.stay harena hwaiting hc.active (fun co _ hf => (hheld co).symm.trans hf) hsizes, ?_⟩
  exact fun co _ hd => .inr ⟨isDead_of_same hc hd, hheld co⟩

/-- Nothing happens to the coroutines. -/
theorem still (h : Housed ⟨l, hs, m⟩) (hc : m'.heap.coroutines = m.heap.coroutines)
    (ha : m'.heap.arenas.items.size = m.heap.arenas.items.size) (harena : m'.fiber.arena = m.fiber.arena)
    (hwaiting : m'.waiting = m.waiting) (hactive : m'.active = m.active) :
    Proceeds refused ⟨l, hs, m⟩ ⟨l, hs, m'⟩ := by
  refine same h (.of_eq hactive hc) harena hwaiting (fun co => ?_) ?_
  · rw [Heap.held, Heap.coroutine?, hc]
    rfl
  · rw [Heap.sizes, ha, hc]
    rfl

theorem create (h : Housed ⟨l, hs, m⟩) (entry : Callee) :
    Proceeds refused ⟨l, hs, m⟩ ⟨l, hs, (m.newCoroutine entry).2⟩ := by
  have hheld (q : Ref .coroutine) : (m.newCoroutine entry).2.heap.held q =
      if q.index = m.heap.sizes.2 then
        some { arena := ⟨m.heap.sizes.1⟩, token := ⟨m.heap.tokens.items.size⟩, isCoroutine := true }
      else m.heap.held q := by
    show Option.bind (m.heap.coroutines.items.push _)[q.index]? _ = _
    rw [Array.getElem?_push]
    split
    · rename_i hq
      exact (if_pos hq).symm
    · rename_i hq
      exact (if_neg hq).symm
  have hsizes : (m.newCoroutine entry).2.heap.sizes = (m.heap.sizes.1 + 1, m.heap.sizes.2 + 1) :=
    Prod.ext (Array.size_push _) (Array.size_push _)
  refine ⟨⟨h.arenas, h.nodup, h.known, fun q hq => ?_, fun q fiber hf => ?_, ?_⟩, fun q _ hd => ?_⟩
  · rw [hsizes]
    exact Nat.lt_succ_of_lt (h.present q hq)
  · rw [hheld] at hf
    split at hf
    · rename_i hq
      cases hf
      refine ⟨?_, fun hmem => Nat.ne_of_lt (h.present q hmem) hq⟩
      rw [Ref.home, hq]
      exact congrArg Ref.mk h.size
    · exact h.held q fiber hf
  · rw [hsizes]
    exact congrArg Nat.succ h.size
  · have hold := isDead_of_same (.newCoroutine m entry) hd
    have hq : q.index ≠ m.heap.sizes.2 := by
      obtain ⟨k, hk, -⟩ := hold
      exact Nat.ne_of_lt (Array.getElem?_eq_some_iff.1 hk).1
    exact .inr ⟨hold, by rw [hheld, if_neg hq]⟩

theorem quiet (h : Housed ⟨l, hs, m⟩) (hq : Quiet m m') : Proceeds refused ⟨l, hs, m⟩ ⟨l, hs, m'⟩ := by
  cases hq with
  | write op _ => exact still h rfl Array.size_modify rfl rfl rfl
  | assign v _ _ => exact still h rfl Array.size_modify rfl rfl rfl
  | act a =>
    cases a with
    | newCoroutine entry => exact create h entry
    | load p =>
      have hl := Loaded.load m p
      exact still h hl.coroutines (congrArg (·.items.size) hl.arenas) rfl rfl rfl
    | setCoroutineMetatable r metatable =>
      refine same h (.quiet (.act _)) rfl rfl (fun q => ?_) (m.heap.sizes_modify r _)
      exact m.heap.held_modify (f := fun c => { c with metatable }) (fun _ => rfl) q
    | _ => exact still h rfl rfl rfl rfl rfl
  | _ => exact still h rfl rfl rfl rfl rfl

theorem change (h : Housed ⟨l, hs, m⟩) (hc : Change m m') : Proceeds refused ⟨l, hs, m⟩ ⟨l, hs, m'⟩ := by
  have hclose (rs : List (Ref .broker)) (h : Heap) :
      (h.closeBrokers rs).arenas.items.size = h.arenas.items.size := by rw [arenas_closeBrokers]
  cases hc with
  | quiet hq => exact quiet h hq
  | touch ht =>
    cases ht with
    | part start _ => exact still h (coroutines_closeBrokers _ _) (hclose _ _) rfl rfl rfl
    | _ => exact still h rfl rfl rfl rfl rfl
  | enter he =>
    cases he
    exact still h rfl rfl rfl rfl rfl
  | drop hd =>
    cases hd
    exact still h (coroutines_closeBrokers _ _) (hclose _ _) rfl rfl rfl
  | await p _ => exact still h rfl rfl rfl rfl rfl

theorem changes (h : Housed ⟨l, hs, m⟩) (hc : Changes m m') :
    Proceeds refused ⟨l, hs, m⟩ ⟨l, hs, m'⟩ := by
  induction hc with
  | refl => exact refl h
  | tail _ hc ih => exact ih.trans (change ih.housed hc)

/-- Whatever is dead was the same before, or holds nothing. -/
theorem of_coroutine? (h : s'.Housed) (hd : ∀ q k, s'.machine.heap.coroutine? q = some k →
      k.status = .dead → s'.machine.heap.held q = none ∨ s.machine.heap.coroutine? q = some k) :
    Proceeds refused s s' := by
  refine ⟨h, ?_⟩
  rintro q - ⟨k, hk, hk'⟩
  obtain hp | hold := hd q k hk hk'
  · exact .inl hp
  · exact .inr ⟨⟨k, hold, hk'⟩, by rw [Heap.held, Heap.held, hk, hold]⟩

/-- A coroutine goes on. -/
theorem enter (h : Housed ⟨l, hs, m⟩) (hp : m.heap.held co = some fiber) {fiber' : Fiber}
    (ha : fiber'.arena = fiber.arena) :
    Proceeds refused ⟨l, hs, m⟩ ⟨l, co :: hs, m.enterCoroutine co fiber'⟩ := by
  have hheld : ∀ q f, (m.enterCoroutine co fiber').heap.held q = some f →
      q ≠ co ∧ m.heap.held q = some f := by
    intro q f hf
    rw [held_enterCoroutine] at hf
    exact (held_park m co q hf).resolve_left fun h => nomatch h.2
  have hsizes := sizes_enterCoroutine m co fiber'
  refine of_coroutine? (h.push hp ha (waiting_enterCoroutine m co fiber') ?_ ?_ hheld hsizes) ?_
  · rw [active_enterCoroutine]
    exact .inl List.mem_cons_self
  · intro q hq
    rw [active_enterCoroutine]
    exact hq.imp_left (List.mem_cons_of_mem co)
  · intro q k hk hd
    rw [coroutine?_enterCoroutine] at hk
    split at hk
    · obtain ⟨_, -, rfl⟩ := Option.map_eq_some_iff.1 hk
      cases hd
    · split at hk
      · obtain ⟨_, -, rfl⟩ := Option.map_eq_some_iff.1 hk
        cases hd
      · exact .inr hk

/-- What is dead when the running coroutine is left was so before. -/
theorem coroutine?_of_leaving {q : Ref .coroutine} {k : Coroutine}
    (hk : m.leaving.heap.coroutine? q = some k) (hd : k.status = .dead) :
    m.heap.coroutine? q = some k := by
  rw [coroutine?_leaving] at hk
  split at hk
  · obtain ⟨_, -, rfl⟩ := Option.map_eq_some_iff.1 hk
    cases hd
  · exact hk

section

variable {rest : List (Ref .coroutine)} {f : Fiber} {w : List Fiber}

theorem fiber_leaving (hw : m.waiting = f :: w) : m.leaving.fiber = f := by
  rw [leaving, fiber_setActiveStatus]
  simp only [switchBack, hw]

theorem waiting_leaving (hw : m.waiting = f :: w) : m.leaving.waiting = w := by
  rw [leaving, waiting_setActiveStatus]
  simp only [switchBack, hw]

theorem known_leaving (ha : m.active = co :: rest) (q : Ref .coroutine) (hq : q ≠ co)
    (h : q ∈ m.active ∨ q ∈ l) : q ∈ m.leaving.active ∨ q ∈ l := by
  rw [active_leaving]
  rw [ha] at h ⊢
  exact h.imp_left fun h => (List.mem_cons.1 h).resolve_left hq

theorem finish (h : Housed ⟨l, co :: hs, m⟩) (ha : m.active = co :: rest) (hw : m.waiting = f :: w) :
    Proceeds refused ⟨l, co :: hs, m⟩ ⟨l, hs, m.leaving.setStatus co .dead⟩ := by
  have hheld (q : Ref .coroutine) : (m.leaving.setStatus co .dead).heap.held q = m.heap.held q := by simp
  refine of_coroutine? (h.pop hw (fiber_leaving hw) (waiting_leaving hw) (known_leaving ha) ?_ ?_) ?_
  · exact fun q fiber hf => .inl ((hheld q).symm.trans hf)
  · simp
  · intro q k hk hd
    rw [coroutine?_setStatus] at hk
    split at hk
    · rename_i hq
      rw [hq, hheld]
      exact .inl (h.held_of_mem List.mem_cons_self)
    · exact .inr (coroutine?_of_leaving hk hd)

/-- The running coroutine yields. -/
theorem yield (h : Housed ⟨l, co :: hs, m⟩) (ha : m.active = co :: rest) (hw : m.waiting = f :: w) :
    Proceeds refused ⟨l, co :: hs, m⟩
      ⟨l, hs, (m.leaving.park co (some m.fiber)).setStatus co .suspended⟩ := by
  refine of_coroutine? (h.pop hw (fiber_leaving hw) (waiting_leaving hw) (known_leaving ha) ?_ ?_) ?_
  · intro q fiber hf
    rw [held_setStatus] at hf
    obtain ⟨hq, hf⟩ | ⟨-, hf⟩ := held_park _ co q hf
    · exact .inr ⟨hq, (Option.some.inj hf).symm⟩
    · rw [held_leaving] at hf
      exact .inl hf
  · simp
  · intro q k hk hd
    rw [coroutine?_setStatus, coroutine?_park] at hk
    split at hk
    · obtain ⟨_, -, rfl⟩ := Option.map_eq_some_iff.1 hk
      cases hd
    · exact .inr (coroutine?_of_leaving hk hd)

theorem close (h : Housed ⟨l, hs, m⟩) (hp : m.heap.held co = some fiber) :
    Proceeds refused ⟨l, hs, m⟩ ⟨co :: l, co :: hs, (m.park co none).switchTo fiber⟩ := by
  have hheld : ∀ q f, (m.park co none).heap.held q = some f → q ≠ co ∧ m.heap.held q = some f :=
    fun q f hf => (held_park m co q hf).resolve_left fun h => nomatch h.2
  refine of_coroutine? (h.push hp rfl rfl (.inr List.mem_cons_self) ?_ hheld (sizes_park m co none)) ?_
  · exact fun q hq => hq.imp_right (List.mem_cons_of_mem co)
  · intro q k hk _
    change (m.park co none).heap.coroutine? q = some k at hk
    rw [coroutine?_park] at hk
    split at hk
    · rename_i hq
      rw [hq]
      exact .inl (held_park_none m co)
    · exact .inr hk

theorem closed (h : Housed ⟨co :: l, co :: hs, m⟩) (hw : m.waiting = f :: w) (token : Ref .token)
    (failure : Option Fault) : Proceeds refused ⟨co :: l, co :: hs, m⟩
      ⟨l, hs, (m.switchBack.endClosing co token failure).2⟩ := by
  let m₀ : Machine := { m with fiber := f, waiting := w }
  have hback : m.switchBack = m₀ := by simp only [switchBack, hw, m₀]
  have hplaces : (m₀.endClosing co token failure).2.fiber = f ∧
      (m₀.endClosing co token failure).2.waiting = w ∧
      (m₀.endClosing co token failure).2.active = m.active := by
    cases failure <;> exact ⟨rfl, rfl, rfl⟩
  have hheld (q : Ref .coroutine) : (m₀.endClosing co token failure).2.heap.held q = m.heap.held q :=
    held_endClosing m₀ co q token failure
  rw [hback]
  refine of_coroutine? (h.pop hw hplaces.1 hplaces.2.1 (fun q hq hk => ?_) (fun q fiber hf => ?_) ?_) ?_
  · rw [hplaces.2.2]
    exact hk.imp_right fun hk => (List.mem_cons.1 hk).resolve_left hq
  · exact .inl ((hheld q).symm.trans hf)
  · exact sizes_endClosing m₀ co token failure
  · intro q k hk _
    rw [coroutine?_endClosing] at hk
    split at hk
    · rename_i hq
      rw [hq]
      exact .inl ((hheld co).trans (h.held_of_mem List.mem_cons_self))
    · exact .inr hk

end

theorem discard (h : Housed ⟨l, hs, m⟩) (token : Ref .token) :
    Proceeds refused ⟨l, hs, m⟩ ⟨l, hs, ((m.park co none).endClosing co token none).2⟩ := by
  have hpark : ∀ q f, (m.park co none).heap.held q = some f → m.heap.held q = some f :=
    fun q f hf => ((held_park m co q hf).resolve_left fun h => nomatch h.2).2
  have hheld := held_endClosing (m.park co none) co
  have hsizes := (sizes_endClosing (m.park co none) co token none).trans (sizes_park m co none)
  refine of_coroutine? (h.stay rfl rfl rfl (fun q f hf => hpark q f ?_) hsizes) ?_
  · rwa [hheld] at hf
  · intro q k hk _
    rw [coroutine?_endClosing, coroutine?_park] at hk
    split at hk
    · rename_i hq
      rw [hq, hheld]
      exact .inl (held_park_none m co)
    · exact .inr hk

end Scene.Proceeds

/-- The coroutine in whose place the fibers of a stage run. -/
def Purpose.host : Purpose → List (Ref .coroutine)
  | .call _ _ => []
  | .resume co => [co]

def Stage.host {α : Type} : Stage α → List (Ref .coroutine)
  | .place _ _ => []
  | .run p _ => p.host
  | .close co _ => [co]

namespace Config

def hostsOf (below : List Level) : List (Ref .coroutine) := below.flatMap (·.stage.host)

/-- The coroutines in whose place fibers run or wait. -/
def hosts : Config → List (Ref .coroutine)
  | .work g _ below => g.host ++ hostsOf below
  | .loop p _ below => p.host ++ hostsOf below
  | .answer _ _ below => hostsOf below

def scene (c : Config) : Scene := ⟨c.closing [], c.hosts, c.machine⟩

abbrev sceneAt (below : List Level) (m : Machine) : Scene := ⟨closings [] below, hostsOf below, m⟩

/-- A coroutine that is asked to go on is found cancelled: it is dead from then on, and all else is left as
it is. -/
def Refused (m : Machine) (c : Config) (co : Ref .coroutine) : Prop :=
  (∃ k, m.heap.coroutine? co = some k ∧ k.status = .suspended ∧ m.isCancelled k.token = true) ∧
    c = .answer (.error .cancelled) (m.setStatus co .dead) c.below

open Scene (Housed Proceeds)
open Exec

variable {host : Host} {origin o b m : Machine} {below : List Level}
  {refused : Ref .coroutine → Prop} {α : Type}

theorem proceeds_leave {p : Purpose} {r : Except Fault (List Value)} (ho : p.Opens o b)
    (he : (Stage.run p false).Ends b (r.map some) m)
    (h : Housed ⟨closings [] below, p.host ++ hostsOf below, m⟩) :
    Proceeds refused ⟨closings [] below, p.host ++ hostsOf below, m⟩ (leave p r m below).scene := by
  cases p with
  | call stop top => exact .still h rfl rfl rfl rfl rfl
  | resume co =>
    have hfinish (ha : At b b.callDepth m) :
        Proceeds refused ⟨closings [] below, co :: hostsOf below, m⟩
          (sceneAt below (m.leaving.setStatus co .dead)) :=
      .finish h (ha.1.active.trans ho.active) (ha.1.waiting.trans ho.waiting)
    cases r with
    | ok vs => exact hfinish he
    | error f =>
      obtain ⟨vs, rfl⟩ | hf := f.yield_or
      · have hy : Stage.Yielded (.resume co) false b m := he
        obtain ⟨hw, hact, -⟩ := Yielded.same hy
        exact .yield h (hact.trans ho.active) (hw.trans ho.waiting)
      · change (if f.isYield then _ else At b b.callDepth m) at he
        rw [hf] at he
        rw [leave, leaveCoroutine_error co m hf]
        exact hfinish he

/-- What follows when a stage is over. -/
theorem proceeds_finish {g : Stage α} {r : Except Fault α} (ho : g.Opens o b) (he : g.Ends b r m)
    (h : Housed ⟨g.closing ++ closings [] below, g.host ++ hostsOf below, m⟩) :
    Proceeds refused ⟨g.closing ++ closings [] below, g.host ++ hostsOf below, m⟩
      (finish host g r m below).scene := by
  cases g with
  | place start count =>
    cases r with
    | ok _ =>
      have hcall : Proceeds refused (sceneAt below m) (sceneAt below m.enterCall) :=
        .still h rfl rfl rfl rfl rfl
      have hbegin := begin_follows host start count none (b := m.enterCall) ⟨.refl _, rfl⟩
      exact hcall.trans (.changes hcall.housed (changes_of_follows hbegin))
    | error f => exact .refl h
  | run p guarded =>
    obtain f | _ | vs := r
    · cases guarded with
      | true =>
        have hunwind := unwind_follows (failed_of_ends he)
        rw [← stop_eq ho] at hunwind
        exact .changes h (changes_of_follows hunwind)
      | false => exact proceeds_leave (p := p) ho (r := .error f) he h
    · exact .refl h
    · exact proceeds_leave (p := p) ho (r := .ok vs) he h
  | close co token =>
    cases r with
    | ok failure => exact .closed h (he.1.1.waiting.trans (Stage.Closing.waiting ho)) token failure
    | error f => exact he.elim

theorem stable_yieldable : Stable fun m => m.fiber.isYieldable = true where
  quiet hq h := by
    rw [hq.same.1]
    exact h
  balanced hb h := by
    rw [hb.fiber]
    exact h

/-- A coroutine goes on from where it stopped, or begins. -/
theorem proceeds_start {co : Ref .coroutine} {fiber : Fiber} (entry : Callee) (args : List Value)
    (h : Housed (sceneAt below m)) (hp : m.heap.held co = some fiber) (hf : fiber.Parked) :
    Proceeds refused (sceneAt below m)
      (start host co entry args (m.enterCoroutine co fiber) below).scene := by
  let J : Machine → Prop := fun m => m.fiber.isYieldable = true
  let m₀ := m.enterCoroutine co { fiber with pending := none }
  have hy : J m₀ := by
    show (fiber.isCoroutine && fiber.nested == 0) = true
    rw [hf.isCoroutine, hf.nested]
    rfl
  have hc := Holds.closed stable_yieldable
  have henter : Proceeds refused (sceneAt below m)
    ⟨closings [] below, co :: hostsOf below, m₀⟩ := .enter h hp rfl
  -- whatever the coroutine begins with comes after it was entered
  have hwork (guarded : Bool) {s : Step (Option (List Value))}
      (hs : s.Follows (floor J) (fun _ _ => True) m₀) :
      Proceeds refused (sceneAt below m)
        (Config.work (.run (.resume co) guarded) s below).scene :=
    henter.trans (.changes henter.housed (changes_of_follows hs))
  unfold start
  rw [fiber_enterCoroutine]
  dsimp only
  split
  · rename_i slot wanted _
    refine hwork true ?_
    have hplace := hc.placeResults slot wanted args m₀ hy
    exact hplace.bind (fun _ _ _ => ⟨.refl, trivial⟩) fun _ _ _ => trivial
  · exact henter
  · split
    · rename_i r
      refine hwork false ?_
      refine (invokeNative_follows stable_yieldable host r args hy).handle fun result m' hm' => ?_
      split
      · exact ⟨.refl, trivial⟩
      · exact ⟨.single (.await .entry hm'), trivial⟩
      · exact ⟨.refl, trivial⟩
    · rename_i r
      refine hwork false ?_
      have hpush (m₁ : Machine) : (pushFrame r 0 args.length none m₁).Follows (floor J) (fun _ _ => True) m₁ :=
        (pushFrame_follows J r 0 args.length none ⟨.refl m₁, rfl⟩).imp J (fun _ h => h) fun _ _ _ => trivial
      have hargs (m₁ : Machine) (h₁ : J m₁) : ((do
          writeRange 1 args
          pushFrame r 0 args.length none : Exec Unit) m₁).Follows (floor J) (fun _ _ => True) m₁ := by
        rw [bind_eq]
        exact (hc.writeRange 1 args m₁ h₁).bind (fun _ m₂ _ => hpush m₂) fun _ _ _ => trivial
      have hstart : ((do
          setSlot 0 (.closure r)
          writeRange 1 args
          pushFrame r 0 args.length none : Exec Unit) m₀).Follows (floor J) (fun _ _ => True) m₀ := by
        rw [bind_eq]
        exact (hc.setSlot 0 (.closure r) m₀ hy).bind (fun _ m₁ h₁ => hargs m₁ h₁.1) fun _ _ _ => trivial
      exact hstart.bind (fun _ _ _ => ⟨.refl, trivial⟩) fun _ _ _ => trivial

/-- The frames of a coroutine are closed one by one. -/
theorem proceeds_close {co : Ref .coroutine} {fiber : Fiber}
    (h : Housed (sceneAt below m)) (hp : m.heap.held co = some fiber) (token : Ref .token) :
    Proceeds refused (sceneAt below m)
      (Config.work (.close co token)
        (closeFrames none fiber.calls.depth ((m.park co none).switchTo fiber)) below).scene := by
  let m₀ := (m.park co none).switchTo fiber
  let b : Machine := { m₀ with fiber := { m₀.fiber with calls := {} } }
  have hclose : Proceeds refused (sceneAt below m)
    ⟨co :: closings [] below, co :: hostsOf below, m₀⟩ := .close h hp
  have ha : At b (b.callDepth + fiber.calls.depth) m₀ :=
    ⟨⟨rfl, List.nil_suffix, rfl, rfl, rfl⟩, (Nat.zero_add _).symm⟩
  have hnone : ∀ f : Fault, none = some f → f.isYield = false := fun _ h => nomatch h
  have hframes := closeFrames_follows fiber.calls.depth hnone ha
  exact hclose.trans (.changes hclose.housed (changes_of_follows hframes))

theorem proceeds_ask (q : Query) (hs : Scheduled (closings [] below) m) (h : Housed (sceneAt below m)) :
    Proceeds (Refused m (ask host q m below)) (sceneAt below m) (ask host q m below).scene := by
  have hresponse := response_ask host q m below
  generalize ask host q m below = c at hresponse ⊢
  cases hresponse with
  | refuse _ => exact .refl h
  | place f args _ =>
    have hstable : Stable fun _ => True := ⟨fun _ _ => trivial, fun _ _ => trivial⟩
    have hc := Holds.closed hstable
    have hplace := hc.bind (hc.setSlot m.fiber.freeSlot f) fun _ => hc.writeRange (m.fiber.freeSlot + 1) args
    exact .changes h (changes_of_follows (hplace m trivial))
  | @cancel co c args hc hst hcancel =>
    have hheld := held_setStatus m co
    refine ⟨h.stay rfl rfl rfl (fun q f hf => (hheld q .dead).symm.trans hf) (sizes_setStatus m co _), ?_⟩
    intro q hr hd
    obtain rfl | hq := eq_or_ne q co
    · exact absurd ⟨⟨c, hc, hst, hcancel⟩, rfl⟩ hr
    · obtain ⟨k, hk, hd⟩ := hd
      change (m.setStatus co .dead).heap.coroutine? q = some k at hk
      rw [coroutine?_setStatus, if_neg hq] at hk
      exact .inr ⟨⟨k, hk, hd⟩, hheld q .dead⟩
  | @start co c fiber args hc hst _ hp =>
    exact proceeds_start c.entry args h ((Heap.held_eq_parked hc).trans hp) (hs.parked_of_suspended hc hst hp).2
  | done co => exact .refl h
  | discard _ _ _ => exact .discard h _
  | close hc _ hp => exact proceeds_close h ((Heap.held_eq_parked hc).trans hp) _

theorem proceeds_next {c c' : Config} (hg : Good origin [] c) (h : c.scene.Housed)
    (hn : Next host c c') : Proceeds (Refused c.machine c') c.scene c'.scene := by
  obtain ⟨hsound, hs⟩ := hg
  cases c with
  | work g s below =>
    obtain ⟨o, b, -, ho, hf⟩ := hsound
    cases s with
    | ret a m =>
      cases hn
      exact proceeds_finish ho hf.2 h
    | raise f m =>
      cases hn
      exact proceeds_finish ho hf.2 h
    | ask q m k =>
      cases hn
      have hcl : closings [] (⟨g, q, m, k⟩ :: below) = g.closing ++ closings [] below := by
        simp only [closings, List.flatMap_cons, List.append_assoc]
      have hscene : (Config.work g (.ask q m k) below).scene =
          ⟨closings [] (⟨g, q, m, k⟩ :: below), hostsOf (⟨g, q, m, k⟩ :: below), m⟩ := by
        rw [hcl]
        rfl
      rw [hscene] at h ⊢
      exact proceeds_ask q (hcl ▸ hs) h
  | loop p m below =>
    cases hn
    obtain ⟨o, b, -, ho, hd⟩ := hsound
    have hstep := step_follows host hd
    rw [← stop_eq ho] at hstep
    exact .changes h (changes_of_follows hstep)
  | answer r m below =>
    cases below with
    | nil => cases hn
    | cons lev below =>
      cases hn
      obtain ⟨o, ⟨rfl, o', -, b, -, -, hk⟩, hb, hy⟩ := hsound
      have hscene : (Config.answer r m (lev :: below)).scene =
          ⟨lev.stage.closing ++ closings [] below, lev.stage.host ++ hostsOf below, m⟩ := by
        simp only [scene, closing, closings, List.flatMap_cons, List.append_assoc, hosts, hostsOf, machine]
      rw [hscene] at h ⊢
      exact .changes h (changes_of_follows (hk r m ⟨hb, hy⟩))

theorem proceeds_leads {c c' : Config} (hc : Reachable host c) (h : c.scene.Housed)
    (hl : Leads host c c') : Proceeds (Refused c.machine c') c.scene c'.scene := by
  cases hl with
  | next hn =>
    obtain ⟨origin, hg⟩ := hc.good
    exact proceeds_next hg h hn
  | ask q => exact proceeds_ask q hc.scheduled h
  | act a => exact .quiet h (.act a)
  | watch _ _ _ _ _ _ => exact .still h rfl rfl rfl rfl rfl

theorem Reachable.housed {c : Config} (hc : Reachable host c) : c.scene.Housed := by
  obtain ⟨limits, hpath⟩ := hc
  induction hpath with
  | refl =>
    refine ⟨rfl, List.nodup_nil, ?_, ?_, ?_, rfl⟩
    · exact fun _ h => nomatch h
    · exact fun _ h => nomatch h
    · exact fun _ _ h => nomatch h
  | tail hpath hl ih => exact (proceeds_leads ⟨limits, hpath⟩ ih hl).housed

end Config
end RegisterMachine
