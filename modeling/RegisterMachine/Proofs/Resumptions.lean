import RegisterMachine.Proofs.OpenLists
import RegisterMachine.Proofs.Segments

/-! Yields and resumptions. A coroutine that waits is left alone, whatever else goes on; so a call in it that
has yielded comes to the values of the resumption as if they had been returned at once. -/
namespace RegisterMachine

open Machine Exec

namespace Machine

variable {co : Ref .coroutine} {m m' m'' : Machine} {fiber : Fiber} {l l' : List (Ref .coroutine)}

def IsIdle (co : Ref .coroutine) (m : Machine) : Prop :=
  ∀ k, m.heap.coroutine? co = some k → k.status = .suspended

def SameHome (co : Ref .coroutine) (m m' : Machine) : Prop :=
  ∀ x, m.heap.arenas.get? co.home = some x → m'.heap.arenas.get? co.home = some x

def Knows (co : Ref .coroutine) (m : Machine) : Prop := co.index < m.heap.sizes.2

theorem knows_iff : Knows co m ↔ (m.heap.coroutine? co).isSome := by
  simp [Knows, Heap.sizes, Heap.coroutine?, Store.get?]

/-- What a coroutine that was there holds now it held before, and its arena is as it was. -/
structure Left (co : Ref .coroutine) (m m' : Machine) : Prop where
  knows : Knows co m → Knows co m'
  held : Knows co m → ∀ fiber, m'.heap.held co = some fiber → m.heap.held co = some fiber ∧ SameHome co m m'

theorem Left.refl (co : Ref .coroutine) (m : Machine) : Left co m m :=
  ⟨id, fun _ _ hf => ⟨hf, fun _ hx => hx⟩⟩

theorem Left.trans (h : Left co m m') (h' : Left co m' m'') : Left co m m'' := by
  refine ⟨fun hk => h'.knows (h.knows hk), fun hk fiber hf => ?_⟩
  obtain ⟨hf', ha'⟩ := h'.held (h.knows hk) fiber hf
  obtain ⟨hf'', ha''⟩ := h.held hk fiber hf'
  exact ⟨hf'', fun x hx => ha' x (ha'' x hx)⟩

theorem IsIdle.not_mem (h : IsIdle co m) (hs : Scheduled l m) : co ∉ m.active := by
  intro hco
  obtain ⟨k, hk⟩ := Option.isSome_iff_exists.1 (hs.present co (.inl hco))
  exact hs.not_mem_of_suspended hk (h k hk) hco

theorem held_of_shift (h : Shift l m l' m') (hco : co ∉ m.active) (hf : m'.heap.held co = some fiber) :
    m.heap.held co = some fiber := by
  have hpark {q : Ref .coroutine} (hf : (m.park q none).heap.held co = some fiber) :
      m.heap.held co = some fiber := by
    obtain ⟨-, hp⟩ | ⟨-, hf⟩ := held_park m q co hf
    · cases hp
    · exact hf
  cases h with
  | enterCall => exact hf
  | leaveCall top => exact hf
  | enter _ _ _ =>
    rw [held_enterCoroutine] at hf
    exact hpark hf
  | finish _ _ _ => simpa using hf
  | @yield _ _ q rest f w ha hw _ =>
    rw [held_setStatus] at hf
    obtain ⟨rfl, -⟩ | ⟨-, hf⟩ := held_park _ q co hf
    · rw [ha] at hco
      exact absurd List.mem_cons_self hco
    · simpa using hf
  | refuse _ _ => simpa using hf
  | close _ _ _ => exact hpark hf
  | closed token failure _ _ => simpa using hf
  | discard token _ _ _ =>
    rw [held_endClosing] at hf
    exact hpark hf

theorem sizes_of_shift (h : Shift l m l' m') : m'.heap.sizes = m.heap.sizes := by
  cases h with
  | enterCall => rfl
  | leaveCall top => rfl
  | enter _ _ _ => exact sizes_enterCoroutine _ _ _
  | close _ _ _ => exact sizes_park _ _ _
  | _ => simp

theorem left_of_shift (h : Shift l m l' m') (hco : co ∉ m.active) : Left co m m' := by
  refine ⟨fun hk => ?_, fun _ fiber hf => ⟨held_of_shift h hco hf, fun x hx => ?_⟩⟩
  · rw [Knows, sizes_of_shift h]
    exact hk
  · rw [(Switched.shift h).heap]
    exact hx

/-- The coroutines stay as they are, and so does the arena of one of them while another fiber runs. -/
structure Leaves (co : Ref .coroutine) (m m' : Machine) : Prop where
  same : SameCoroutines m m'
  running : m'.fiber.arena = m.fiber.arena
  home : m.fiber.arena ≠ co.home → SameHome co m m'

namespace Leaves

theorem of_eq (hs : SameCoroutines m m') (hr : m'.fiber.arena = m.fiber.arena)
    (ha : m'.heap.arenas = m.heap.arenas) : Leaves co m m' := by
  refine ⟨hs, hr, fun _ x hx => ?_⟩
  rw [ha]
  exact hx

theorem of_modifyArena {a : Ref .arena} (g : Arena → Arena) (h : m.fiber.arena ≠ co.home → a ≠ co.home) :
    Leaves co m (m.modifyHeap (·.modifyArena a g)) := by
  refine ⟨.of_eq rfl rfl, rfl, fun hne x hx => ?_⟩
  show (m.heap.arenas.modify a g).get? co.home = some x
  rw [Store.get?_modify_of_ne _ (h hne)]
  exact hx

instance (co : Ref .coroutine) : IsTrans Machine (Leaves co) where
  trans _ _ _ h h' := by
    refine ⟨h.same.trans h'.same, h'.running.trans h.running, fun hne x hx => ?_⟩
    exact h'.home (by rw [h.running]; exact hne) x (h.home hne x hx)

end Leaves

instance : IsTrans Machine SameCoroutines := ⟨fun _ _ _ h h' => h.trans h'⟩

theorem lasts_sameCoroutines : Lasts SameCoroutines where
  refl _ := .of_eq rfl rfl
  act _ a := .quiet (.act a)
  plain h := .quiet h.quiet
  goto _ _ := .of_eq rfl rfl
  capture _ _ := .of_eq rfl rfl
  enter _ := .of_eq rfl rfl
  await _ _ := .of_eq rfl rfl
  drop _ := .of_eq rfl (coroutines_closeBrokers _ _)
  mark _ _ := .of_eq rfl rfl
  part _ _ := .of_eq rfl (coroutines_closeBrokers _ _)

theorem lasts_leaves (co : Ref .coroutine) : Lasts (Leaves co) where
  refl m := .of_eq (lasts_sameCoroutines.refl m) rfl rfl
  act m a := by
    refine ⟨.quiet (.act a), ?_, fun _ x hx => ?_⟩
    · rw [(Quiet.act a).same.1]
    · cases a with
      | newCoroutine entry =>
        have hsome : (m.heap.arenas.get? co.home).isSome := by rw [hx]; rfl
        exact (Store.get?_alloc_of_isSome _ _ _ hsome).trans hx
      | load p => exact (congrArg (·.get? co.home) (Loaded.load m p).arenas).trans hx
      | _ => exact hx
  plain h := by
    cases h with
    | write op _ => exact .of_modifyArena _ id
    | _ => exact .of_eq (.of_eq rfl rfl) rfl rfl
  goto hf g := .of_eq (lasts_sameCoroutines.goto hf g) rfl rfl
  capture hf hb := .of_eq (lasts_sameCoroutines.capture hf hb) rfl rfl
  enter h := .of_eq (lasts_sameCoroutines.enter h) rfl rfl
  await m p := .of_eq (lasts_sameCoroutines.await m p) rfl rfl
  drop hp := .of_eq (lasts_sameCoroutines.drop hp) rfl (arenas_closeBrokers _ _)
  mark slot hf := .of_eq (lasts_sameCoroutines.mark slot hf) rfl rfl
  part start hf := .of_eq (lasts_sameCoroutines.part start hf) rfl (arenas_closeBrokers _ _)

end Machine

namespace Config

variable {host : Host} {c c' : Config} {co : Ref .coroutine} {fiber : Fiber}

/-- The next instruction assigns to a variable that is live over an arena. -/
def Assigns (a : Ref .arena) : Config → Prop
  | .loop _ m _ => ∃ f w r slot, Due m f w ∧ w.opcode? = some .setUpval ∧
      f.closure.brokers[w.b.toNat]? = some r ∧ m.heap.brokers.get? r = some (.live a slot)
  | _ => False

/-- What happens while a coroutine is not resumed, and no variable that is live over an arena is assigned. -/
def Meanwhile (host : Host) (co : Ref .coroutine) (a : Ref .arena) : Config → Config → Prop :=
  Relation.ReflTransGen fun c c' => Leads host c c' ∧ ¬c.Assigns a ∧ IsIdle co c'.machine

theorem Meanwhile.leadsTo {a : Ref .arena} (h : Meanwhile host co a c c') : LeadsTo host c c' :=
  h.lift id fun _ _ h => h.1

/-- An assignment to a variable that is not live over the arena of the coroutine. -/
theorem leaves_of_assign {p : Purpose} {m : Machine} {below : List Level} {f : Frame} {w : Word}
    (ha : ¬(Config.loop p m below).Assigns co.home) (hd : Due m f w) (hop : w.opcode? = some .setUpval) :
    Leaves co m (Exec.step host p.stop m).machine := by
  have hskip : Leaves co m (m.modifyFrame Frame.skip) := .of_eq (.of_eq rfl rfl) rfl rfl
  obtain ⟨-, e, he⟩ | ⟨r, hr, he⟩ := step_assign host p.stop hd hop <;> rw [he]
  · exact hskip
  · obtain ⟨a, slot, hlive, ⟨-, hs⟩ | ⟨-, hs⟩⟩ | ⟨-, hs⟩ := setBroker_cases r (m.arena.get (f.base + w.a.toNat))
      (m.modifyFrame Frame.skip) <;> rw [hs]
    · exact hskip
    · have hne : a ≠ co.home := by
        rintro rfl
        exact ha ⟨f, w, r, slot, hd, hop, hr, hlive⟩
      exact IsTrans.trans _ _ _ hskip (.of_modifyArena _ fun _ => hne)
    · exact .of_eq (.of_eq rfl rfl) rfl rfl

theorem Reachable.arena_ne (hc : Reachable host c) (hf : c.machine.heap.held co = some fiber) :
    fiber.arena = co.home ∧ c.machine.fiber.arena ≠ co.home := by
  obtain ⟨ha, hco⟩ := hc.housed.held co fiber hf
  refine ⟨ha, fun hne => ?_⟩
  have hmem : c.machine.fiber.arena ∈ c.hosts.map Ref.home ++ [⟨0⟩] := by
    have harenas := hc.housed.arenas
    exact harenas ▸ List.mem_cons_self
  rw [hne, List.mem_append, List.mem_singleton] at hmem
  obtain hmem | hmem := hmem
  · obtain ⟨q, hq, he⟩ := List.mem_map.1 hmem
    exact hco (Ref.home_injective he ▸ hq)
  · exact co.home_ne_first hmem

theorem left_of_leaves {m : Machine} (hc : Reachable host c) (h : Leaves co m c.machine) :
    Left co m c.machine := by
  have hold (hk : Knows co m) : ∃ k k', m.heap.coroutine? co = some k ∧
      c.machine.heap.coroutine? co = some k' ∧ k'.parked = k.parked := by
    obtain ⟨k, hk⟩ := Option.isSome_iff_exists.1 (knows_iff.1 hk)
    obtain ⟨k', hk', -, hp⟩ := h.same.old co k hk
    exact ⟨k, k', hk, hk', hp⟩
  refine ⟨fun hk => ?_, fun hk fiber hf => ?_⟩
  · obtain ⟨k, k', -, hk', -⟩ := hold hk
    rw [knows_iff, hk']
    rfl
  · obtain ⟨k, k', hk, hk', hp⟩ := hold hk
    have hheld : m.heap.held co = c.machine.heap.held co := by
      rw [Heap.held_eq_parked hk, Heap.held_eq_parked hk', hp]
    have hne := (hc.arena_ne hf).2
    rw [h.running] at hne
    exact ⟨hheld.trans hf, h.home hne⟩

theorem left_next (hc : Reachable host c) (hl : Leads host c c') (ha : ¬c.Assigns co.home)
    (hi : IsIdle co c.machine) : Left co c.machine c'.machine := by
  obtain ⟨m, hm, h⟩ := (hc.passes (covers_of_lasts host (lasts_leaves co)) hl).relates
    (fun he ⟨_, _, hd, hop⟩ => leaves_of_assign (he ▸ ha) hd hop)
    fun _ _ _ _ _ _ _ => .of_eq (.of_eq rfl rfl) rfl rfl
  have hleft := left_of_leaves (hc.trans (.single hl)) h
  obtain rfl | hs := hm
  · exact hleft
  · exact (left_of_shift hs (hi.not_mem hc.scheduled)).trans hleft

theorem left_of_meanwhile (hc : Reachable host c) (hi : IsIdle co c.machine)
    (h : Meanwhile host co co.home c c') : Left co c.machine c'.machine := by
  have hboth : Left co c.machine c'.machine ∧ IsIdle co c'.machine := by
    induction h with
    | refl => exact ⟨.refl co _, hi⟩
    | tail hm hl ih =>
      have hc' := hc.trans (Meanwhile.leadsTo hm)
      exact ⟨ih.1.trans (left_next hc' hl.1 hl.2.1 ih.2), hl.2.2⟩
  exact hboth.1

end Config

/-- A call by an instruction is due, of what is in a slot and with a number of arguments behind it; it is made
at the other machine. -/
inductive Calls (m : Machine) : Nat → Nat → Option Nat → Machine → Prop
  | call {f : Frame} {w : Word} : Due m f w → w.opcode? = some .call →
      Calls m (f.base + w.a.toNat) (listCount m w.b (f.base + w.a.toNat + 1)) w.wanted
        (m.modifyFrame Frame.skip)
  /-- A call in tail position of what is no closure. -/
  | tail {f : Frame} {w : Word} : Due m f w → w.opcode? = some .tailCall →
      (∀ r, m.arena.get (f.base + w.a.toNat) ≠ .closure r) →
      Calls m (f.base + w.a.toNat) (listCount m w.b (f.base + w.a.toNat + 1)) none
        (m.modifyFrame Frame.skip)
  /-- A call of the step function of a loop, on copies of the state of the loop. -/
  | generic {f : Frame} {w : Word} {m₀ : Machine} : Due m f w → w.opcode? = some .tforCall →
      writeRange (f.base + w.a.toNat + 3) (m.arena.readRange (f.base + w.a.toNat) 3)
        (m.modifyFrame Frame.skip) = .ret () m₀ →
      Calls m (f.base + w.a.toNat + 3) 2 (some w.c.toNat) m₀

/-- The step is the call. -/
theorem Calls.step_eq {m m₀ : Machine} {slot count : Nat} {wanted : Option Nat}
    (h : Calls m slot count wanted m₀) (host : Host) (stop : Nat) :
    step host stop m = (callAt host slot count wanted m₀).bind fun _ m => .ret none m := by
  cases h with
  | @call f w hd hop =>
    rw [hd.step_eq host stop hop fun h => nomatch h]
    exact congrArg (Step.bind · _) (call_eq (f := f.skip) host w hd.frame?_skip)
  | @tail f w hd hop hne =>
    rw [hd.step_eq host stop hop fun h => nomatch h]
    exact congrArg (Step.bind · _) (tailCall_of_ne (f := f.skip) host w hd.frame?_skip hne)
  | @generic f w _ hd hop hw =>
    rw [hd.step_eq host stop hop fun h => nomatch h]
    refine congrArg (Step.bind · _) ?_
    show Instruction.genericCall host w _ = _
    unfold Instruction.genericCall
    simp only [bind_eq, Exec.base, readRange, Exec.read, Step.bind, base_eq hd.frame?_skip]
    exact congrArg (Step.bind · _) hw

/-- The call comes, directly or over handlers, to a native function that yields values at a machine. -/
inductive Pauses (host : Host) (m : Machine) : Nat → Option Nat → List Value → Machine → Prop
  | intro {slot count n time : Nat} {wanted : Option Nat} {r : Ref .native} {vs : List Value}
      {m₀ m₁ m₂ : Machine} : Calls m slot count wanted m₀ →
      resolve slot count m₀ = .ret (.native r, n) m₂ →
      (invokeNative host r (m₂.arena.readRange (slot + 1) n) m₂).run (serve host time) =
        some (.error (.yield vs), m₁) →
      Pauses host m slot wanted vs m₁

def Site.inCoroutine (co : Ref .coroutine) (slot : Nat) (wanted : Option Nat) : Site :=
  .instruction (.resume co) slot wanted fun _ m => .ret none m

namespace Config

variable {host : Host} {c : Config} {co : Ref .coroutine} {slot : Nat} {wanted : Option Nat}
  {vs ws : List Value} {m m₁ : Machine} {below low : List Level}

theorem runs_of_pauses (h : Pauses host m slot wanted vs m₁) : Runs host (.loop (.resume co) m below)
    ((Site.inCoroutine co slot wanted).calling (.raise (.yield vs) m₁) below) := by
  cases h with
  | intro hcalls hresolve hrun =>
    refine .of_next ?_ (Site.runs_calling (served_serve _) _ below hrun)
    refine congrArg (fun s => some (Config.work (.run (.resume co) true) s below)) ?_
    exact (hcalls.step_eq host 0).trans (Site.callAt_native (.resume co) wanted _ hresolve)

end Config

theorem Heap.eq_of_coroutines {h h' : Heap} (hrest : h' = { h with coroutines := h'.coroutines })
    (hget : ∀ co, h'.coroutine? co = h.coroutine? co) : h' = h := by
  have hitems : h'.coroutines.items = h.coroutines.items := Array.ext_getElem? fun i => hget ⟨i⟩
  have hstore : h'.coroutines = h.coroutines := by
    cases hc : h'.coroutines
    cases hc' : h.coroutines
    rw [hc, hc'] at hitems
    exact congrArg Store.mk hitems
  rw [hrest, hstore]

namespace Machine

variable {co : Ref .coroutine} {m m' : Machine} {l : List (Ref .coroutine)} {o : Fiber} {w : List Fiber}

def yielded (m : Machine) (co : Ref .coroutine) (p : Pending) : Machine :=
  ((m.await p).leaving.park co (some (m.await p).fiber)).setStatus co .suspended

/-- Nothing has changed but the coroutines, and which fibers run and wait. -/
def Moved (m m' : Machine) : Prop :=
  ∃ coroutines fiber waiting active nativeDepth,
    m' = { m with heap := { m.heap with coroutines }, fiber, waiting, active, nativeDepth }

namespace Moved

theorem trans {m'' : Machine} (h : Moved m m') (h' : Moved m' m'') : Moved m m'' := by
  obtain ⟨cs, f, w, a, d, rfl⟩ := h
  obtain ⟨cs', f', w', a', d', rfl⟩ := h'
  exact ⟨cs', f', w', a', d', rfl⟩

theorem park (m : Machine) (co : Ref .coroutine) (parked : Option Fiber) : Moved m (m.park co parked) :=
  ⟨_, _, _, _, _, rfl⟩

theorem setStatus (m : Machine) (co : Ref .coroutine) (status : Status) : Moved m (m.setStatus co status) :=
  ⟨_, _, _, _, _, rfl⟩

theorem setActiveStatus (m : Machine) (status : Status) : Moved m (m.setActiveStatus status) := by
  unfold Machine.setActiveStatus
  split
  · exact setStatus m _ status
  · exact ⟨_, _, _, _, _, rfl⟩

theorem leaving (m : Machine) : Moved m m.leaving := by
  refine trans ?_ (setActiveStatus _ .running)
  unfold switchBack
  split <;> exact ⟨_, _, _, _, _, rfl⟩

theorem enterCoroutine (m : Machine) (co : Ref .coroutine) (fiber : Fiber) :
    Moved m (m.enterCoroutine co fiber) := by
  refine trans (((park m co none).trans (setActiveStatus _ .normal)).trans (setStatus _ co .running)) ?_
  exact ⟨_, _, _, _, _, rfl⟩

theorem arenas_eq (h : Moved m m') : m'.heap.arenas = m.heap.arenas := by
  obtain ⟨cs, f, w, a, d, rfl⟩ := h
  rfl

theorem closure_eq (h : Moved m m') (r : Ref .closure) : m'.heap.closure r = m.heap.closure r := by
  obtain ⟨cs, f, w, a, d, rfl⟩ := h
  rfl

theorem eq_of_balanced (h : Moved m m') (hb : Balanced m m')
    (hc : ∀ q, m'.heap.coroutine? q = m.heap.coroutine? q) : m' = m := by
  obtain ⟨cs, f, w, a, d, rfl⟩ := h
  have hheap : { m.heap with coroutines := cs } = m.heap := Heap.eq_of_coroutines rfl hc
  obtain rfl : f = m.fiber := hb.fiber
  obtain rfl : w = m.waiting := hb.waiting
  obtain rfl : a = m.active := hb.active
  obtain rfl : d = m.nativeDepth := hb.nativeDepth
  rw [hheap]

theorem yielded (m : Machine) (co : Ref .coroutine) (p : Pending) : Moved m (m.yielded co p) :=
  ((trans ⟨_, _, _, _, _, rfl⟩ (leaving (m.await p))).trans (park _ co _)).trans (setStatus _ co _)

end Moved

/-- Where its fiber goes on at once, the machine is what it was. -/
theorem enterCoroutine_yielded {rest : List (Ref .coroutine)} (p : Pending) (hs : Scheduled l m)
    (ha : m.active = co :: rest) (hw : m.waiting = o :: w) (hd : 0 < m.nativeDepth) :
    (m.yielded co p).enterCoroutine co m.fiber = m := by
  have hdrop : (m.await p).active.drop 1 = rest := congrArg (List.drop 1) ha
  have hleaving : (m.await p).leaving = setActiveStatus
      { m.await p with active := rest, nativeDepth := m.nativeDepth - 1, fiber := o, waiting := w } .running := by
    have h := Config.leaving_eq (m := m.await p) hw
    rw [hdrop] at h
    exact h
  have hactive : (m.yielded co p).active = rest := (active_leaving (m.await p)).trans hdrop
  have hcoroutine (q : Ref .coroutine) :
      ((m.yielded co p).enterCoroutine co m.fiber).heap.coroutine? q = m.heap.coroutine? q := by
    have hleft : (m.await p).leaving.heap.coroutine? q = if rest.head? = some q then
        (m.heap.coroutine? q).map fun c => { c with status := .running } else m.heap.coroutine? q := by
      rw [coroutine?_leaving, hdrop]
      rfl
    rw [coroutine?_enterCoroutine, hactive, yielded, coroutine?_setStatus, coroutine?_park, hleft]
    by_cases hq : q = co
    · subst hq
      have hhead : rest.head? ≠ some q := fun hh =>
        (List.nodup_cons.1 (ha ▸ hs.nodup)).1 (List.mem_of_mem_head? hh)
      simp only [if_true, if_neg hhead]
      cases hk : m.heap.coroutine? q with
      | none => rfl
      | some k =>
        obtain ⟨hst, hp⟩ := (Coroutine.fits_of_head (by rw [ha]; rfl)).1 (hs.fits q k hk)
        show some { k with parked := none, status := .running } = some k
        rw [← hst, ← hp]
    · simp only [if_neg hq]
      by_cases hh : rest.head? = some q
      · simp only [if_pos hh]
        cases hk : m.heap.coroutine? q with
        | none => rfl
        | some k =>
          have hmem : q ∈ m.active := ha ▸ List.mem_cons_of_mem co (List.mem_of_mem_head? hh)
          have hhead : m.active.head? ≠ some q := by
            rw [ha]
            exact fun h => hq (Option.some.inj h).symm
          obtain ⟨hst, -⟩ := (Coroutine.fits_of_tail hhead hmem).1 (hs.fits q k hk)
          show some { k with status := .normal } = some k
          rw [← hst]
      · simp only [if_neg hh]
  refine ((Moved.yielded m co p).trans (.enterCoroutine _ co _)).eq_of_balanced ⟨rfl, ?_, ?_, ?_⟩ hcoroutine
  · rw [waiting_enterCoroutine, hw]
    show (m.await p).leaving.fiber :: (m.await p).leaving.waiting = o :: w
    rw [hleaving, fiber_setActiveStatus, waiting_setActiveStatus]
  · rw [active_enterCoroutine, ha, hactive]
  · rw [nativeDepth_enterCoroutine]
    show (m.await p).leaving.nativeDepth + 1 = m.nativeDepth
    rw [hleaving, nativeDepth_setActiveStatus]
    exact Nat.sub_add_cancel hd

/-- A resumption of the coroutine goes through. -/
def Admits (co : Ref .coroutine) (m : Machine) : Prop :=
  ∃ k fiber, m.heap.coroutine? co = some k ∧ k.status = .suspended ∧ k.parked = some fiber ∧
    m.isCancelled k.token = false ∧ m.nativeDepth < m.limits.maxNativeDepth

structure SameUnit (m m' : Machine) : Prop where
  fiber : m'.fiber = m.fiber
  arena : m'.arena = m.arena

/-- The running fiber is that of a coroutine that was resumed at a machine, and can yield. -/
structure Hosted (o : Machine) (co : Ref .coroutine) (m : Machine) : Prop where
  isYieldable : m.fiber.isYieldable = true
  pending : m.fiber.pending = none
  waiting : m.waiting = o.fiber :: o.waiting
  active : m.active = co :: o.active
  nativeDepth : m.nativeDepth = o.nativeDepth + 1

theorem Hosted.of_above {o b : Machine} (h : Resumed o co b) (ha : Above b m) : Hosted o co m := by
  refine ⟨?_, ?_, ha.waiting.trans h.waiting, ha.active.trans h.active, ha.nativeDepth.trans h.nativeDepth⟩
  · rw [Fiber.isYieldable, ha.fiber]
    simp [h.isCoroutine, h.nested]
  · rw [ha.fiber]
    exact h.pending

theorem stable_hosted (o : Machine) (co : Ref .coroutine) : Stable (Hosted o co) where
  quiet hq h := by
    obtain ⟨hf, hw, ha, hd, -⟩ := hq.same
    refine ⟨?_, ?_, hw.trans h.waiting, ha.trans h.active, hd.trans h.nativeDepth⟩
    · rw [hf]
      exact h.isYieldable
    · rw [hf]
      exact h.pending
  balanced hb h := by
    refine ⟨?_, ?_, hb.waiting.trans h.waiting, hb.active.trans h.active, hb.nativeDepth.trans h.nativeDepth⟩
    · rw [hb.fiber]
      exact h.isYieldable
    · rw [hb.fiber]
      exact h.pending

end Machine

/-- Results are placed in the same way in the same unit. -/
theorem Exec.placeResults_sameUnit {m m' : Machine} (h : SameUnit m m') (slot : Nat) (wanted : Option Nat)
    (vs : List Value) :
    (placeResults slot wanted vs m = .raise .stackOverflow m ∧
      placeResults slot wanted vs m' = .raise .stackOverflow m') ∨
    ∃ n n', placeResults slot wanted vs m = .ret () n ∧ placeResults slot wanted vs m' = .ret () n' ∧
      SameUnit n n' := by
  rw [placeResults_eq, bind_eq, bind_eq, write, write, h.arena]
  split
  · rename_i hfit
    refine .inr ⟨_, _, rfl, rfl, ?_, ?_⟩
    · let op := Arena.Op.putRange slot (cutTo wanted vs)
      have htop : topAfter slot wanted vs (m'.modifyArena op.apply) =
          topAfter slot wanted vs (m.modifyArena op.apply) := by
        have hframe : (m'.modifyArena op.apply).frame? = (m.modifyArena op.apply).frame? :=
          congrArg (fun fiber => fiber.calls.top?) h.fiber
        cases wanted with
        | none => rfl
        | some n => rw [topAfter, topAfter, hframe]
      show ((m'.modifyArena op.apply).setTop _).fiber = ((m.modifyArena op.apply).setTop _).fiber
      rw [htop]
      exact congrArg (fun fiber => { fiber with top := topAfter slot wanted vs (m.modifyArena op.apply) }) h.fiber
    · have hfit' : (Arena.Op.putRange slot (cutTo wanted vs)).fits m'.arena := by rwa [h.arena]
      show (m'.modifyArena _).arena = (m.modifyArena _).arena
      rw [arena_modifyArena hfit, arena_modifyArena hfit', h.arena]
  · exact .inl ⟨rfl, rfl⟩

/-- Values that are returned at the site are placed, and that is all. -/
theorem Site.fill_ret (co : Ref .coroutine) (slot : Nat) (wanted : Option Nat) (vs : List Value) (m : Machine) :
    (Site.inCoroutine co slot wanted).fill (.ret vs m) =
      (placeResults slot wanted vs m).bind fun _ m => .ret none m := by
  show Step.bind (Step.handle (placeResults slot wanted vs m) _) _ = _
  obtain ⟨-, h⟩ | ⟨-, m', h, -⟩ := placeResults_cases slot wanted vs m <;> rw [h] <;> rfl

namespace Config

variable {host : Host} {c : Config} {co : Ref .coroutine} {slot : Nat} {wanted : Option Nat}
  {vs ws : List Value} {m m₁ o : Machine} {below low : List Level} {l : List (Ref .coroutine)}

theorem hosted_of_pauses (hs : Scheduled l m) (ho : Hosted o co m) (h : Pauses host m slot wanted vs m₁) :
    Hosted o co m₁ ∧ Scheduled l m₁ := by
  cases h with
  | intro hcalls hresolve hrun =>
    rename_i count n time r m₀ m₂
    have h₀ : Hosted o co m₀ ∧ Scheduled l m₀ := by
      have hskip : Hosted o co (m.modifyFrame Frame.skip) := ⟨ho.1, ho.2, ho.3, ho.4, ho.5⟩
      cases hcalls with
      | call _ _ => exact ⟨hskip, scheduled_skip hs⟩
      | tail _ _ _ => exact ⟨hskip, scheduled_skip hs⟩
      | @generic f w _ _ _ hw =>
        unfold writeRange at hw
        split at hw
        · rename_i hfit
          cases hw
          have hq := Quiet.write (.putRange (f.base + w.a.toNat + 3)
            (m.arena.readRange (f.base + w.a.toNat) 3)) hfit
          exact ⟨(stable_hosted o co).quiet hq hskip, (scheduled_skip hs).same (.quiet hq)⟩
        · cases hw
    have hbegin : (begin host slot count wanted m₀).run (serve host time) = some (.error (.yield vs), m₁) := by
      rw [Site.begin_native 0 0 wanted hresolve]
      exact (Step.run_bind _ _ _).trans (by rw [hrun]; rfl)
    obtain ⟨h₁, hmoves⟩ := moves_of_follows
      (begin_from (stable_hosted o co) slot count wanted h₀.1) h₀.2 hbegin
    exact ⟨h₁, scheduled_moves h₀.2 hmoves⟩

/-- A call in a coroutine has yielded at a machine, and the coroutine is resumed with values: in a unit that is
the same it goes on as if the values had been returned, and comes to the same as they would have at once. -/
structure Rejoins (host : Host) (co : Ref .coroutine) (slot : Nat) (wanted : Option Nat) (m₁ : Machine)
    (below : List Level) (ws : List Value) (m : Machine) (low : List Level) : Prop where
  unit : SameUnit m₁ (m.enterCoroutine co m₁.fiber)
  returns : ask host (.resume co ws) m low =
    (Site.inCoroutine co slot wanted).calling (.ret ws (m.enterCoroutine co m₁.fiber)) low
  outcome : ∃ r m₂ m₃, SameUnit m₂ m₃ ∧
    next host ((Site.inCoroutine co slot wanted).calling (.ret ws m₁) below) =
      some (finish host (.run (.resume co) true) r m₂ below) ∧
    next host (ask host (.resume co ws) m low) = some (finish host (.run (.resume co) true) r m₃ low)

theorem rejoins_of_ask (hunit : SameUnit m₁ (m.enterCoroutine co m₁.fiber))
    (hask : ask host (.resume co ws) m low =
      (Site.inCoroutine co slot wanted).calling (.ret ws (m.enterCoroutine co m₁.fiber)) low) :
    Rejoins host co slot wanted m₁ below ws m low := by
  refine ⟨hunit, hask, ?_⟩
  have hcalling (x : Machine) (low : List Level) :
      (Site.inCoroutine co slot wanted).calling (.ret ws x) low = .work (.run (.resume co) true)
        ((placeResults slot wanted ws x).bind fun _ m => .ret none m) low :=
    congrArg (fun s => Config.work (.run (.resume co) true) s low) (Site.fill_ret co slot wanted ws x)
  rw [hask, hcalling, hcalling]
  obtain ⟨h, h'⟩ | ⟨n, n', h, h', hn⟩ := placeResults_sameUnit hunit slot wanted ws <;> rw [h, h']
  · exact ⟨.error .stackOverflow, _, _, hunit, rfl, rfl⟩
  · exact ⟨.ok none, n, n', hn, rfl, rfl⟩

/-- A unit that was left alone is the same when it goes on. -/
theorem sameUnit_of_left {p : Pending} {cfg : Config} (hc : Reachable host cfg)
    (hm : cfg.machine = m₁.yielded co p) (hheld : cfg.machine.heap.held co = some (m₁.await p).fiber)
    (hleft : SameHome co cfg.machine m) : SameUnit m₁ (m.enterCoroutine co m₁.fiber) := by
  refine ⟨rfl, ?_⟩
  obtain ⟨harena, -⟩ := hc.arena_ne hheld
  have hknows : Knows co cfg.machine := by
    obtain ⟨k, hk, -⟩ := Option.bind_eq_some_iff.1 hheld
    rw [knows_iff, hk]
    rfl
  have hsize : co.index + 1 < cfg.machine.heap.arenas.items.size := by
    have hsizes := hc.housed.size
    change cfg.machine.heap.sizes.1 = cfg.machine.heap.sizes.2 + 1 at hsizes
    change co.index + 1 < cfg.machine.heap.sizes.1
    rw [hsizes]
    exact Nat.succ_lt_succ hknows
  obtain ⟨x, hx⟩ : ∃ x, cfg.machine.heap.arenas.get? co.home = some x := ⟨_, Array.getElem?_eq_getElem hsize⟩
  have hhome : m₁.fiber.arena = co.home := harena
  show (m.enterCoroutine co m₁.fiber).heap.arena m₁.fiber.arena = m₁.heap.arena m₁.fiber.arena
  rw [Heap.arena_eq, Heap.arena_eq, hhome, (Moved.enterCoroutine m co m₁.fiber).arenas_eq, hleft x hx,
    ← (Moved.yielded m₁ co p).arenas_eq, ← hm, hx]

/-- Whatever happens meanwhile, a call that has yielded comes to the values of the resumption. -/
theorem rejoins_of_pauses (hc : Reachable host (.loop (.resume co) m below))
    (h : Pauses host m slot wanted vs m₁) :
    Runs host ((Site.inCoroutine co slot wanted).calling (.raise (.yield vs) m₁) below)
      (.answer (.ok ⟨vs, true⟩) (m₁.yielded co (.call slot wanted)) below) ∧
    (m₁.yielded co (.call slot wanted)).enterCoroutine co m₁.fiber = m₁ ∧
    ∀ {c ws low}, Meanwhile host co m₁.fiber.arena
        (.answer (.ok ⟨vs, true⟩) (m₁.yielded co (.call slot wanted)) below) c →
      Admits co c.machine → Rejoins host co slot wanted m₁ below ws c.machine low := by
  obtain ⟨origin, hg⟩ := hc.good
  obtain ⟨o, b, -, ho, hdeep⟩ := hg.sound
  obtain ⟨hhosted, hs⟩ := hosted_of_pauses hg.scheduled (.of_above ho hdeep.1) h
  have hpresent := hs.present co (.inl (hhosted.active ▸ List.mem_cons_self))
  have hstopped := stopped_of_yield (m := m₁.await (.call slot wanted)) hhosted.waiting hhosted.active hpresent
  have hruns : Runs host ((Site.inCoroutine co slot wanted).calling (.raise (.yield vs) m₁) below)
      (.answer (.ok ⟨vs, true⟩) (m₁.yielded co (.call slot wanted)) below) := by
    obtain ⟨guarded, hcalling⟩ : ∃ guarded,
        (Site.inCoroutine co slot wanted).calling (.raise (.yield vs) m₁) below =
          .work (.run (.resume co) guarded) (.raise (.yield vs) (m₁.await (.call slot wanted))) below :=
      Site.calling_yield_of_isYieldable rfl hhosted.isYieldable
    rw [hcalling]
    exact runs_of_yield co guarded vs _ below
  refine ⟨hruns, enterCoroutine_yielded _ hs hhosted.active hhosted.waiting (by rw [hhosted.nativeDepth]; omega), ?_⟩
  intro c ws low hmeanwhile hadmits
  have hparked : Reachable host (.answer (.ok ⟨vs, true⟩) (m₁.yielded co (.call slot wanted)) below) :=
    hc.trans (leadsTo_of_runs ((runs_of_pauses h).trans hruns))
  have hidle : IsIdle co (m₁.yielded co (.call slot wanted)) := by
    intro k hk
    have hst : (m₁.yielded co (.call slot wanted)).heap.status co = .suspended := hstopped.status
    rw [Heap.status, ← Heap.coroutine?, hk] at hst
    exact hst
  have hheld : (m₁.yielded co (.call slot wanted)).heap.held co = some (m₁.await (.call slot wanted)).fiber :=
    hstopped.held
  have hhome : m₁.fiber.arena = co.home := (hparked.arena_ne hheld).1
  rw [hhome] at hmeanwhile
  have hleft := left_of_meanwhile hparked hidle hmeanwhile
  obtain ⟨k, fiber, hk, hst, hp, halive, hroom⟩ := hadmits
  have hknows : Knows co (m₁.yielded co (.call slot wanted)) := by
    obtain ⟨k, hk, -⟩ := Option.bind_eq_some_iff.1 hheld
    rw [knows_iff, hk]
    rfl
  obtain ⟨hheld', hsame⟩ := hleft.held hknows fiber ((Heap.held_eq_parked hk).trans hp)
  obtain rfl : (m₁.await (.call slot wanted)).fiber = fiber := Option.some.inj (hheld.symm.trans hheld')
  have hfiber : { (m₁.await (.call slot wanted)).fiber with pending := none } = m₁.fiber := by
    rw [← hhosted.pending]
    rfl
  refine rejoins_of_ask (sameUnit_of_left hparked rfl hheld hsame) ?_
  have hask : ask host (.resume co ws) c.machine low = .work (.run (.resume co) true)
      ((placeResults slot wanted ws (c.machine.enterCoroutine co
        { (m₁.await (.call slot wanted)).fiber with pending := none })).bind fun () m => .ret none m) low :=
    ask_resume hk hst halive hroom hp rfl
  rw [hfiber] at hask
  refine hask.trans ?_
  exact congrArg (fun s => Config.work (.run (.resume co) true) s low)
    (Site.fill_ret co slot wanted ws _).symm

end Config

/-- A closure and its arguments are put in front of all others, and a frame is opened on them, unless there is
no room for it. -/
theorem Exec.enter_receives (r : Ref .closure) (args : List Value) (m : Machine) :
    (∃ m', (do setSlot 0 (.closure r); writeRange 1 args; pushFrame r 0 args.length none : Exec Unit) m =
      .raise .stackOverflow m') ∨
    ∃ m' f old, (do setSlot 0 (.closure r); writeRange 1 args; pushFrame r 0 args.length none : Exec Unit) m =
      .ret () m' ∧ m'.fiber.calls.frames = f :: m.fiber.calls.frames ∧ f.closure = m.heap.closure r ∧
        f.Receives args old m'.arena := by
  have hstart : (do setSlot 0 (.closure r); writeRange 1 args; pushFrame r 0 args.length none : Exec Unit) m =
      (place 0 (.closure r) args >>= fun _ => pushFrame r 0 args.length none) m := by
    rw [place, bind_assoc]
    rfl
  rw [hstart, bind_eq]
  obtain ⟨-, m₁, h₁, -⟩ | ⟨-, m₁, h₁, laid⟩ := place_cases 0 (.closure r) args m <;> rw [h₁]
  · exact .inl ⟨m₁, rfl⟩
  have hthen : (Step.ret () m₁).bind (fun _ => pushFrame r 0 args.length none) =
    pushFrame r 0 args.length none m₁ := rfl
  rw [hthen]
  obtain ⟨m₂, hq, h₂ | ⟨-, h₂⟩⟩ := pushFrame_cases r 0 args.length none m₁
  · exact .inl ⟨m₂, h₂⟩
  · have hreceives := receives_of_pushFrame h₂
    rw [laid.args] at hreceives
    have hcalls : m₂.fiber.calls = m₁.fiber.calls :=
      (stable_calls (· = m₁.fiber.calls)).path hq rfl
    refine .inr ⟨_, newFrame m₁ r 0 args.length none, m₁.arena, h₂, ?_, ?_, hreceives⟩
    · show _ :: m₂.fiber.calls.frames = _
      rw [hcalls, laid.only]
    · show m₁.heap.closure r = _
      rw [laid.only]
      rfl

namespace Config

variable {host : Host} {c c' : Config} {co : Ref .coroutine} {ws : List Value} {low : List Level}

/-- All that has happened so far, while the coroutine was not resumed. -/
def Unstarted (host : Host) (co : Ref .coroutine) (c : Config) : Prop :=
  ∃ limits, Relation.ReflTransGen (fun c c' => Leads host c c' ∧ IsIdle co c'.machine) (initial limits) c

theorem Unstarted.reachable (h : Unstarted host co c) : Reachable host c := by
  obtain ⟨limits, h⟩ := h
  exact ⟨limits, h.lift id fun _ _ h => h.1⟩

/-- A coroutine that is not resumed goes on to hold what it has held, unless it is new. -/
theorem fresh_next (hc : Reachable host c) (hl : Leads host c c') (hi : IsIdle co c.machine)
    (hf : ∀ fiber, c.machine.heap.held co = some fiber → fiber.pending = none) {fiber : Fiber}
    (hheld : c'.machine.heap.held co = some fiber) : fiber.pending = none := by
  obtain ⟨m, hm, hs⟩ := (hc.passes (covers_of_lasts host lasts_sameCoroutines) hl).relates
    (fun _ ⟨_, _, hd, hop⟩ => by
      obtain ⟨-, e, he⟩ | ⟨r, hr, he⟩ := step_assign host _ hd hop <;> rw [he]
      · exact .of_eq rfl rfl
      · obtain ⟨a, slot, -, ⟨-, hs⟩ | ⟨-, hs⟩⟩ | ⟨-, hs⟩ := setBroker_cases r _ _ <;> rw [hs] <;> exact .of_eq rfl rfl)
    fun _ _ _ _ _ _ _ => .of_eq rfl rfl
  obtain ⟨k', hk', hp'⟩ := Option.bind_eq_some_iff.1 hheld
  cases hk : m.heap.coroutine? co with
  | none =>
    obtain ⟨-, fiber', hfiber', -, hnone⟩ := hs.new co k' hk hk'
    obtain rfl : fiber' = fiber := Option.some.inj (hfiber'.symm.trans hp')
    exact hnone
  | some k =>
    obtain ⟨k₁, hk₁, -, hp⟩ := hs.old co k hk
    obtain rfl : k₁ = k' := Option.some.inj (hk₁.symm.trans hk')
    have hbefore : m.heap.held co = some fiber := by
      rw [Heap.held_eq_parked hk, ← hp]
      exact hp'
    obtain rfl | hshift := hm
    · exact hf fiber hbefore
    · exact hf fiber (held_of_shift hshift (hi.not_mem hc.scheduled) hbefore)

theorem fresh_of_unstarted (h : Unstarted host co c) :
    IsIdle co c.machine ∧ ∀ fiber, c.machine.heap.held co = some fiber → fiber.pending = none := by
  obtain ⟨limits, h⟩ := h
  induction h with
  | refl =>
    have hnone : (initial limits).machine.heap.coroutine? co = none := rfl
    refine ⟨fun k hk => ?_, fun fiber hf => ?_⟩
    · rw [hnone] at hk
      cases hk
    · rw [Heap.held, hnone] at hf
      cases hf
  | tail hpath hl ih =>
    exact ⟨hl.2, fun fiber => fresh_next (Unstarted.reachable ⟨limits, hpath⟩) hl.1 ih.1 ih.2⟩

/-- A function begins in a coroutine, with values as its arguments. -/
def Starts (host : Host) (co : Ref .coroutine) (ws : List Value) (m : Machine) (low : List Level)
    (c : Config) : Callee → Prop
  | .closure r => ∃ s, c = .work (.run (.resume co) false) s low ∧ ((∃ m', s = .raise .stackOverflow m') ∨
      ∃ m' f old, s = .ret none m' ∧ m'.fiber.calls.frames = [f] ∧ f.closure = m.heap.closure r ∧
        f.Receives ws old m'.arena)
  | .native r => ∃ fiber, m.heap.held co = some fiber ∧
      c = (Site.entry co).calling (invokeNative host r ws (m.enterCoroutine co fiber)) low

/-- A coroutine that was not resumed before begins with the values of its first resumption. -/
theorem starts_of_unstarted {k : Coroutine} (h : Unstarted host co c) (ha : Admits co c.machine)
    (hk : c.machine.heap.coroutine? co = some k) :
    Starts host co ws c.machine low (ask host (.resume co ws) c.machine low) k.entry := by
  obtain ⟨k', fiber, hk', hst, hp, halive, hroom⟩ := ha
  obtain rfl : k' = k := Option.some.inj (hk'.symm.trans hk)
  have hheld : c.machine.heap.held co = some fiber := (Heap.held_eq_parked hk).trans hp
  have hpending := (fresh_of_unstarted h).2 fiber hheld
  obtain ⟨-, hparked⟩ := h.reachable.scheduled.parked_of_suspended hk hst hp
  have hframes : fiber.calls.frames = [] := by
    have hshape := hparked.shape
    rw [hpending] at hshape
    exact hshape
  have hfiber : { fiber with pending := none } = fiber := by rw [← hpending]
  have hask : ask host (.resume co ws) c.machine low =
      start host co k'.entry ws (c.machine.enterCoroutine co fiber) low := by
    simp only [ask, hk, hst, halive, hp, Nat.not_le_of_lt hroom, Bool.false_eq_true, if_false]
  rw [hask]
  cases k'.entry with
  | native r =>
    refine ⟨fiber, hheld, ?_⟩
    rw [Site.start_native co ws low hpending]
    show (Site.entry co).calling (invokeNative host r ws
      { c.machine.enterCoroutine co fiber with fiber := { fiber with pending := none } }) low = _
    rw [hfiber]
    rfl
  | closure r =>
    have hbegin : start host co (.closure r) ws (c.machine.enterCoroutine co fiber) low =
        .work (.run (.resume co) false)
          (((do setSlot 0 (.closure r); writeRange 1 ws; pushFrame r 0 ws.length none : Exec Unit)
            (c.machine.enterCoroutine co fiber)).bind fun _ m => .ret none m) low := by
      unfold start
      rw [fiber_enterCoroutine, hpending]
      show Config.work _ ((_ : Exec Unit) { c.machine.enterCoroutine co fiber with
        fiber := { fiber with pending := none } } |>.bind _) _ = _
      rw [hfiber]
      rfl
    rw [hbegin]
    refine ⟨_, rfl, ?_⟩
    obtain ⟨m', h⟩ | ⟨m', f, old, h, hf, hclosure, hreceives⟩ :=
      enter_receives r ws (c.machine.enterCoroutine co fiber)
    · exact .inl ⟨m', by rw [h]; rfl⟩
    · refine .inr ⟨m', f, old, by rw [h]; rfl, ?_, hclosure.trans ((Moved.enterCoroutine _ _ _).closure_eq r),
        hreceives⟩
      rw [hf, fiber_enterCoroutine, hframes]

/-- A call that yields comes to the same as if it had not left, whatever happens until it is resumed. -/
theorem yield_resume_transparent :
    (∀ {co m below slot wanted vs m₁}, Reachable host (.loop (.resume co) m below) →
      Pauses host m slot wanted vs m₁ →
      let parked := Config.answer (.ok ⟨vs, true⟩) (m₁.yielded co (.call slot wanted)) below
      Runs host (.loop (.resume co) m below)
        ((Site.inCoroutine co slot wanted).calling (.raise (.yield vs) m₁) below) ∧
      Runs host (.loop (.resume co) m below) parked ∧
      (∀ ws low, Admits co parked.machine → ask host (.resume co ws) parked.machine low =
        (Site.inCoroutine co slot wanted).calling (.ret ws m₁) low) ∧
      ∀ {c} ws low, Meanwhile host co m₁.fiber.arena parked c → Admits co c.machine →
        Rejoins host co slot wanted m₁ below ws c.machine low) ∧
    ∀ {co c k} ws low, Unstarted host co c → Admits co c.machine → c.machine.heap.coroutine? co = some k →
      Starts host co ws c.machine low (ask host (.resume co ws) c.machine low) k.entry := by
  refine ⟨fun {co m below slot wanted vs m₁} hc h => ?_, fun ws low hu ha hk => starts_of_unstarted hu ha hk⟩
  intro parked
  obtain ⟨hruns, hback, hrejoins⟩ := rejoins_of_pauses hc h
  refine ⟨runs_of_pauses h, (runs_of_pauses h).trans hruns, fun ws low ha => ?_,
    fun ws low hm ha => hrejoins hm ha⟩
  have hrejoin : Rejoins host co slot wanted m₁ below ws parked.machine low := hrejoins .refl ha
  exact hback ▸ hrejoin.returns

def runsAlone (co : Ref .coroutine) : Config → Bool
  | .loop (.resume r) _ [] => r = co
  | _ => false

theorem eq_loop_of_runsAlone {co : Ref .coroutine} {c : Config} (h : c.runsAlone co = true) :
    c = .loop (.resume co) c.machine [] := by
  rw [runsAlone.eq_def] at h
  split at h
  · rw [of_decide_eq_true h]
    rfl
  · cases h

/-- The host yields in its first call, waits, and answers it; so it does at the first resumption. -/
theorem yield_resume_transparent_paused :
    let c := steps pauses 3 (ask pauses (.resume ⟨0⟩ []) paused [])
    let m := c.machine
    let called := invokeNative pauses ⟨0⟩ [] (m.modifyFrame Frame.skip)
    let m₁ := ((called.run (serve pauses 0)).getD (.ok [], m)).2
    Starts pauses ⟨0⟩ [] paused [] (ask pauses (.resume ⟨0⟩ []) paused []) (.closure ⟨0⟩) ∧
      Rejoins pauses ⟨0⟩ 1 none m₁ [] [.int 5] ((m₁.yielded ⟨0⟩ (.call 1 none)).load (.calling "pause")).2 [] := by
  intro c m called m₁
  have hidle : ∀ m : Machine, (m.heap.coroutine? ⟨0⟩).all (fun k => k.status = .suspended) = true →
      IsIdle ⟨0⟩ m := by
    intro m h k hk
    rw [hk] at h
    exact of_decide_eq_true h
  have hpath : Relation.ReflTransGen (fun c c' => Leads pauses c c' ∧ IsIdle ⟨0⟩ c'.machine)
      (initial ⟨4, 64, 8, 8⟩) (.answer (.ok {}) paused []) := by
    exact (((Relation.ReflTransGen.single ⟨.act _, hidle _ (by decide +kernel)⟩).tail
      ⟨.act _, hidle _ (by decide +kernel)⟩).tail ⟨.act (.load (.calling "pause")), hidle _ (by decide +kernel)⟩).tail
      ⟨.act _, hidle _ (by decide +kernel)⟩
  have hunstarted : Unstarted pauses ⟨0⟩ (.answer (.ok {}) paused []) := ⟨_, hpath⟩
  have hadmits : ∀ m : Machine, (m.heap.coroutine? ⟨0⟩).any (fun k => k.status = .suspended &&
      k.parked.isSome && !m.isCancelled k.token && m.nativeDepth < m.limits.maxNativeDepth) = true →
        Admits ⟨0⟩ m := by
    intro m h
    simp only [Option.any_eq_true, Bool.and_eq_true, decide_eq_true_eq, Bool.not_eq_true',
      Option.isSome_iff_exists] at h
    obtain ⟨k, hk, ⟨⟨hstatus, fiber, hp⟩, halive⟩, hroom⟩ := h
    exact ⟨k, fiber, hk, hstatus, hp, halive, hroom⟩
  obtain ⟨k, hk, hentry⟩ : ∃ k, paused.heap.coroutine? ⟨0⟩ = some k ∧ k.entry = .closure ⟨0⟩ := by
    have h : (paused.heap.coroutine? ⟨0⟩).any (fun k => k.entry = .closure ⟨0⟩) = true := by decide +kernel
    simpa only [Option.any_eq_true, decide_eq_true_eq] using h
  have hstarts := yield_resume_transparent.2 [] [] hunstarted (hadmits _ (by decide +kernel)) hk
  rw [hentry] at hstarts
  refine ⟨hstarts, ?_⟩
  have hloop : c = .loop (.resume ⟨0⟩) m [] := eq_loop_of_runsAlone (by decide +kernel)
  have hc : Reachable pauses (.loop (.resume ⟨0⟩) m []) := by
    rw [← hloop]
    exact hunstarted.reachable.trans
      ((Relation.ReflTransGen.single (.ask _)).trans (leadsTo_of_runs (runs_steps 3 _)))
  let call : Word := .abc .call 0 (.register 1) (.register 0)
  have hfacts : m.frame?.any (fun f => f.word? = some call && f.base = 1) = true := by decide +kernel
  simp only [Option.any_eq_true, Bool.and_eq_true, decide_eq_true_eq] at hfacts
  obtain ⟨f, hf, hword, hbase⟩ := hfacts
  have hcalls : Calls m 1 0 none (m.modifyFrame Frame.skip) := by
    have hdue : Due m f call := ⟨hf, hword, by decide +kernel⟩
    have hcall := Calls.call hdue (by decide)
    have hslot : f.base + call.a.toNat = 1 := by
      rw [hbase]
      decide
    have hcount : listCount m call.b 2 = 0 := by decide +kernel
    have hwanted : call.wanted = none := by decide
    rwa [hslot, hcount, hwanted] at hcall
  have hresolve : resolve 1 0 (m.modifyFrame Frame.skip) = .ret (.native ⟨0⟩, 0) (m.modifyFrame Frame.skip) :=
    resolveAlong_callee 63 0 (by decide +kernel)
  have hrun : called.run (serve pauses 0) = some (.error (.yield []), m₁) := by
    obtain ⟨m', hm⟩ : ∃ m', called.run (serve pauses 0) = some (.error (.yield []), m') :=
      Outcome.eq_error_of_failure? (by decide +kernel)
    have hm₁ : m₁ = m' := by
      show ((called.run (serve pauses 0)).getD _).2 = m'
      rw [hm]
      rfl
    rw [hm, hm₁]
  exact (yield_resume_transparent.1 hc (.intro hcalls hresolve hrun)).2.2.2 _ _
    (.single ⟨.act (.load (.calling "pause")), id, hidle _ (by decide +kernel)⟩) (hadmits _ (by decide +kernel))

end Config
end RegisterMachine
