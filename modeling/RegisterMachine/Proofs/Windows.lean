import RegisterMachine.Proofs.Bounds
import RegisterMachine.Proofs.Segments

/-! The windows of frames. A frame is entered only where its arena has room for the whole of its window, and no
arena loses room: the registers of every frame can be written for as long as it is there. -/
namespace RegisterMachine

open Machine Exec

namespace Machine

variable {limits : Limits} {m m' : Machine}

structure Roomy (limits : Limits) (m : Machine) : Prop extends Within limits m where
  windows : ∀ fiber ∈ m.fibers, ∀ f ∈ fiber.calls.frames, f.top < max 1 limits.maxSlots

theorem roomy_bare (limits : Limits) : Roomy limits (bare limits) := by
  refine ⟨within_bare limits, fun fiber hfiber f hf => ?_⟩
  obtain rfl := List.mem_singleton.1 hfiber
  cases hf

theorem Within.lt_of_admits (h : Within limits m) {i : Nat} (hi : m.arena.admits i) : i < max 1 limits.maxSlots := by
  rw [arena, Heap.arena_eq] at hi
  cases ha : m.heap.arenas.get? m.fiber.arena with
  | none =>
    rw [ha, Option.getD_none] at hi
    exact absurd hi (Arena.not_admits_default i)
  | some a =>
    rw [ha, Option.getD_some] at hi
    exact ((h.arenas _ a ha).admits_iff i).1 hi

theorem exists_top_of_modifyTop {s : CallStack} {g : Frame → Frame} (hg : ∀ f, s.top? = some f → (g f).top = f.top) :
    ∀ f' ∈ (s.modifyTop g).frames, ∃ f ∈ s.frames, f'.top = f.top := by
  intro f' hf'
  obtain ⟨_ | ⟨f, fs⟩, n, hn⟩ := s
  · cases hf'
  · obtain rfl | hf' := List.mem_cons.1 hf'
    · exact ⟨f, List.mem_cons_self, hg f rfl⟩
    · exact ⟨f', List.mem_cons_of_mem _ hf', rfl⟩

namespace Roomy

theorem of_keepsCalls (h : Roomy limits m) (hw : Within limits m') (hc : KeepsCalls m m') : Roomy limits m' := by
  refine ⟨hw, fun fiber' hfiber' f hf => ?_⟩
  obtain ⟨fiber, hfiber, hcalls⟩ := hc fiber' hfiber'
  exact h.windows fiber hfiber f (hcalls ▸ hf)

/-- Of the fibers, only the running one changes, and its windows are among those it had. -/
theorem of_running (h : Roomy limits m) (hw : Within limits m')
    (hf : ∀ f' ∈ m'.fiber.calls.frames, ∃ f ∈ m.fiber.calls.frames, f'.top = f.top) (hwait : m'.waiting = m.waiting)
    (hp : m'.heap.parked = m.heap.parked) : Roomy limits m' := by
  refine ⟨hw, fun fiber hfiber f' hf' => ?_⟩
  rw [fibers, hwait, hp] at hfiber
  obtain rfl | hfiber := List.mem_cons.1 hfiber
  · obtain ⟨f, hmem, htop⟩ := hf f' hf'
    exact htop ▸ h.windows _ List.mem_cons_self f hmem
  · exact h.windows _ (List.mem_cons_of_mem _ hfiber) f' hf'

theorem quiet (h : Roomy limits m) (hq : Quiet m m') : Roomy limits m' := by
  have hw := h.toWithin.quiet hq
  have hsame (hp : m'.heap.parked = m.heap.parked) : Roomy limits m' :=
    h.of_running hw (fun f hf => ⟨f, hq.calls_eq ▸ hf, rfl⟩) hq.same.2.1 hp
  cases hq with
  | act a =>
    cases a with
    | newCoroutine entry =>
      refine ⟨hw, fun fiber hfiber f hf => ?_⟩
      change fiber ∈ (m.newCoroutine entry).2.fibers at hfiber
      rw [fibers, parked_newCoroutine, ← List.append_assoc, ← List.cons_append, List.mem_append] at hfiber
      obtain hfiber | hfiber := hfiber
      · exact h.windows fiber hfiber f hf
      · obtain rfl := List.mem_singleton.1 hfiber
        cases hf
    | load p => exact hsame (parked_load m p)
    | setCoroutineMetatable r metatable => exact hsame (m.heap.parked_modify_of_eq r fun _ _ => rfl)
    | _ => exact hsame rfl
  | _ => exact hsame rfl

end Roomy

/-- There is as much room as the limits allow, if there was before. -/
def KeepsRoomy (limits : Limits) (m m' : Machine) : Prop := Roomy limits m → Roomy limits m'

instance : IsTrans Machine (KeepsRoomy limits) := ⟨fun _ _ _ h h' hm => h' (h hm)⟩

variable (limits) in
theorem lasts_keepsRoomy : Lasts (KeepsRoomy limits) where
  refl _ h := h
  act _ a h := h.quiet (.act a)
  plain hp h := h.quiet hp.quiet
  goto _ g h := h.of_running (h.change (.touch (.goto g))) (exists_top_of_modifyTop fun _ _ => rfl) rfl rfl
  capture hf hb h := h.of_running (h.change (.touch (.capture hf hb))) (exists_top_of_modifyTop fun _ _ => rfl) rfl rfl
  enter hfits h := by
    refine ⟨h.change (.enter hfits.enter), fun fiber hfiber f hf => ?_⟩
    obtain rfl | hfiber := List.mem_cons.1 hfiber
    · obtain rfl | hf := List.mem_cons.1 hf
      · exact h.lt_of_admits hfits.window
      · exact h.windows _ List.mem_cons_self f hf
    · exact h.windows fiber (List.mem_cons_of_mem _ hfiber) f hf
  await _ _ h := h.of_running (h.toWithin.of_running rfl (Nat.le_refl _) rfl rfl rfl) (fun f hf => ⟨f, hf, rfl⟩) rfl rfl
  drop hp h := by
    refine h.of_running (h.change (.drop (.intro hp))) (fun f hf => ⟨f, ?_, rfl⟩) rfl (parked_closeBrokers _ _)
    rw [frames_of_pop hp]
    exact List.mem_cons_of_mem _ hf
  mark slot _ h := h.of_running (h.change (.touch (.mark slot))) (exists_top_of_modifyTop fun _ _ => rfl) rfl rfl
  part start hf h := by
    refine h.of_running (h.change (.touch (.part start hf))) (exists_top_of_modifyTop fun f' hf' => ?_) rfl
      (parked_closeBrokers _ _)
    obtain rfl := Option.some.inj (hf.symm.trans hf')
    rfl

end Machine

namespace Config

variable {host : Host} {limits : Limits} {c : Config} {f : Frame}

theorem keepsRoomy_of_assigning {m : Machine} (stop : Nat) (hd : Assigning m) :
    KeepsRoomy limits m (step host stop m).machine := by
  intro h
  obtain ⟨f, w, hd, hop⟩ := hd
  have hskip : Roomy limits (m.modifyFrame Frame.skip) := (lasts_keepsRoomy limits).goto hd.frame (fun f => f.pc + 1) h
  obtain ⟨-, e, he⟩ | ⟨r, -, he⟩ := step_assign host stop hd hop <;> rw [he]
  · exact hskip
  · obtain ⟨a, slot, hlive, ⟨-, hs⟩ | ⟨hroom, hs⟩⟩ | ⟨hclosed, hs⟩ :=
      setBroker_cases r (m.arena.get (f.base + w.a.toNat)) (m.modifyFrame Frame.skip) <;> rw [hs]
    · exact hskip
    · exact hskip.quiet (.assign _ hlive hroom)
    · exact hskip.quiet (.assignClosed _ hclosed)

theorem roomy_of_leadsTo (h : LeadsTo host (initial limits) c) : c.machine.Roomy limits := by
  induction h with
  | refl => exact roomy_bare limits
  | @tail c c' h hl ih =>
    have hc : Reachable host c := ⟨limits, h⟩
    obtain ⟨m, hm, hkeeps⟩ := (hc.passes (covers_of_lasts host (lasts_keepsRoomy limits)) hl).relates
      (fun _ hd => keepsRoomy_of_assigning _ hd) fun _ _ _ _ _ _ _ h =>
        h.of_running (h.toWithin.of_running rfl (Nat.le_refl _) rfl rfl rfl) (fun f hf => ⟨f, hf, rfl⟩) rfl rfl
    obtain rfl | hs := hm
    · exact hkeeps ih
    · exact hkeeps (ih.of_keepsCalls (ih.shift hs) (keepsCalls_of_shift hs))

theorem admits_iff_of_leadsTo (h : LeadsTo host (initial limits) c) (i : Nat) :
    c.machine.arena.admits i ↔ i < max 1 limits.maxSlots := by
  have hrefuses := (refuses (within_of_leadsTo h) (Reachable.ledger_balanced ⟨limits, h⟩)).slot i .nil
  rw [← Nat.not_le, ← hrefuses, setSlot]
  split
  next h => simp [h]
  next h => simp [h]

theorem Reachable.admits_window (hc : Reachable host c) (hf : c.machine.frame? = some f) {i : Nat} (hi : i ≤ f.top) :
    c.machine.arena.admits i := by
  obtain ⟨limits, h⟩ := hc
  rw [admits_iff_of_leadsTo h]
  have hframe : f ∈ c.machine.fiber.calls.frames := List.mem_of_mem_head? hf
  exact Nat.lt_of_le_of_lt hi ((roomy_of_leadsTo h).windows _ List.mem_cons_self f hframe)

theorem admits_of_leadsTo {c' : Config} (hc : Reachable host c) (h : LeadsTo host c c') (i : Nat) :
    c'.machine.arena.admits i ↔ c.machine.arena.admits i := by
  obtain ⟨limits, hc⟩ := hc
  rw [admits_iff_of_leadsTo (hc.trans h), admits_iff_of_leadsTo hc]

end Config
end RegisterMachine
