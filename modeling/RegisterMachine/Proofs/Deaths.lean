import RegisterMachine.Proofs.Handlers
import RegisterMachine.Proofs.Homes

/-! The marks of the dead. A coroutine that dies has handed all marks of its frames to the handlers, unless it
was suspended and found cancelled when it was asked to go on: then its frames stay parked with their
marks. -/
namespace RegisterMachine

open Machine

def Heap.heldMarks (h : Heap) (co : Ref .coroutine) : List Mark := (h.held co).elim [] Fiber.marks

namespace Scene.Housed

variable {s : Scene} {co : Ref .coroutine}

theorem count_marks (h : s.Housed) (hco : co ∉ s.hosts) {k : Mark} (hk : k.arena = co.home) :
    s.machine.marks.count k = (s.machine.heap.heldMarks co).count k := by
  obtain ⟨l, hs, m⟩ := s
  have hnone {m' : Machine} (h' : Housed ⟨l, hs, m'⟩) (hp : m'.heap.held co = none) :
      m'.marks.count k = 0 := by
    refine List.count_eq_zero.2 fun hmem => ?_
    obtain ⟨f, hf, ha, -⟩ := mem_marks hmem
    exact h'.not_mem_arenas hco hp f hf (ha.trans hk)
  cases hp : m.heap.held co with
  | none =>
    rw [hnone h hp]
    simp [Heap.heldMarks, hp]
  | some fiber =>
    obtain ⟨c, hc, hparked⟩ := Option.bind_eq_some_iff.1 hp
    have hpark : Housed ⟨l, hs, m.park co none⟩ := by
      refine h.stay rfl rfl rfl (fun q f hf => ?_) (sizes_park m co none)
      exact ((held_park m co q hf).resolve_left fun h => nomatch h.2).2
    rw [(marks_perm_of_take hc hparked).count_eq k, List.count_append, hnone hpark (held_park_none m co)]
    simp [Heap.heldMarks, hp]

end Scene.Housed

namespace Config

variable {host : Host} {c c' : Config} {co : Ref .coroutine}

theorem mem_hosts_of_closing (h : co ∈ c.closing []) : co ∈ c.hosts := by
  have hstage {α : Type} (g : Stage α) : g.closing ⊆ g.host := by
    cases g with
    | close co token => exact List.Subset.refl _
    | _ => exact List.nil_subset _
  have hbelow (below : List Level) : closings [] below ⊆ hostsOf below := by
    intro q hq
    rw [closings, List.append_nil] at hq
    obtain ⟨lev, hlev, hq⟩ := List.mem_flatMap.1 hq
    exact List.mem_flatMap.2 ⟨lev, hlev, hstage lev.stage hq⟩
  cases c with
  | work g s below =>
    obtain h | h := List.mem_append.1 h
    · exact List.mem_append_left _ (hstage g h)
    · exact List.mem_append_right _ (hbelow below h)
  | loop p m below => exact List.mem_append_right _ (hbelow below h)
  | answer r m below => exact hbelow below h

theorem not_mem_hosts_of_dead (hc : Reachable host c) (hd : IsDead c.machine co)
    (hcl : co ∉ c.closing []) : co ∉ c.hosts := by
  intro hmem
  obtain ha | hcl' := hc.housed.known co hmem
  · exact hd.not_mem hc.scheduled ha
  · exact hcl hcl'

/-- The marks of a dead coroutine were handed to the handlers, but for those that its parked fiber still holds; there
are none unless it was refused. -/
theorem death_hands_over (hc : Reachable host c) (hl : Leads host c c')
    (hn : ¬IsDead c.machine co ∨ co ∈ c.closing []) (hd : IsDead c'.machine co)
    (hcl : co ∉ c'.closing []) :
    c'.scene.Housed ∧ (∃ log tc, Told host log tc ∧ tc.erase = c') ∧
    ∀ log tc, Told host log tc → tc.erase = c' → ∀ k, k.arena = co.home →
      (madeIn log).count k = (handedIn log).count k + (c'.machine.heap.heldMarks co).count k ∧
      (¬Refused c.machine c' co → (handedIn log).count k = (madeIn log).count k) := by
  have hc' : Reachable host c' := hc.trans (.single hl)
  refine ⟨hc'.housed, exists_told hc', fun log tc ht he k hk => ?_⟩
  have hacc := ht.accounted
  rw [he] at hacc
  have hcount := hc'.housed.count_marks (not_mem_hosts_of_dead hc' hd hcl) hk
  change c'.machine.marks.count k = (c'.machine.heap.heldMarks co).count k at hcount
  have hmade := hacc.count k
  rw [hcount] at hmade
  refine ⟨hmade, fun hr => ?_⟩
  have hheld : c'.machine.heap.held co = none := by
    obtain hp | ⟨hd', hp⟩ := (proceeds_leads hc hc.housed hl).died co hr hd
    · exact hp
    · obtain hn | hn := hn
      · exact absurd hd' hn
      · exact hp.trans (hc.housed.held_of_mem (mem_hosts_of_closing hn))
  rw [hmade, Heap.heldMarks, hheld]
  rfl

def yields : Host := fun _ _ => .fail (.yield [])

/-- Marks the first argument and calls the second one. -/
def markAndWait : Prototype where
  name := "task"
  source := "task"
  params := 2
  window := 3
  code := #[.abc .tbc 0 (.register 0) (.register 0), .abc .call 1 (.register 1) (.register 1),
    .abc .ret 0 (.register 1) (.register 0)]

/-- A coroutine that has not started. -/
def newTask : Machine :=
  let m := ((Action.newNative ⟨"yield", .host "yield", 0⟩).apply (bare ⟨4, 64, 8, 8⟩)).2
  ((Action.newCoroutine (.closure ⟨0⟩)).apply (m.load markAndWait).2).2

/-- The coroutine has marked its first argument and waits. -/
def waitingTask : Except Fault Reply × Machine :=
  (serve yields 9 (.resume ⟨0⟩ [.int 5, .native ⟨0⟩]) newTask).getD (.ok {}, newTask)

theorem reachable_waitingTask : Reachable yields (.answer waitingTask.1 waitingTask.2 []) := by
  have hserve : serve yields 9 (.resume ⟨0⟩ [.int 5, .native ⟨0⟩]) newTask = some waitingTask := by
    have hsome : (serve yields 9 (.resume ⟨0⟩ [.int 5, .native ⟨0⟩]) newTask).isSome := by decide +kernel
    obtain ⟨p, hp⟩ := Option.isSome_iff_exists.1 hsome
    rw [waitingTask, hp]
    rfl
  have hruns := served_serve 9 _ _ _ _ [] hserve
  have hnew : Reachable yields (.answer (.ok {}) newTask []) := reachable_acted yields _
    [.newNative ⟨"yield", .host "yield", 0⟩, .load markAndWait, .newCoroutine (.closure ⟨0⟩)]
  exact hnew.trans ((leadsTo_of_runs hruns).head (.ask _))

/-- The mark of the coroutine is handed over when it is closed. -/
theorem death_hands_over_closed :
    let c := ask yields (.close ⟨0⟩) waitingTask.2 []
    let c' := steps yields 1 c
    ∃ log tc, Told yields log tc ∧ tc.erase = c' ∧
      (handedIn log).count ⟨Ref.home ⟨0⟩, 0, 1⟩ = (madeIn log).count ⟨Ref.home ⟨0⟩, 0, 1⟩ := by
  intro c c'
  have hc : Reachable yields c := reachable_waitingTask.trans (.single (.ask _))
  have hl : Leads yields c c' := by
    have hsome : (next yields c).isSome := by decide +kernel
    obtain ⟨c₁, hnext⟩ := Option.isSome_iff_exists.1 hsome
    have hc' : c' = c₁ := by simp only [c', steps, hnext]
    exact .next (hnext.trans (congrArg some hc'.symm))
  have hdead : (c'.machine.heap.coroutine? ⟨0⟩).map Coroutine.status = some .dead := by decide +kernel
  have hfree : (c.machine.heap.coroutine? ⟨0⟩).map (fun k => c.machine.isCancelled k.token) = some false := by
    decide +kernel
  obtain ⟨-, ⟨log, tc, ht, he⟩, hall⟩ := death_hands_over hc hl (.inr (by decide +kernel))
    (Option.map_eq_some_iff.1 hdead) (by decide +kernel)
  refine ⟨log, tc, ht, he, (hall log tc ht he _ rfl).2 ?_⟩
  rintro ⟨⟨k, hk, -, hcancelled⟩, -⟩
  rw [hk, Option.map_some, hcancelled] at hfree
  cases hfree

/-- It is cancelled, and asked to go on: it is dead, and its mark was not handed over. -/
theorem refused_keeps_marks :
    let m := ((Action.cancel ⟨1⟩).apply waitingTask.2).2
    let c : Config := .answer waitingTask.1 m []
    let c' := ask yields (.resume ⟨0⟩ []) m []
    Reachable yields c ∧ Leads yields c c' ∧ ¬IsDead c.machine ⟨0⟩ ∧ IsDead c'.machine ⟨0⟩ ∧
      ⟨0⟩ ∉ c'.closing [] ∧ ∃ log tc k, Told yields log tc ∧ tc.erase = c' ∧
        k.arena = Ref.home ⟨0⟩ ∧ (madeIn log).count k = (handedIn log).count k + 1 := by
  intro m c c'
  have hc : Reachable yields c := reachable_waitingTask.trans (.single (.act (.cancel ⟨1⟩)))
  have hl : Leads yields c c' := .ask _
  have hstatus : (m.heap.coroutine? ⟨0⟩).map Coroutine.status = some .suspended := by decide +kernel
  have hstatus' : (c'.machine.heap.coroutine? ⟨0⟩).map Coroutine.status = some .dead := by decide +kernel
  have hmarks : c'.machine.marks = [⟨⟨1⟩, 0, 1⟩] := by decide +kernel
  refine ⟨hc, hl, ?_, Option.map_eq_some_iff.1 hstatus', by decide +kernel, ?_⟩
  · rintro ⟨k, hk, hd⟩
    change m.heap.coroutine? ⟨0⟩ = some k at hk
    rw [hk, Option.map_some, hd] at hstatus
    cases hstatus
  · obtain ⟨log, tc, ht, he⟩ := exists_told (hc.trans (.single hl))
    refine ⟨log, tc, ⟨⟨1⟩, 0, 1⟩, ht, he, rfl, ?_⟩
    have hacc := ht.accounted
    rw [he] at hacc
    rw [hacc.count, hmarks]
    rfl

end Config
end RegisterMachine
