import RegisterMachine.Proofs.Levels

/-! The turns of a run. From one configuration to the next the innermost question is answered, the next
instruction is executed, or the machine is switched once at most and something begins there. -/
namespace RegisterMachine
namespace Config

open Machine

variable {host : Host} {origin o b m : Machine} {l k : List (Ref .coroutine)} {below : List Level}
  {c c' : Config} {α : Type}

/-- One switch at most, and then what begins. -/
def Turns (host : Host) (l k : List (Ref .coroutine)) (m : Machine) (c : Config) : Prop :=
  ∃ m', (k = c.closing l ∧ m = m' ∨ Shift k m (c.closing l) m') ∧ c.StartsAt host m'

theorem turns_work {g : Stage α} {s : Step α} (h : Begins host m g s) :
    Turns host l (g.closing ++ closings l below) m (.work g s below) := ⟨m, .inl ⟨rfl, rfl⟩, h⟩

theorem turns_back (r : Except Fault Reply) : Turns host l (closings l below) m (.answer r m below) :=
  ⟨m, .inl ⟨rfl, rfl⟩, rfl⟩

theorem turns_answer {r : Except Fault Reply} {m' : Machine} (h : Shift k m (closings l below) m') :
    Turns host l k m (.answer r m' below) := ⟨m', .inr h, rfl⟩

theorem turns_leave {p : Purpose} {r : Except Fault (List Value)} (ho : p.Opens o b)
    (h : (Stage.run p false).Ends b (r.map some) m) :
    Turns host l (closings l below) m (leave p r m below) := by
  have hshift := shift_leave (l := closings l below) ho h below
  cases p with
  | call stop top => exact turns_answer hshift
  | resume co => exact turns_answer hshift

theorem turns_finish {g : Stage α} {r : Except Fault α} (ho : g.Opens o b) (h : g.Ends b r m) :
    Turns host l (g.closing ++ closings l below) m (finish host g r m below) := by
  cases g with
  | place start count =>
    cases r with
    | ok _ => exact ⟨m.enterCall, .inr .enterCall, .call _ _ _ _⟩
    | error f => exact turns_back _
  | run p guarded =>
    obtain f | _ | vs := r
    · cases guarded with
      | true => exact turns_work (.unwind p f m)
      | false => exact turns_leave (r := .error f) ho h
    · exact ⟨m, .inl ⟨rfl, rfl⟩, rfl⟩
    · exact turns_leave (r := .ok vs) ho h
  | close co token =>
    cases r with
    | ok failure =>
      obtain ⟨⟨ha, hd⟩, -⟩ := h
      have hframes : m.fiber.calls.frames = [] := by rw [ha.calls_eq hd, Stage.Closing.calls ho]
      exact turns_answer (.closed token failure (ha.waiting.trans ho.waiting) hframes)
    | error f => exact h.elim

theorem startsAt_start (co : Ref .coroutine) (entry : Callee) (args : List Value) (m : Machine) :
    (start host co entry args m below).StartsAt host (m.modifyFiber fun f => { f with pending := none }) := by
  unfold start
  dsimp only
  split
  · exact .resumed _ _ _ _ _
  · exact .yielded _ _ _
  · cases entry with
    | native r => exact .native _ r args _
    | closure r => exact .closure _ r args _

theorem closing_start (co : Ref .coroutine) (entry : Callee) (args : List Value) (m : Machine) :
    (start host co entry args m below).closing l = closings l below := by
  unfold start
  dsimp only
  split
  · rfl
  · rfl
  · cases entry <;> rfl

theorem turns_ask (q : Query) :
    Turns host l (closings l below) m (ask host q m below) := by
  have h := response_ask host q m below
  generalize ask host q m below = c at h ⊢
  cases h with
  | refuse _ => exact turns_back _
  | place f args _ => exact turns_work (.place m.fiber.freeSlot f args m)
  | cancel args hc hst _ => exact turns_answer (.refuse hc hst)
  | @start co c fiber args hc hst _ hp =>
    refine ⟨_, .inr ?_, startsAt_start co c.entry args (m.enterCoroutine co fiber)⟩
    rw [closing_start]
    exact .enter hc hst hp
  | done co => exact turns_back _
  | @discard co c hc hst hp => exact turns_answer (.discard c.token hc hst hp)
  | @close co c fiber hc hst hp =>
    exact ⟨_, .inr (.close hc hst hp), .close co c.token ((m.park co none).switchTo fiber)⟩

/-- What comes next. -/
theorem turns_next (h : Sound origin c) (hn : Next host c c') :
    (∃ r m lev low, c = .answer r m (lev :: low) ∧ c' = .work lev.stage (lev.next r m) low) ∨
      (∃ p m low, c = .loop p m low ∧ c' = .work (.run p true) (Exec.step host p.stop m) low) ∨
        Turns host l (c.closing l) c.machine c' := by
  cases c with
  | work g s below =>
    obtain ⟨o, b, -, ho, hf⟩ := h
    cases s with
    | ret a m =>
      cases hn
      exact .inr (.inr (turns_finish ho hf.2))
    | raise f m =>
      cases hn
      exact .inr (.inr (turns_finish ho hf.2))
    | ask q m k =>
      cases hn
      have hcl : (Config.work g (.ask q m k) below).closing l = closings l (⟨g, q, m, k⟩ :: below) := by
        simp only [closing, closings, List.flatMap_cons, List.append_assoc]
      rw [hcl]
      exact .inr (.inr (turns_ask q))
  | loop p m below =>
    cases hn
    exact .inr (.inl ⟨p, m, below, rfl, rfl⟩)
  | answer r m below =>
    cases below with
    | nil => cases hn
    | cons lev low =>
      cases hn
      exact .inl ⟨r, m, lev, low, rfl, rfl⟩

end Config
end RegisterMachine
