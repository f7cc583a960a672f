import RegisterMachine.Run

/-! Time. More of it changes no outcome that was reached with less, so what a run comes to does not
depend on how much time it was given. -/
namespace RegisterMachine

namespace Outcome

variable {α β : Type} {x y : Outcome α}

def Le (x y : Outcome α) : Prop := ∀ p, x = some p → y = some p

theorem Le.refl (x : Outcome α) : x.Le x := fun _ h => h

theorem Le.andThen {k k' : α → Machine → Outcome β} (h : x.Le y) (hk : ∀ a m, (k a m).Le (k' a m)) :
    (x.andThen k).Le (y.andThen k') := by
  intro p hp
  obtain _ | ⟨f | a, m⟩ := x
  · cases hp
  · rw [h _ rfl]
    exact hp
  · rw [h _ rfl]
    exact hk a m p hp

theorem Le.afterwards (h : x.Le y) (k : Except Fault α → Machine → Except Fault β × Machine) :
    (x.afterwards k).Le (y.afterwards k) := by
  intro p hp
  obtain _ | q := x
  · cases hp
  · rw [h _ rfl]
    exact hp

end Outcome

/-- A server that answers whatever another one answers, and in the same way. -/
def Server.Le (s s' : Server) : Prop := ∀ q m, (s q m).Le (s' q m)

variable {host : Host} {server server' : Server}

theorem Step.run_mono {α : Type} (h : server.Le server') (s : Step α) :
    (s.run server).Le (s.run server') := by
  induction s with
  | ret a m => exact .refl _
  | raise f m => exact .refl _
  | ask q m k ih =>
    intro p hp
    rw [run] at hp ⊢
    cases hq : server q m with
    | none =>
      rw [hq] at hp
      cases hp
    | some a =>
      rw [hq] at hp
      rw [h q m a hq]
      exact ih a.1 a.2 p hp

theorem Exec.run_bind {α β : Type} (server : Server) (x : Exec α) (f : α → Exec β) (m : Machine) :
    ((x >>= f) m).run server = ((x m).run server).andThen fun a m => (f a m).run server := by
  rw [bind_eq]
  exact Step.run_bind server (x m) f

namespace Machine

theorem unwound_mono {α : Type} (h : server.Le server') (stop : Nat) (f : Fault) (m : Machine) :
    (unwound (α := α) server stop f m).Le (unwound server' stop f m) :=
  (Step.run_mono h _).andThen fun _ _ => .refl _

section

variable {time time' : Nat} (h : server.Le server') (ht : time ≤ time')

include h ht

theorem dispatch_mono (stop : Nat) (m : Machine) :
    (dispatch host server stop time m).Le (dispatch host server' stop time' m) := by
  induction time generalizing time' m with
  | zero =>
    intro p hp
    cases hp
  | succ time ih =>
    obtain ⟨time', rfl⟩ := Nat.exists_eq_add_of_le' ht
    intro p hp
    rw [dispatch] at hp
    rw [← Nat.add_assoc, dispatch]
    cases hs : (Exec.step host stop m).run server with
    | none =>
      rw [hs] at hp
      cases hp
    | some r =>
      rw [hs] at hp
      rw [Step.run_mono h _ r hs]
      obtain ⟨f | _ | vs, m₁⟩ := r
      · exact unwound_mono h stop f m₁ p hp
      · exact ih (Nat.le_add_left _ _) m₁ p hp
      · exact hp

theorem runCall_mono (start count : Nat) (m : Machine) :
    (runCall host server time start count m).Le (runCall host server' time' start count m) := by
  refine (Step.run_mono h _).andThen fun results m₁ => ?_
  cases results with
  | some vs => exact .refl _
  | none => exact dispatch_mono h ht _ m₁

theorem callValue_mono (f : Value) (args : List Value) (m : Machine) :
    (callValue host server time f args m).Le (callValue host server' time' f args m) := by
  unfold callValue
  split
  · exact .refl _
  · exact (Step.run_mono h _).andThen fun _ m₁ => (runCall_mono h ht _ _ _).afterwards _

theorem drive_mono (entry : Callee) (args : List Value) (m : Machine) :
    (drive host server time entry args m).Le (drive host server' time' entry args m) := by
  unfold drive
  dsimp only
  split
  · rename_i start wanted _
    intro p hp
    generalize m.modifyFiber (fun f => { f with pending := none }) = m at hp ⊢
    cases hs : (Exec.placeResults start wanted args m).run server with
    | none =>
      rw [hs] at hp
      cases hp
    | some r =>
      rw [hs] at hp
      rw [Step.run_mono h _ r hs]
      obtain ⟨f | _, m₁⟩ := r
      · exact unwound_mono h 0 f m₁ p hp
      · exact dispatch_mono h ht 0 m₁ p hp
  · exact .refl _
  · split
    · exact (Step.run_mono h _).afterwards _
    · exact (Step.run_mono h _).andThen fun _ m₁ => dispatch_mono h ht 0 m₁

theorem resume_mono (co : Ref .coroutine) (args : List Value) (m : Machine) :
    (resume host server time co args m).Le (resume host server' time' co args m) := by
  unfold resume
  split
  · exact .refl _
  · split
    · exact .refl _
    · exact .refl _
    · exact .refl _
    · split
      · exact .refl _
      · split
        · exact .refl _
        · split
          · exact .refl _
          · exact (drive_mono h ht _ _ _).afterwards _

end

theorem closeFiber_mono (h : server.Le server') (fiber : Fiber) (m : Machine) :
    (closeFiber server fiber m).Le (closeFiber server' fiber m) := by
  unfold closeFiber
  split
  · exact .refl _
  · exact (Step.run_mono h _).afterwards _

theorem closeCoroutine_mono (h : server.Le server') (co : Ref .coroutine) (m : Machine) :
    (closeCoroutine server co m).Le (closeCoroutine server' co m) := by
  unfold closeCoroutine
  split
  · exact .refl _
  · split
    · exact .refl _
    · exact .refl _
    · exact .refl _
    · refine Outcome.Le.andThen ?_ fun _ _ => .refl _
      split
      · exact .refl _
      · exact closeFiber_mono h _ _

theorem serve_mono {time time' : Nat} (ht : time ≤ time') :
    (serve host time).Le (serve host time') := by
  induction time generalizing time' with
  | zero =>
    intro q m p hp
    cases hp
  | succ time ih =>
    obtain ⟨time', rfl⟩ := Nat.exists_eq_add_of_le' ht
    rw [← Nat.add_assoc]
    have hle : time ≤ time' + time := Nat.le_add_left _ _
    intro q m
    cases q with
    | call f args => exact (callValue_mono (ih hle) hle f args m).andThen fun _ _ => .refl _
    | resume co args => exact resume_mono (ih hle) hle co args m
    | close co => exact (closeCoroutine_mono (ih hle) co m).andThen fun _ _ => .refl _

end Machine

def Grows {α : Type} (x : Nat → Outcome α) : Prop := ∀ time time', time ≤ time' → (x time).Le (x time')

/-- Some time is enough for an outcome. -/
def Reached {α : Type} (x : Nat → Outcome α) (p : Except Fault α × Machine) : Prop :=
  ∃ time, x time = some p

theorem Grows.bind {α β : Type} {x : Nat → Outcome α} {k : Nat → Except Fault α → Machine → Outcome β}
    (hx : Grows x) (hk : ∀ r m, Grows fun time => k time r m) :
    Grows fun time => (x time).bind fun p => k time p.1 p.2 := by
  intro time time' ht q hq
  obtain ⟨p, hp, hq⟩ := Option.bind_eq_some_iff.1 hq
  exact Option.bind_eq_some_iff.2 ⟨p, hx _ _ ht p hp, hk p.1 p.2 _ _ ht q hq⟩

namespace Reached

variable {α β : Type} {x : Nat → Outcome α} {p p' : Except Fault α × Machine}

theorem unique (hx : Grows x) (h : Reached x p) (h' : Reached x p') : p = p' := by
  obtain ⟨time, h⟩ := h
  obtain ⟨time', h'⟩ := h'
  have hle := hx _ _ (Nat.le_max_left time time') p h
  exact Option.some.inj (hle.symm.trans (hx _ _ (Nat.le_max_right time time') p' h'))

/-- Once its first part has come to something, a run in two parts is the second one. -/
theorem bind_iff {k : Nat → Except Fault α → Machine → Outcome β} {q : Except Fault β × Machine}
    (hx : Grows x) (hk : ∀ r m, Grows fun time => k time r m) (h : Reached x p) :
    Reached (fun time => (x time).bind fun p => k time p.1 p.2) q ↔
      Reached (fun time => k time p.1 p.2) q := by
  constructor
  · rintro ⟨time, hq⟩
    obtain ⟨p', hp, hk⟩ := Option.bind_eq_some_iff.1 hq
    obtain rfl : p = p' := unique hx h ⟨time, hp⟩
    exact ⟨time, hk⟩
  · rintro ⟨time, hq⟩
    obtain ⟨time', hp⟩ := h
    refine ⟨max time time', Option.bind_eq_some_iff.2 ⟨p, ?_, ?_⟩⟩
    · exact hx _ _ (Nat.le_max_right _ _) p hp
    · exact hk p.1 p.2 _ _ (Nat.le_max_left _ _) q hq

end Reached

namespace Machine

/-- What the loop comes to. -/
def Dispatches (host : Host) (stop : Nat) (m : Machine) : Except Fault (List Value) × Machine → Prop :=
  Reached fun time => dispatch host (serve host time) stop time m

def Unwinds (host : Host) (stop : Nat) (f : Fault) (m : Machine) :
    Except Fault (List Value) × Machine → Prop :=
  Reached fun time => unwound (serve host time) stop f m

theorem grows_run {α : Type} (s : Step α) : Grows fun time => s.run (serve host time) :=
  fun _ _ ht => Step.run_mono (serve_mono ht) s

theorem grows_unwound {α : Type} (stop : Nat) (f : Fault) (m : Machine) :
    Grows fun time => unwound (α := α) (serve host time) stop f m :=
  fun _ _ ht => unwound_mono (serve_mono ht) stop f m

theorem grows_dispatch (stop : Nat) (m : Machine) :
    Grows fun time => dispatch host (serve host time) stop time m :=
  fun _ _ ht => dispatch_mono (serve_mono ht) ht stop m

end Machine
end RegisterMachine
