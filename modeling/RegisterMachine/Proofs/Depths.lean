import RegisterMachine.Proofs.Faults
import RegisterMachine.Proofs.Reachable
import RegisterMachine.Proofs.Targets
import RegisterMachine.Proofs.Times

/-! Depths. Running until the frames are down to a depth is running until they are down to any depth on the
way, and going on from there: with the values that left, once they are placed as results, or with the fault,
which unwinds the frames that are left. -/
namespace RegisterMachine

open Machine

/-- A computation that is answered within a time comes to the end that it must. -/
theorem Step.Follows.run {host : Host} {α : Type} {J : Machine → Prop}
    {ends : Except Fault α → Machine → Prop} {s : Step α} {l : List (Ref .coroutine)} {m m' : Machine}
    {r : Except Fault α} {time : Nat} (h : s.Follows (floor J) ends m) (hs : Scheduled l m)
    (hr : s.run (serve host time) = some (r, m')) : ends r m' ∧ Scheduled l m' := by
  obtain ⟨hends, hm⟩ := Config.moves_of_follows h hs hr
  exact ⟨hends, Config.scheduled_moves hs hm⟩

def Fault.Settled (f : Fault) : Prop := ∀ m : Machine, m.locate f = f

theorem Fault.settled_locate (m : Machine) (f : Fault) : (m.locate f).Settled :=
  fun m' => locate_locate m m' f

namespace Exec

theorem unwindFrames_add (n k : Nat) (f : Fault) :
    unwindFrames (n + k) f = unwindFrames n f >>= unwindFrames k := by
  induction n generalizing f with
  | zero =>
    rw [Nat.zero_add, unwindFrames, pure_bind]
  | succ n ih =>
    rw [Nat.add_right_comm, unwindFrames, unwindFrames]
    simp only [bind_assoc]
    refine congrArg (popFrame >>= ·) (funext fun frame => congrArg (_ >>= ·) (funext fun r => ?_))
    cases r with
    | ok _ => exact ih f
    | error e =>
      simp only [bind_assoc]
      exact congrArg (_ >>= ·) (funext fun e => ih e)

/-- A number of frames were taken off, with a fault that has its location by then. -/
def TakenOff (depth : Nat) : Except Fault Fault → Machine → Prop
  | .ok e, m => m.callDepth = depth ∧ e.Settled ∧ e.isYield = false
  | .error _, _ => False

theorem unwindFrames_takenOff (n depth : Nat) {f : Fault} {m : Machine} (hf : f.Settled)
    (hy : f.isYield = false) (h : m.callDepth = depth + n) :
    (unwindFrames n f m).Follows (floor fun _ => True) (TakenOff depth) m := by
  induction n generalizing f m with
  | zero => exact ⟨.refl, h, hf, hy⟩
  | succ n ih =>
    obtain ⟨frame, calls, hp⟩ := pop?_of_lt (m := m) (by omega)
    have ht := targets_of_pop hp
    have hlen : (m.dropFrame frame calls).targets.length = depth + n := by
      have := congrArg List.length ht
      rw [length_targets, List.length_cons] at this
      omega
    unfold unwindFrames
    rw [popFrame_bind_eq, hp]
    dsimp only
    rw [attempt_bind_eq]
    refine (drop_targets (some f) hp ht).handle fun r m' h' => ?_
    have hd : m'.callDepth = depth + n := by rw [← length_targets, h'.1, hlen]
    cases r with
    | ok _ => exact ih hf hy hd
    | error e =>
      show (unwindFrames n (m'.locate e) m').Follows _ _ _
      exact ih (Fault.settled_locate m' e) ((isYield_locate m' e).trans h'.2.of_error) hd

theorem deliver_eq (stop : Nat) (e : Exit) (m : Machine) :
    deliver stop e m =
      if m.callDepth ≤ stop then .ret (some e.values) m
      else (placeResults e.slot e.wanted e.values >>= fun _ => pure none) m := by
  unfold deliver
  rw [bind_eq]
  by_cases hd : m.callDepth ≤ stop <;> simp only [read, Step.bind, hd, decide_true, decide_false] <;> rfl

theorem unwind_eq (stop : Nat) {f : Fault} (hy : f.isYield = false) (m : Machine) :
    unwind stop f m = unwindFrames (m.callDepth - stop) (m.locate f) m := by
  unfold unwind
  split
  · cases hy
  · rfl

end Exec

namespace Machine

variable {host : Host} {l : List (Ref .coroutine)} {m m' : Machine} {d d' : Nat}

/-- A fault goes on to unwind. -/
def unwoundFurther (server : Server) (stop : Nat) :
    Except Fault (List Value) → Machine → Outcome (List Value)
  | .ok vs, m => some (.ok vs, m)
  | .error f, m => unwound server stop f m

/-- Unwinding to a depth goes by every depth in between. -/
theorem unwound_eq_bind {time : Nat} (hs : Scheduled l m) (hd : d ≤ d') (hn : d' ≤ m.callDepth)
    (f : Fault) : unwound (serve host time) d f m =
      (unwound (serve host time) d' f m).bind fun p => unwoundFurther (serve host time) d p.1 p.2 := by
  obtain ⟨vs, rfl⟩ | hy := f.yield_or
  · rfl
  obtain ⟨n, hn⟩ := Nat.exists_eq_add_of_le hn
  obtain ⟨k, rfl⟩ := Nat.exists_eq_add_of_le hd
  have hfollows := Exec.unwindFrames_takenOff n (d + k) (Fault.settled_locate m f)
    ((Exec.isYield_locate m f).trans hy) hn
  have hsplit : m.callDepth - d = n + k := by omega
  have hinner : m.callDepth - (d + k) = n := by omega
  rw [unwound, unwound, Exec.unwind_eq d hy, Exec.unwind_eq _ hy, hsplit, hinner, Exec.unwindFrames_add,
    Exec.run_bind]
  cases hr : (Exec.unwindFrames n (m.locate f) m).run (serve host time) with
  | none => rfl
  | some p =>
    obtain ⟨e | e, m₁⟩ := p
    · exact ((hfollows.run hs hr).1).elim
    · obtain ⟨hdepth, hsettled, hye⟩ := (hfollows.run hs hr).1
      show _ = unwound (serve host time) d e m₁
      rw [unwound, Exec.unwind_eq d hye, hsettled m₁, hdepth, Nat.add_sub_cancel_left]
      rfl

theorem unwinds_iff (hs : Scheduled l m) (hd : d ≤ d') (hn : d' ≤ m.callDepth) {f : Fault}
    {r : Except Fault (List Value)} (h : Unwinds host d' f m (r, m')) {p} :
    ∃ e, r = .error e ∧ (Unwinds host d f m p ↔ Unwinds host d e m' p) := by
  obtain ⟨e, rfl⟩ : ∃ e, r = .error e := by
    obtain ⟨time, h⟩ := h
    obtain ⟨e, m₁, -, h⟩ | ⟨e, m₁, -, h⟩ := Outcome.andThen_eq_some h <;> cases h <;> exact ⟨_, rfl⟩
  refine ⟨e, rfl, ?_⟩
  have hgrows : ∀ r m₁, Grows fun time => unwoundFurther (serve host time) d r m₁ := by
    intro r m₁
    cases r with
    | ok vs => exact fun _ _ _ => .refl _
    | error e => exact grows_unwound d e m₁
  have hiff := Reached.bind_iff (q := p) (grows_unwound d' f m) hgrows h
  simp only [← unwound_eq_bind hs hd hn f] at hiff
  exact hiff

theorem unwinds_yield (stop : Nat) (vs : List Value) (m : Machine) (p) :
    Unwinds host stop (.yield vs) m p ↔ p = (.error (.yield vs), m) :=
  ⟨fun ⟨_, h⟩ => (Option.some.inj h).symm, fun h => ⟨0, congrArg some h.symm⟩⟩

/-- The outcome once results were placed: the loop goes on, and a fault unwinds. -/
def resumed (host : Host) (server : Server) (stop time : Nat) :
    Except Fault Unit → Machine → Outcome (List Value)
  | .ok (), m => dispatch host server stop time m
  | .error f, m => unwound server stop f m

def placed (host : Host) (server : Server) (stop time : Nat) (e : Exit) (m : Machine) :
    Outcome (List Value) :=
  ((Exec.placeResults e.slot e.wanted e.values m).run server).bind fun p =>
    resumed host server stop time p.1 p.2

def Places (host : Host) (stop : Nat) (e : Exit) (m : Machine) :
    Except Fault (List Value) × Machine → Prop :=
  Reached fun time => placed host (serve host time) stop time e m

/-- The outcome of what left a frame, or did not. -/
def advanced (host : Host) (server : Server) (stop time : Nat) :
    Except Fault (Option Exit) → Machine → Outcome (List Value)
  | .ok none, m => dispatch host server stop time m
  | .ok (some e), m =>
    if m.callDepth ≤ stop then some (.ok e.values, m) else placed host server stop time e m
  | .error f, m => unwound server stop f m

theorem dispatch_succ (server : Server) (stop time : Nat) (m : Machine) :
    dispatch host server stop (time + 1) m =
      ((Exec.advance host m).run server).bind fun p => advanced host server stop time p.1 p.2 := by
  rw [dispatch, Exec.step_eq, Exec.run_bind]
  cases (Exec.advance host m).run server with
  | none => rfl
  | some p =>
    obtain ⟨f | _ | e, m₁⟩ := p
    · rfl
    · rfl
    · simp only [Outcome.andThen, Option.bind_some, Exec.handOn, Exec.deliver_eq, advanced, placed]
      by_cases hd : m₁.callDepth ≤ stop
      · simp only [hd, if_true]
        rfl
      · simp only [hd, if_false, Exec.run_bind]
        cases (Exec.placeResults e.slot e.wanted e.values m₁).run server with
        | none => rfl
        | some q =>
          obtain ⟨f | _, m₂⟩ := q <;> rfl

theorem grows_resumed (stop : Nat) (r : Except Fault Unit) (m : Machine) :
    Grows fun time => resumed host (serve host time) stop time r m := by
  cases r with
  | ok _ => exact grows_dispatch stop m
  | error f => exact grows_unwound stop f m

theorem grows_placed (stop : Nat) (e : Exit) (m : Machine) :
    Grows fun time => placed host (serve host time) stop time e m :=
  (grows_run _).bind (grows_resumed stop)

theorem grows_advanced (stop : Nat) (r : Except Fault (Option Exit)) (m : Machine) :
    Grows fun time => advanced host (serve host time) stop time r m := by
  obtain f | _ | e := r
  · exact grows_unwound stop f m
  · exact grows_dispatch stop m
  · by_cases hd : m.callDepth ≤ stop
    · simp only [advanced, hd, if_true]
      exact fun _ _ _ => .refl _
    · simp only [advanced, hd, if_false]
      exact grows_placed stop e m

/-- The loop goes on from what leaves the innermost frame. -/
theorem dispatches_iff (stop : Nat) {r : Except Fault (Option Exit)}
    (h : Reached (fun time => (Exec.advance host m).run (serve host time)) (r, m')) {p} :
    Dispatches host stop m p ↔
      Reached (fun time => advanced host (serve host time) stop time r m') p := by
  rw [← Reached.bind_iff (grows_run _) (grows_advanced stop) h]
  simp only [← dispatch_succ]
  constructor
  · rintro ⟨time, hp⟩
    exact ⟨time, dispatch_mono (fun _ _ => .refl _) (Nat.le_succ time) stop m p hp⟩
  · rintro ⟨time, hp⟩
    exact ⟨time + 1, dispatch_mono (serve_mono (Nat.le_succ time)) (Nat.le_refl _) stop m p hp⟩

/-- What the loop comes to after it came to a depth: the values are placed where the frame above that
depth has its target, and a fault goes on to unwind. -/
def GoesOn (host : Host) (d d' : Nat) (t : Target) (r : Except Fault (List Value)) (m : Machine)
    (p : Except Fault (List Value) × Machine) : Prop :=
  match r with
  | .ok vs => if d = d' then p = (.ok vs, m) else Places host d ⟨vs, t.1, t.2⟩ m p
  | .error e => Unwinds host d e m p

variable {t : Target} {X : List Target}

theorem goesOn_of_unwound {time : Nat} {f : Fault} {m₁ : Machine} {r : Except Fault (List Value)} {p}
    (hs : Scheduled l m₁) (hd : d ≤ d') (hX : X.length = d') (hm : (t :: X).tail <:+ m₁.targets)
    (h : unwound (serve host time) d' f m₁ = some (r, m')) :
    Unwinds host d f m₁ p ↔ GoesOn host d d' t r m' p := by
  have hn : d' ≤ m₁.callDepth := by
    have hle := hm.length_le
    rwa [List.tail_cons, hX, length_targets] at hle
  obtain ⟨e, rfl, hiff⟩ := unwinds_iff hs hd hn ⟨time, h⟩
  exact hiff

theorem exit_cases {e : Exit} (hX : X.length = d') (h : t :: X <:+ e.target :: m.targets) :
    t = e.target ∧ m.callDepth = d' ∨ d' < m.callDepth ∧ t :: X <:+ m.targets := by
  obtain heq | hm := List.suffix_cons_iff.1 h
  · obtain ⟨ht, rfl⟩ := List.cons.inj heq
    rw [length_targets] at hX
    exact .inl ⟨ht, hX⟩
  · have hlt := hm.length_le
    rw [List.length_cons, hX, length_targets] at hlt
    exact .inr ⟨hlt, hm⟩

/-- Values that leave the frame above the inner depth. -/
theorem advanced_iff_goesOn {e : Exit} {p} (hd : d ≤ d') (he : m.callDepth = d') :
    Reached (fun time => advanced host (serve host time) d time (.ok (some e)) m) p ↔
      GoesOn host d d' e.target (.ok e.values) m p := by
  subst he
  obtain rfl | hlt := Nat.eq_or_lt_of_le hd
  · simp only [advanced, GoesOn, Nat.le_refl, if_true]
    exact ⟨fun ⟨_, hp⟩ => (Option.some.inj hp).symm, fun hp => ⟨0, congrArg some hp.symm⟩⟩
  · simp only [advanced, GoesOn, Nat.ne_of_lt hlt, Nat.not_le_of_lt hlt, if_false]
    exact .rfl

/-- By induction on the time of the loop that stops at the inner depth; the target of the frame above that
depth is kept until values leave it. -/
theorem dispatches_iff_goesOn {serving time : Nat} {r : Except Fault (List Value)} {p}
    (hX : X.length = d') (hd : d ≤ d') (hs : Scheduled l m) (hm : t :: X <:+ m.targets)
    (h : dispatch host (serve host serving) d' time m = some (r, m')) :
    Dispatches host d m p ↔ GoesOn host d d' t r m' p := by
  induction time generalizing m with
  | zero => cases h
  | succ time ih =>
    rw [dispatch_succ] at h
    obtain ⟨⟨ra, m₁⟩, ha, h⟩ := Option.bind_eq_some_iff.1 h
    obtain ⟨hends, hs₁⟩ := (Exec.advance_targets host hm).run hs ha
    rw [dispatches_iff d ⟨serving, ha⟩]
    obtain f | _ | e := ra
    · exact goesOn_of_unwound hs₁ hd hX hends h
    · exact ih hs₁ hends h
    · obtain ⟨rfl, hout⟩ | ⟨hdeep, hm₁⟩ := exit_cases hX hends
      · simp only [advanced, hout, Nat.le_refl, if_true, Option.some.injEq, Prod.mk.injEq] at h
        obtain ⟨rfl, rfl⟩ := h
        exact advanced_iff_goesOn hd hout
      · -- both loops place the values in the same way
        have hnot : ¬m₁.callDepth ≤ d := by omega
        simp only [advanced, Nat.not_le_of_lt hdeep, hnot, if_false, placed] at h ⊢
        obtain ⟨⟨rp, m₂⟩, hp, h⟩ := Option.bind_eq_some_iff.1 h
        have hplace := (Exec.Aims.closed (t :: X)).placeResults e.slot e.wanted e.values m₁ hm₁
        obtain ⟨hends₂, hs₂⟩ := hplace.run hs₁ hp
        rw [Reached.bind_iff (grows_run _) (grows_resumed d) ⟨serving, hp⟩]
        cases rp with
        | ok _ => exact ih hs₂ hends₂ h
        | error f => exact goesOn_of_unwound hs₂ hd hX hends₂ h

theorem exists_frame (hn : d' < m.callDepth) : ∃ f fs, m.fiber.calls.frames.reverse[d']? = some f ∧
    f :: fs <:+ m.fiber.calls.frames ∧ fs.length = d' := by
  rw [callDepth_eq] at hn
  generalize m.fiber.calls.frames = frames at hn ⊢
  have hi : frames.length - 1 - d' < frames.length := by omega
  have hdrop := List.drop_eq_getElem_cons hi
  refine ⟨frames[frames.length - 1 - d'], frames.drop (frames.length - 1 - d' + 1), ?_, ?_, ?_⟩
  · rw [List.getElem?_reverse hn]
    exact List.getElem?_eq_getElem hi
  · rw [← hdrop]
    exact List.drop_suffix _ _
  · rw [List.length_drop]
    omega

end Machine

namespace Config

variable {host : Host} {c : Config}

/-- A loop that stops at a depth behaves as one that stops at a depth above it, followed by what is left to do: values
are placed in the frame there, and faults unwind the others. -/
theorem dispatch_compositional (hc : Reachable host c) {d d' : Nat} (hd : d ≤ d')
    (hn : d' < c.machine.callDepth) :
    ∃ f, c.machine.fiber.calls.frames.reverse[d']? = some f ∧
      (∀ vs m, Dispatches host d' c.machine (.ok vs, m) → ∀ p, Dispatches host d c.machine p ↔
        if d = d' then p = (.ok vs, m) else Places host d ⟨vs, f.returnSlot, f.wanted⟩ m p) ∧
      (∀ e m, Dispatches host d' c.machine (.error e, m) → ∀ p, Dispatches host d c.machine p ↔
        Unwinds host d e m p) ∧
      ∀ vs m, Dispatches host d' c.machine (.error (.yield vs), m) → ∀ p,
        Dispatches host d c.machine p ↔ p = (.error (.yield vs), m) := by
  obtain ⟨f, fs, hf, hsuffix, hlen⟩ := exists_frame hn
  have hm : f.target :: fs.map Frame.target <:+ c.machine.targets := hsuffix.map Frame.target
  have hgoes : ∀ r m, Dispatches host d' c.machine (r, m) → ∀ p,
      Dispatches host d c.machine p ↔ GoesOn host d d' f.target r m p := by
    rintro r m ⟨time, h⟩ p
    exact dispatches_iff_goesOn ((List.length_map _).trans hlen) hd hc.scheduled hm h
  refine ⟨f, hf, fun vs m h p => hgoes _ m h p, fun e m h p => hgoes _ m h p, fun vs m h p => ?_⟩
  exact (hgoes _ m h p).trans (unwinds_yield d vs m p)

/-- Returns the first result of a function that it makes. -/
def callChild : Prototype where
  name := "outer"
  source := "outer"
  window := 3
  code := #[.abx .closure 1 0, .abc .call 1 (.register 1) (.register 2),
    .abc .ret 1 (.register 2) (.register 0)]
  children := [{ name := "inner", source := "outer",
                 code := #[.asbx .loadI 0 5, .abc .ret 0 (.register 2) (.register 0)] }]

/-- A function is called by another one: its result goes to the slot of the call. -/
theorem dispatch_compositional_child :
    let host : Host := fun _ _ => .done []
    let c := steps host 6 (ask host (.call (.closure ⟨0⟩) [])
      ((bare ⟨4, 64, 8, 8⟩).load callChild).2 [])
    1 < c.machine.callDepth ∧ ∃ m p, Dispatches host 1 c.machine (.ok [.int 5], m) ∧
      Dispatches host 0 c.machine p ∧ Places host 0 ⟨[.int 5], 2, some 1⟩ m p := by
  intro host c
  have hc : Reachable host c := reachable_asked host _ [.load callChild] _ 6
  have hn : 1 < c.machine.callDepth := by decide +kernel
  have hinner : (dispatch host (serve host 4) 1 4 c.machine).map (·.1.toOption) = some (some [.int 5]) := by
    decide +kernel
  have houter : (dispatch host (serve host 6) 0 6 c.machine).isSome := by decide +kernel
  obtain ⟨⟨r, m⟩, h, hr⟩ := Option.map_eq_some_iff.1 hinner
  obtain rfl : r = .ok [.int 5] := by
    cases r with
    | ok vs => exact congrArg Except.ok (Option.some.inj hr)
    | error f => cases hr
  obtain ⟨p, hp⟩ := Option.isSome_iff_exists.1 houter
  obtain ⟨f, hf, hvalues, -⟩ := dispatch_compositional hc (Nat.zero_le 1) hn
  have htarget : (c.machine.fiber.calls.frames.reverse[1]?).map Frame.target = some (2, some 1) := by
    decide +kernel
  rw [hf] at htarget
  obtain ⟨hslot, hwanted⟩ := Prod.mk.inj (Option.some.inj htarget)
  have hplaces := (hvalues _ m ⟨4, h⟩ p).1 ⟨6, hp⟩
  rw [if_neg (by decide), hslot, hwanted] at hplaces
  exact ⟨hn, m, p, ⟨4, h⟩, ⟨6, hp⟩, hplaces⟩

end Config
end RegisterMachine
