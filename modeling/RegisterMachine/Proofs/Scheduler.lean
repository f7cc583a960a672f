import RegisterMachine.Proofs.Reachable

/-! The scheduler over whole runs: where coroutines stand, and that the dead stay dead. -/
namespace RegisterMachine
namespace Config

open Machine

variable {host : Host} {c c' : Config}

def IsDead (m : Machine) (co : Ref .coroutine) : Prop :=
  ∃ k, m.heap.coroutine? co = some k ∧ k.status = .dead

theorem IsDead.not_mem {l : List (Ref .coroutine)} {m : Machine} {co : Ref .coroutine}
    (h : IsDead m co) (hs : Scheduled l m) : co ∉ m.active := by
  intro hmem
  obtain ⟨k, hk, hd⟩ := h
  obtain ⟨hr | hr, -⟩ := (hs.fits co k hk).of_mem hmem <;> rw [hd] at hr <;> cases hr

theorem IsDead.same {m m' : Machine} {co : Ref .coroutine} (h : IsDead m co)
    (hs : SameCoroutines m m') : IsDead m' co := by
  obtain ⟨k, hk, hd⟩ := h
  obtain ⟨k', hk', hst, -⟩ := hs.old co k hk
  exact ⟨k', hk', hst.trans hd⟩

/-- Whether it is changed or not, a dead coroutine is dead afterwards. -/
theorem IsDead.of_eq {m m' : Machine} {co : Ref .coroutine} (h : IsDead m co)
    {p : Prop} [Decidable p] {g : Coroutine → Coroutine}
    (hget : m'.heap.coroutine? co =
      if p then (m.heap.coroutine? co).map g else m.heap.coroutine? co)
    (hg : p → ∀ k, m.heap.coroutine? co = some k → (g k).status = .dead) : IsDead m' co := by
  obtain ⟨k, hk, hd⟩ := h
  rw [hk] at hget
  split at hget
  · rename_i hp
    exact ⟨g k, hget, hg hp k hk⟩
  · exact ⟨k, hget, hd⟩

theorem IsDead.ne {m : Machine} {co q : Ref .coroutine} {k : Coroutine} (h : IsDead m co)
    (hk : m.heap.coroutine? q = some k) (hs : k.status = .suspended) : co ≠ q := by
  rintro rfl
  obtain ⟨k', hk', hd⟩ := h
  rw [hk] at hk'
  cases hk'
  rw [hs] at hd
  cases hd

theorem IsDead.leaving {l : List (Ref .coroutine)} {m : Machine} {co : Ref .coroutine}
    (h : IsDead m co) (hs : Scheduled l m) : IsDead m.leaving co := by
  refine h.of_eq (coroutine?_leaving m co) fun hp => ?_
  exact absurd (List.mem_of_mem_drop (List.mem_of_mem_head? hp)) (h.not_mem hs)

theorem IsDead.shift {l l' : List (Ref .coroutine)} {m m' : Machine} {co : Ref .coroutine}
    (h : IsDead m co) (hs : Scheduled l m) (hsh : Shift l m l' m') : IsDead m' co := by
  have hn := h.not_mem hs
  cases hsh with
  | enterCall => exact h
  | leaveCall top => exact h
  | @enter _ _ q k fiber hk hst hp =>
    have hne := h.ne hk hst
    obtain ⟨k', hk', hd⟩ := h
    have hhead : m.active.head? ≠ some co := fun hh => hn (List.mem_of_mem_head? hh)
    refine ⟨k', ?_, hd⟩
    rw [coroutine?_enterCoroutine, if_neg hne, if_neg hhead]
    exact hk'
  | finish ha hw hf => exact (h.leaving hs).of_eq (coroutine?_setStatus _ _ _ _) fun _ _ _ => rfl
  | yield ha hw hp =>
    have hne : co ≠ _ := fun he => hn (by rw [ha, he]; exact List.mem_cons_self)
    obtain ⟨k', hk', hd⟩ := h.leaving hs
    refine ⟨k', ?_, hd⟩
    rw [coroutine?_setStatus, if_neg hne, coroutine?_park, if_neg hne]
    exact hk'
  | refuse hk hst => exact h.of_eq (coroutine?_setStatus _ _ _ _) fun _ _ _ => rfl
  | close hk hst hp => exact h.of_eq (coroutine?_park _ _ _ _) fun hp => absurd hp (h.ne hk hst)
  | @closed _ _ q f w token failure hw hf =>
    refine IsDead.of_eq (m := m.switchBack) ?_ (coroutine?_endClosing _ _ _ _ _) fun _ _ _ => rfl
    simp only [switchBack, hw]
    exact h
  | discard token hk hst hp =>
    refine IsDead.of_eq ?_ (coroutine?_endClosing _ _ _ _ _) fun _ _ _ => rfl
    exact h.of_eq (coroutine?_park _ _ _ _) fun hp => absurd hp (h.ne hk hst)

theorem IsDead.moves {st st' : List (Ref .coroutine) × Machine} {co : Ref .coroutine}
    (h : IsDead st.2 co) (hs : Scheduled st.1 st.2) (hm : Moves st st') : IsDead st'.2 co := by
  induction hm with
  | refl => exact h
  | @tail st₁ st₂ hpath hm ih =>
    have hs₁ := scheduled_moves hs hpath
    cases hm with
    | change hc => exact ih.same (.change hc)
    | shift hsh => exact ih.shift hs₁ hsh
    | watch _ _ _ _ _ _ => exact ih

/-- The last coroutine resumed runs, those before it are normal, and no other is either. Dead ones stay dead, and
suspended ones hold a fiber that has not started or waits for values. -/
theorem scheduler_invariant (hc : Reachable host c) :
    c.machine.active.Nodup ∧
    (∀ co rest, c.machine.active = co :: rest → c.machine.heap.status co = .running ∧
      ∀ q ∈ rest, c.machine.heap.status q = .normal) ∧
    (∀ co k, c.machine.heap.coroutine? co = some k → co ∉ c.machine.active →
      k.status ≠ .running ∧ k.status ≠ .normal) ∧
    (∀ co, IsDead c.machine co → (∀ c', LeadsTo host c c' → IsDead c'.machine co) ∧
      ∀ time args, serve host (time + 1) (.resume co args) c.machine =
        some (.error (.runtime .resumeDead), c.machine)) ∧
    ∀ co k, c.machine.heap.coroutine? co = some k → k.status = .suspended → co ∉ c.closing [] →
      ∃ f, k.parked = some f ∧ f.nested = 0 ∧
        (f.calls.frames = [] ∧ f.pending = none ∨ f.calls.frames = [] ∧ f.pending = some .entry ∨
          f.calls.frames ≠ [] ∧ ∃ slot wanted, f.pending = some (.call slot wanted)) := by
  have hs := hc.scheduled
  refine ⟨hs.nodup, ?_, ?_, ?_, ?_⟩
  · intro co rest ha
    have hnodup := hs.nodup
    rw [ha, List.nodup_cons] at hnodup
    refine ⟨?_, fun q hq => ?_⟩
    · rw [status_of_mem hs (by rw [ha]; exact List.mem_cons_self), ha]
      exact if_pos rfl
    · rw [status_of_mem hs (by rw [ha]; exact List.mem_cons_of_mem _ hq), ha]
      refine if_neg fun hh => hnodup.1 ?_
      obtain rfl : co = q := Option.some.inj hh
      exact hq
  · intro co k hk hn
    obtain hd | ⟨hd, -⟩ := (Coroutine.fits_of_not_mem hn).1 (hs.fits co k hk) <;>
      rw [hd] <;> exact ⟨by decide, by decide⟩
  · intro co hd
    refine ⟨fun c' hl => hd.moves hs (hc.moves hl), fun time args => ?_⟩
    obtain ⟨k, hk, hd⟩ := hd
    simp only [serve, resume, hk, hd]
  · intro co k hk hst hcl
    have hn := hs.not_mem_of_suspended hk hst
    obtain hd | ⟨-, hp⟩ := (Coroutine.fits_of_not_mem hn).1 (hs.fits co k hk)
    · rw [hst] at hd
      cases hd
    rw [if_neg hcl] at hp
    obtain ⟨f, hf, hp⟩ := hp
    refine ⟨f, hf, hp.nested, ?_⟩
    have hshape := hp.shape
    split at hshape
    · rename_i hpending
      exact .inl ⟨hshape, hpending⟩
    · rename_i hpending
      exact .inr (.inl ⟨hshape, hpending⟩)
    · rename_i slot wanted hpending
      exact .inr (.inr ⟨hshape, slot, wanted, hpending⟩)

/-- What runs in the second coroutine resumes the first one, all else yields nothing. -/
def naps : Host := fun _ _ =>
  .look fun m => if m.active = [⟨1⟩] then Library.wrapped ⟨0⟩ [] else .fail (.yield [])

/-- Two coroutines that call a function of the host. -/
def napping : List Action :=
  [.newNative ⟨"nap", .host "nap", 0⟩, .setField ⟨0⟩ (.ofString "nap") (.native ⟨0⟩), .load (.calling "nap"),
    .newCoroutine (.closure ⟨0⟩), .newCoroutine (.closure ⟨0⟩)]

/-- The first coroutine yields in the midst of a call while the second one runs, which is the only one resumed then. -/
theorem scheduler_invariant_yielded :
    let c := steps naps 11 (ask naps (.resume ⟨1⟩ []) ((bare ⟨4, 64, 8, 8⟩).acted napping) [])
    Reachable naps c ∧ c.below.length = 1 ∧ c.machine.active = [⟨1⟩] ∧ c.machine.heap.status ⟨1⟩ = .running ∧
      ∃ k f slot wanted, c.machine.heap.coroutine? ⟨0⟩ = some k ∧ k.status = .suspended ∧ k.parked = some f ∧
        f.nested = 0 ∧ f.calls.frames ≠ [] ∧ f.pending = some (.call slot wanted) := by
  intro c
  have hc : Reachable naps c := reachable_asked naps _ napping _ 11
  have hactive : c.machine.active = [⟨1⟩] := by decide +kernel
  have hfacts : (c.machine.heap.coroutine? ⟨0⟩).any (fun k => k.status = .suspended &&
      k.parked.all fun f => f.calls.frames ≠ []) = true := by decide +kernel
  simp only [Option.any_eq_true, Bool.and_eq_true, decide_eq_true_eq] at hfacts
  obtain ⟨k, hk, hstatus, hframes⟩ := hfacts
  obtain ⟨-, hrunning, -, -, hparked⟩ := scheduler_invariant hc
  obtain ⟨f, hf, hnested, hshape⟩ := hparked ⟨0⟩ k hk hstatus (by decide +kernel)
  rw [hf] at hframes
  have hne : f.calls.frames ≠ [] := of_decide_eq_true hframes
  refine ⟨hc, by decide +kernel, hactive, (hrunning ⟨1⟩ [] hactive).1, ?_⟩
  obtain ⟨he, -⟩ | ⟨he, -⟩ | ⟨-, slot, wanted, hpending⟩ := hshape
  · exact absurd he hne
  · exact absurd he hne
  · exact ⟨k, f, slot, wanted, hk, hstatus, hf, hnested, hne, hpending⟩

end Config
end RegisterMachine
