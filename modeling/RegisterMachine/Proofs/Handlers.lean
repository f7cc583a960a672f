import RegisterMachine.Proofs.Told

/-! Every mark is handed to the handlers exactly once. The tally of a run counts them; here is what the
handlers do with the slots that they are handed, and what it comes to over a whole run. -/
namespace RegisterMachine

open Machine

/-- Values are visited in order, whatever the handlers answer: one that fails keeps no other from being
called. Each handler is looked up when its turn comes. -/
inductive Visits : Machine → List Value → Step Unit → Prop
  | done (m : Machine) : Visits m [] (.ret () m)
  | failed (f : Fault) (m : Machine) : Visits m [] (.raise f m)
  | falsy {m : Machine} {v : Value} {vs : List Value} {s : Step Unit} : v.isTruthy = false →
      Visits m vs s → Visits m (v :: vs) s
  | bare {m : Machine} {v : Value} {vs : List Value} {s : Step Unit} (text : String) :
      v.isTruthy = true → m.heap.metamethod v "__close" = .nil → Visits ((Action.warn text).apply m).2 vs s →
      Visits m (v :: vs) s
  | call {m : Machine} {v error : Value} {vs : List Value}
      {k : Except Fault Reply → Machine → Step Unit} : v.isTruthy = true →
      m.heap.metamethod v "__close" ≠ .nil → (∀ r m', Visits m' vs (k r m')) →
      Visits m (v :: vs) (.ask (.call (m.heap.metamethod v "__close") [v, error]) m k)

theorem visits_closeValues (error : Value) (failure : Option Fault) (vs : List Value) (m : Machine) :
    Visits m vs ((Script.closeValues error failure vs).exec m) := by
  induction vs generalizing error failure m with
  | nil =>
    cases failure with
    | none => exact .done m
    | some f => exact .failed f m
  | cons v vs ih =>
    have hlook : ∀ k : Value → Script Unit, (Script.metamethod v "__close" >>= k).exec m =
        (k (m.heap.metamethod v "__close")).exec m := fun _ => rfl
    rw [Script.closeValues]
    split
    · rename_i hv
      exact .falsy (by simpa using hv) (ih error failure m)
    · rename_i hv
      simp only [hlook]
      split
      · rename_i hnil
        exact .bare _ (by simpa using hv) hnil (ih error failure _)
      · rename_i hnil
        refine .call (by simpa using hv) hnil fun r m' => ?_
        cases r with
        | ok r => exact ih error failure m'
        | error f => exact ih f.payload (some f) m'

/-- A frame hands over its last marks, the latest first, after the brokers that it gives up with them were
closed; it is gone with all of its marks, or keeps the others. -/
structure Handing.Orderly (h : Handing) : Prop where
  parts : ∃ kept, h.frame.marks.toList = kept ++ h.slots.reverse ∧
    (h.machine.callDepth = h.height ∧ kept = [] ∨
      h.machine.callDepth = h.height + 1 ∧ ∃ f, h.machine.frame? = some f ∧ f.marks.toList = kept)
  closed : ∀ r ∈ h.brokers, ∀ arena slot, h.machine.heap.brokers.get? r ≠ some (.live arena slot)
  visits : ∀ error, Visits h.machine (h.slots.map h.machine.arena.get) (h.run error)

namespace Event.Proper

theorem orderly {h : Handing} (hp : (Event.handed h).Proper) : h.Orderly := by
  have hvisits (h : Handing) (error : Value) :
      Visits h.machine (h.slots.map h.machine.arena.get) (h.run error) :=
    visits_closeValues error none _ _
  cases hp with
  | @part m f w start hf _ =>
    obtain ⟨fs, hframes⟩ := frames_of_frame? hf.1
    let f' := ((f.detachBrokers start).2.takeMarks start).2
    have hpart : (m.part f start).fiber.calls.frames = f' :: fs := frames_modifyTop (fun _ => f') hframes
    refine ⟨⟨f'.marks.toList, ?_, .inr ⟨?_, f', ?_, rfl⟩⟩, fun r hr => ?_, hvisits _⟩
    · simp only [f', Handing.slots, Frame.takeMarks, Frame.detachBrokers, List.reverse_reverse]
      exact List.takeWhile_append_dropWhile.symm
    · rw [callDepth_eq, callDepth_eq, hpart, hframes]
      rfl
    · exact congrArg List.head? hpart
    · exact Heap.get?_closeBrokers_of_mem _ hr
  | @drop m f calls hpop =>
    refine ⟨⟨[], ?_, .inl ⟨rfl, rfl⟩⟩, fun r hr => ?_, hvisits _⟩
    · cases hl : f.marks.toList <;> simp [Handing.slots, Frame.takeMarks, hl]
    · refine Heap.get?_closeBrokers_of_mem _ ?_
      simpa [Handing.brokers, Frame.detachBrokers] using hr

end Event.Proper

structure Accounted (log : List Event) (m : Machine) : Prop where
  /-- Every mark was handed over once, or is still held. -/
  count : ∀ k, (madeIn log).count k = (handedIn log).count k + m.marks.count k
  /-- At no time were there more handed over than made. -/
  atMost : ∀ past, past <+: log → ∀ k, (handedIn past).count k ≤ (madeIn past).count k
  /-- Of a frame that has left, all were. -/
  left : ∀ k, (∀ f ∈ m.fibers, f.arena = k.arena → f.calls.depth ≤ k.height) →
    (handedIn log).count k = (madeIn log).count k
  proper : ∀ e ∈ log, e.Proper
  orderly : ∀ h, .handed h ∈ log → h.Orderly

theorem Tally.accounted {limits : Limits} {log : List Event} {m : Machine}
    (h : Tally (Machine.bare limits) log m) : Accounted log m := by
  -- nothing is marked in the beginning
  have hbare : (Machine.bare limits).marks = [] := rfl
  have hcount (k : Mark) : (madeIn log).count k = (handedIn log).count k + m.marks.count k := by
    have hk := h.count k
    rwa [hbare, List.count_nil, Nat.zero_add] at hk
  refine ⟨hcount, fun past hpast k => ?_, fun k hleft => ?_, h.proper, fun g hg => (h.proper _ hg).orderly⟩
  · have hk := h.upTo past hpast k
    rwa [hbare, List.count_nil, Nat.zero_add] at hk
  · have hnone : m.marks.count k = 0 := by
      refine List.count_eq_zero.2 fun hk => ?_
      obtain ⟨f, hf, ha, hlt⟩ := mem_marks hk
      exact absurd (hleft f hf ha) (Nat.not_le.2 hlt)
    rw [hcount k, hnone, Nat.add_zero]

theorem Told.accounted {host : Host} {log : List Event} {c : TellingConfig} (h : Told host log c) :
    Accounted log c.erase.machine := by
  obtain ⟨-, limits, htally⟩ := h.tally
  exact htally.accounted

namespace Config

/-- Of every run it can be told: each mark is handed to the handlers once at most, and exactly once when its frame has
gone, the latest first and after the brokers. -/
theorem marks_handed_once {host : Host} {c : Config} (h : Reachable host c) :
    (∃ log tc, Told host log tc ∧ tc.erase = c) ∧
    ∀ log tc, Told host log tc → tc.erase = c → Accounted log c.machine := by
  refine ⟨exists_told h, fun log tc ht he => ?_⟩
  rw [← he]
  exact ht.accounted

def markArgument : Prototype where
  name := "guard"
  source := "guard"
  params := 1
  code := #[.abc .tbc 0 (.register 0) (.register 0), .abc .ret 0 (.register 1) (.register 0)]

/-- Before a frame returns, it holds the mark that it made; one more was made than handed over. -/
theorem marks_handed_once_marked :
    let host : Host := fun _ _ => .done []
    let c := steps host 4 (ask host (.call (.closure ⟨0⟩) [.int 5])
      ((bare ⟨4, 64, 8, 8⟩).load markArgument).2 [])
    ∃ log tc, Told host log tc ∧ tc.erase = c ∧
      (madeIn log).count ⟨⟨0⟩, 0, 1⟩ = (handedIn log).count ⟨⟨0⟩, 0, 1⟩ + 1 := by
  intro host c
  have hmarks : c.machine.marks = [⟨⟨0⟩, 0, 1⟩] := by decide +kernel
  have hc : Reachable host c := reachable_asked host _ [.load markArgument] _ 4
  obtain ⟨⟨log, tc, ht, he⟩, hall⟩ := marks_handed_once hc
  refine ⟨log, tc, ht, he, ?_⟩
  rw [(hall log tc ht he).count, hmarks]
  rfl

end Config
end RegisterMachine
