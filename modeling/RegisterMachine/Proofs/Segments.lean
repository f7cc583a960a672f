import RegisterMachine.Proofs.Along
import RegisterMachine.Proofs.Placements

/-! What becomes of the machine from one configuration to the next. A relation that is kept by all changes but
assignments to captured variables is kept by all that begins, and by every step of a frame but those that
assign. One that covers all but certain steps is kept after one switch at most, unless such a step is due. -/
namespace RegisterMachine

open Machine

/-- A relation that is kept by all changes, but for assignments to captured variables. -/
structure Machine.Lasts (R : Machine → Machine → Prop) : Prop extends Bears R, Sheds R where
  mark {m : Machine} {f : Frame} (slot : Nat) : m.frame? = some f → R m (m.modifyFrame (·.mark slot))
  part {m : Machine} {f : Frame} (start : Nat) : m.frame? = some f → R m (m.part f start)

variable {R : Machine → Machine → Prop} [IsTrans Machine R] (h : Lasts R) {host : Host}

include h

namespace Exec.Along

theorem execute {w : Word} (hw : w.opcode? ≠ some .setUpval) : Along R (Option Exit) (execute host w) := by
  have hclosed := closedInside h.toBears host
  unfold Exec.execute
  split
  · exact fun m => raise h.toActs _ m
  · rw [map_eq_pure_bind]
    refine bind (bind (read h.toActs _) fun _ => ?_) fun _ => pure h.toActs _
    refine bind (Instruction.closed_listLength hclosed.toClosedAbove _ _) fun _ => ?_
    exact bind (read h.toActs _) fun _ => leave h.toSheds _
  · rename_i op _ hop
    refine bind (Opcode.closed_run_above hclosed (fun slot => ?_) (fun start => ?_) (fun _ _ _ => ?_) op
      (fun he => ?_) w) fun _ => pure h.toActs _
    · exact modifyFrame h.toBears fun _ _ hf => h.mark slot hf
    · exact closeFrom h.toBears fun _ _ hf => h.part start hf
    · exact tailCall h.toBears h.toSheds _ _ _
    · exact absurd (hop.trans (congrArg some he)) hw

theorem advance {m : Machine} (hw : ∀ f w, Due m f w → w.opcode? ≠ some .setUpval) :
    (advance host m).Follows (along R) (fun _ _ => True) m := by
  unfold Exec.advance
  rw [bind_eq]
  show Step.Follows _ _ _ ((if m.isCancelled m.fiber.token = true then _ else _ : Exec _) m)
  split
  · exact raise h.toActs _ m
  · rename_i ha
    rw [bind_eq]
    unfold Exec.fetch
    cases hf : m.frame? with
    | none => exact raise h.toActs _ m
    | some f =>
      dsimp only
      cases hword : f.word? with
      | none => exact bind (leave h.toSheds _) (fun _ => pure h.toActs _) m
      | some w =>
        have hdue : Due m f w := ⟨hf, hword, Bool.eq_false_iff.2 ha⟩
        exact (execute h (hw f w hdue) _).mono (h.goto hf fun f => f.pc + 1)

theorem step (stop : Nat) {m : Machine} (hw : ∀ f w, Due m f w → w.opcode? ≠ some .setUpval) :
    (step host stop m).Follows (along R) (fun _ _ => True) m := by
  rw [step_eq, bind_eq]
  refine (advance h hw).bind (fun e m' _ => ?_) fun _ _ h => h
  cases e with
  | some e => exact deliver h.toQuiets stop e m'
  | none => exact ret none (h.refl m')

end Exec.Along

omit h [IsTrans Machine R]

open Exec.Along in
/-- What begins leaves the frames that are there alone, or it takes frames off. -/
theorem Config.Begins.bears_or_sheds {α : Type} {m : Machine} {g : Stage α} {s : Step α}
    {B S : Machine → Machine → Prop} [IsTrans Machine B] [IsTrans Machine S] (hB : Bears B) (hS : Sheds S)
    (hb : Begins host m g s) :
    s.Follows (along B) (fun _ _ => True) m ∨ s.Follows (along S) (fun _ _ => True) m := by
  have hq := hB.toQuiets
  cases hb with
  | place start f args m =>
    exact .inl (bind (write hq (.put start f)) (fun _ => write hq (.putRange (start + 1) args)) m)
  | call p start count m => exact .inl (begin hB host start count none m)
  | unwind p f m =>
    exact .inr ((Exec.Along.unwind hS p.stop f m).bind (fun f m' _ => raise hS.toActs f m') fun _ _ h => h)
  | resumed p start wanted args m =>
    exact .inl (((closed hq).placeResults start wanted args m).bind (fun _ m' _ => ret none (hB.refl m'))
      fun _ _ h => h)
  | yielded p args m => exact .inl (ret _ (hB.refl m))
  | native p r args m =>
    refine .inl ((invokeNative hq host r args m).handle fun result m' _ => ?_)
    unfold entryOutcome
    split
    · exact ret _ (hB.refl m')
    · exact ⟨hB.await m' .entry, trivial⟩
    · exact raise hB.toActs _ m'
  | closure p r args m =>
    exact .inl ((bind (write hq (.put 0 _)) (fun _ => bind (write hq (.putRange 1 args)) fun _ =>
      pushFrame hB r 0 args.length none) m).bind (fun _ m' _ => ret none (hB.refl m')) fun _ _ h => h)
  | close co token m => exact .inr (closeFrames hS none _ m)

namespace Exec

variable {m : Machine} {f : Frame} {w : Word}

theorem upvalue_eq {n : Nat} (hf : m.frame? = some f) : upvalue n m = match f.closure.brokers[n]? with
    | some r => .ret r m
    | none => .raise (.runtime (.badUpvalue n)) m := by
  unfold upvalue
  rw [bind_eq]
  simp only [frame, hf, Step.bind]
  show (match f.closure.brokers[n]? with
    | some r => pure r
    | none => failWith _ : Exec _) _ = _
  cases f.closure.brokers[n]? <;> rfl

variable (host) in
/-- An assignment comes to nothing, or it is all that the step does. -/
theorem step_assign (stop : Nat) (hd : Due m f w) (hop : w.opcode? = some .setUpval) :
    (f.closure.brokers[w.b.toNat]? = none ∧ ∃ e, step host stop m = .raise e (m.modifyFrame Frame.skip)) ∨
      ∃ r, f.closure.brokers[w.b.toNat]? = some r ∧ step host stop m =
        (setBroker r (m.arena.get (f.base + w.a.toNat)) (m.modifyFrame Frame.skip)).bind
          fun _ m => .ret none m := by
  rw [hd.step_eq host stop hop fun h => nomatch h]
  have hrun : Opcode.run host .setUpval w (m.modifyFrame Frame.skip) =
      (upvalue w.b.toNat (m.modifyFrame Frame.skip)).bind fun r =>
        setBroker r (m.arena.get (f.base + w.a.toNat)) := by
    show Instruction.setUpvalue w _ = _
    unfold Instruction.setUpvalue
    simp only [bind_eq, register, read, Step.bind, base_eq hd.frame?_skip]
    rfl
  have hclosure : f.skip.closure = f.closure := rfl
  rw [hrun, upvalue_eq hd.frame?_skip, hclosure]
  cases hr : f.closure.brokers[w.b.toNat]? with
  | none => exact .inl ⟨rfl, _, rfl⟩
  | some r => exact .inr ⟨r, rfl, rfl⟩

/-- Assigning to a variable asks nothing. -/
theorem setBroker_cases (r : Ref .broker) (v : Value) (m : Machine) :
    (∃ a slot, m.heap.brokers.get? r = some (.live a slot) ∧
      (¬(m.heap.arena a).admits slot ∧ setBroker r v m = .raise .stackOverflow m ∨
        (m.heap.arena a).admits slot ∧
          setBroker r v m = .ret () (m.modifyHeap (·.modifyArena a (·.put slot v))))) ∨
    (∀ a slot, m.heap.brokers.get? r ≠ some (.live a slot)) ∧ setBroker r v m =
      .ret () (m.modifyHeap fun h => { h with brokers := h.brokers.modify r fun _ => .closed v }) := by
  unfold setBroker
  split
  · rename_i a slot hr
    refine .inl ⟨a, slot, hr, ?_⟩
    split
    · rename_i ha
      exact .inr ⟨ha, rfl⟩
    · rename_i ha
      exact .inl ⟨ha, rfl⟩
  · rename_i hr
    exact .inr ⟨hr, rfl⟩

theorem step_assign_follows (h : Acts R) (stop : Nat) (hd : Due m f w) (hop : w.opcode? = some .setUpval) :
    (step host stop m).Follows (along R) (fun _ _ => True) (step host stop m).machine := by
  obtain ⟨-, e, he⟩ | ⟨r, -, he⟩ := step_assign host stop hd hop <;> rw [he]
  · exact ⟨h.refl _, trivial⟩
  · obtain ⟨a, slot, -, ⟨-, hs⟩ | ⟨-, hs⟩⟩ | ⟨-, hs⟩ := setBroker_cases r (m.arena.get (f.base + w.a.toNat))
      (m.modifyFrame Frame.skip) <;> rw [hs]
    all_goals exact ⟨h.refl _, trivial⟩

end Exec

namespace Config

open Exec (Due)

variable {c c' : Config}

def Keeps (R : Machine → Machine → Prop) : Config → Prop :=
  Throughout (fun _ s => s.Follows (along R) (fun _ _ => True) s.machine)
    fun l => ∀ r m, (l.next r m).Follows (along R) (fun _ _ => True) m

theorem follows_self {α : Type} {s : Step α} {m : Machine} (h : Acts R)
    (hs : s.Follows (along R) (fun _ _ => True) m) : s.Follows (along R) (fun _ _ => True) s.machine := by
  cases s with
  | ret a m' => exact ⟨h.refl m', trivial⟩
  | raise f m' => exact ⟨h.refl m', trivial⟩
  | ask q m' k => exact ⟨h.refl m', hs.2⟩

theorem path_machine {α : Type} {s : Step α} {m : Machine} (hs : s.Follows (along R) (fun _ _ => True) m) :
    R m s.machine := by
  cases s with
  | ret a m' => exact hs.1
  | raise f m' => exact hs.1
  | ask q m' k => exact hs.1

/-- A relation that all keeps to, but for certain steps; after the questions of such a step all keeps to it
too. -/
structure Covers (host : Host) (D : Machine → Prop) (R : Machine → Machine → Prop) : Prop extends Acts R where
  begins {α : Type} {m : Machine} {g : Stage α} {s : Step α} : Begins host m g s →
    s.Follows (along R) (fun _ _ => True) m
  step (stop : Nat) {m : Machine} : ¬D m → (Exec.step host stop m).Follows (along R) (fun _ _ => True) m
  due (stop : Nat) {m : Machine} : D m →
    (Exec.step host stop m).Follows (along R) (fun _ _ => True) (Exec.step host stop m).machine

def Assigning (m : Machine) : Prop := ∃ f w, Due m f w ∧ w.opcode? = some .setUpval

variable {D : Machine → Prop}

variable (host) in
theorem covers_of_lasts [IsTrans Machine R] (h : Lasts R) : Covers host Assigning R where
  toActs := h.toActs
  begins hb := (hb.bears_or_sheds h.toBears h.toSheds).elim id id
  step stop _ hd := Exec.Along.step h stop fun f w hw hop => hd ⟨f, w, hw, hop⟩
  due stop _ := fun ⟨_, _, hw, hop⟩ => Exec.step_assign_follows h.toActs stop hw hop

theorem Reachable.keeps (hc : Reachable host c) (h : Covers host D R) : c.Keeps R := by
  refine hc.throughout (fun hb => follows_self h.toActs (h.begins hb)) (fun p m => ?_)
    (fun hs r m => hs.2.2 r m trivial) fun hl _ _ => follows_self h.toActs (hl _ _)
  by_cases hd : D m
  · exact h.due p.stop hd
  · exact follows_self h.toActs (h.step p.stop hd)

/-- From one configuration to the next: after one switch at most all keeps to a relation, unless a step of a
certain kind is due or the host watches. -/
inductive Passes (D : Machine → Prop) (R : Machine → Machine → Prop) (host : Host) : Config → Config → Prop
  | stay {c c' : Config} : R c.machine c'.machine → Passes D R host c c'
  | shift {c c' : Config} {m : Machine} : Shift (c.closing []) c.machine (c'.closing []) m →
      R m c'.machine → Passes D R host c c'
  | due {p : Purpose} {m : Machine} {below : List Level} : D m →
      Passes D R host (.loop p m below) (.work (.run p true) (Exec.step host p.stop m) below)
  | watch {r : Except Fault Reply} {m : Machine} (hook : Option Hook) (snapshots : Array Snapshot)
      (warnings printed : Array String) (isSinkClosed : Bool) (notes : Array (List Value)) :
      Passes D R host (.answer r m [])
        (.answer r { m with hook, snapshots, warnings, printed, isSinkClosed, notes } [])

theorem path_of_startsAt {m : Machine} (h : Covers host D R) (hs : c.StartsAt host m) : R m c.machine := by
  cases c with
  | work g s below => exact path_machine (h.begins hs)
  | loop p m' below =>
    obtain rfl : m' = m := hs
    exact h.refl m'
  | answer r m' below =>
    obtain rfl : m' = m := hs
    exact h.refl m'

theorem passes_of_turns (h : Covers host D R) (ht : Turns host [] (c.closing []) c.machine c') :
    Passes D R host c c' := by
  obtain ⟨m, ⟨-, rfl⟩ | hshift, hs⟩ := ht
  · exact .stay (path_of_startsAt h hs)
  · exact .shift hshift (path_of_startsAt h hs)

theorem Reachable.passes (hc : Reachable host c) (h : Covers host D R) (hl : Leads host c c') :
    Passes D R host c c' := by
  cases hl with
  | next hn =>
    obtain ⟨origin, hg⟩ := hc.good
    obtain ⟨r, m, lev, low, rfl, rfl⟩ | ⟨p, m, low, rfl, rfl⟩ | ht := turns_next (l := []) hg.sound hn
    · exact .stay (path_machine ((hc.keeps h).level lev List.mem_cons_self r m))
    · by_cases hd : D m
      · exact .due hd
      · exact .stay (path_machine (h.step p.stop hd))
    · exact passes_of_turns h ht
  | ask q => exact passes_of_turns h (turns_ask q)
  | act a => exact .stay (h.act _ a)
  | watch hook snapshots warnings printed isSinkClosed notes =>
    exact .watch hook snapshots warnings printed isSinkClosed notes

/-- Where such steps and watching keep to the relation too, all keeps to it after one switch at most. -/
theorem Passes.relates (hp : Passes D R host c c')
    (due : ∀ {p : Purpose} {m : Machine} {below : List Level}, c = .loop p m below → D m →
      R m (Exec.step host p.stop m).machine)
    (watch : ∀ (m : Machine) (hook : Option Hook) (snapshots : Array Snapshot)
      (warnings printed : Array String) (isSinkClosed : Bool) (notes : Array (List Value)),
      R m { m with hook, snapshots, warnings, printed, isSinkClosed, notes }) :
    ∃ m, (m = c.machine ∨ Shift (c.closing []) c.machine (c'.closing []) m) ∧ R m c'.machine := by
  cases hp with
  | stay h => exact ⟨_, .inl rfl, h⟩
  | shift hs h => exact ⟨_, .inr hs, h⟩
  | due hd => exact ⟨_, .inl rfl, due rfl hd⟩
  | watch hook snapshots warnings printed isSinkClosed notes =>
    exact ⟨_, .inl rfl, watch _ hook snapshots warnings printed isSinkClosed notes⟩

end Config
end RegisterMachine
