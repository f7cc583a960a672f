import Mathlib.Data.List.TakeWhile
import RegisterMachine.Proofs.CallSites
import RegisterMachine.Proofs.Closings

/-! The order of marks. The marks that an instruction closes are those from the first one at or above its register
on, in the order in which they were made. That is exactly the marks at or above the register when none below it was
made after one of these; else marks below it are closed as well. -/
namespace RegisterMachine

open Machine

/-- A list is split at the first element without a property as if by the property itself, just in case no element
with the property is behind one without it. -/
theorem takeWhile_eq_filter_iff {α : Type} {p : α → Bool} {l : List α} :
    (l.dropWhile p = l.filter (!p ·) ∧ l.takeWhile p = l.filter p) ↔
      l.Pairwise fun a b => p a = false → p b = false := by
  induction l with
  | nil => simp
  | cons a l ih =>
    rw [List.pairwise_cons, ← ih]
    cases ha : p a with
    | true =>
      simp only [List.dropWhile_cons_of_pos ha, List.takeWhile_cons_of_pos ha, List.filter_cons_of_pos ha,
        List.filter_cons, ha, Bool.not_true, Bool.false_eq_true, if_false, List.cons.injEq, true_and,
        reduceCtorEq, false_implies, implies_true]
    | false =>
      have hneg : ¬p a = true := ha ▸ Bool.false_ne_true
      have hrest : l.filter p = [] ↔ ∀ b ∈ l, p b = false := by
        simp only [List.filter_eq_nil_iff, Bool.not_eq_true]
      simp only [List.dropWhile_cons_of_neg hneg, List.takeWhile_cons_of_neg hneg, List.filter_cons_of_neg hneg,
        List.filter_cons, ha, Bool.not_false, if_true, List.cons.injEq, true_and, true_implies]
      constructor
      · rintro ⟨-, hnone⟩
        have hall := hrest.1 hnone.symm
        refine ⟨hall, ih.2 (List.pairwise_of_forall_mem_list fun _ _ b hb _ => hall b hb)⟩
      · rintro ⟨hall, -⟩
        exact ⟨(List.filter_eq_self.2 fun b hb => by rw [hall b hb]; rfl).symm, (hrest.2 hall).symm⟩

namespace Frame

variable {f : Frame} {start : Nat}

/-- The marks that are given up from a slot on are those at or above it, the last one first, and the others stay in
their order. -/
def Detaches (f : Frame) (start : Nat) : Prop :=
  (f.takeMarks start).1 = (f.marks.toList.filter (start ≤ ·)).reverse ∧
    (f.takeMarks start).2.marks.toList = f.marks.toList.filter (· < start)

/-- No mark below a slot was made after one at or above it. -/
def Nests (f : Frame) (start : Nat) : Prop :=
  f.marks.toList.Pairwise fun earlier later => start ≤ earlier → start ≤ later

theorem detaches_iff_nests : f.Detaches start ↔ f.Nests start := by
  have hsplit := takeWhile_eq_filter_iff (p := (· < start)) (l := f.marks.toList)
  simp only [decide_eq_false_iff_not, Nat.not_lt] at hsplit
  have hrest : (fun slot => !decide (slot < start)) = (fun slot => decide (start ≤ slot)) := by
    funext slot
    rw [← decide_not]
    exact decide_eq_decide.2 Nat.not_lt
  rw [hrest] at hsplit
  rw [Nests, ← hsplit, Detaches, takeMarks, List.reverse_inj]

theorem forall_nests_iff : (∀ start, f.Nests start) ↔ f.marks.toList.Pairwise (· ≤ ·) := by
  constructor
  · intro h
    rw [List.pairwise_iff_getElem]
    intro i j hi hj hij
    exact List.pairwise_iff_getElem.1 (h f.marks.toList[i]) i j hi hj hij (Nat.le_refl _)
  · exact fun h start => h.imp fun hle hs => Nat.le_trans hs hle

theorem nests_mark (slot : Nat) :
    (f.mark slot).Nests start ↔ f.Nests start ∧ ∀ s ∈ f.marks.toList, start ≤ s → start ≤ slot := by
  rw [Nests, mark, Array.toList_push, List.pairwise_append]
  simp only [List.pairwise_singleton, List.mem_singleton, forall_eq, true_and]
  rfl

theorem takeMarks_cases (f : Frame) (start : Nat) : ∃ kept taken,
    f.takeMarks start = (taken.reverse, { f with marks := kept.toArray }) ∧ f.marks.toList = kept ++ taken ∧
      (∀ slot ∈ kept, slot < start) ∧ (∀ slot ∈ taken.head?, start ≤ slot) ∧
      taken.filter (start ≤ ·) = f.marks.toList.filter (start ≤ ·) := by
  have happend := (List.takeWhile_append_dropWhile (p := (· < start)) (l := f.marks.toList)).symm
  have hkept : ∀ slot ∈ f.marks.toList.takeWhile (· < start), slot < start := fun slot h =>
    of_decide_eq_true (List.mem_takeWhile_imp (p := (· < start)) h)
  refine ⟨_, _, rfl, happend, hkept, ?_, ?_⟩
  · intro slot h
    have hhead := List.head?_dropWhile_not (p := (· < start)) f.marks.toList
    rw [h] at hhead
    simpa using hhead
  · have hnone : (f.marks.toList.takeWhile (· < start)).filter (start ≤ ·) = [] :=
      List.filter_eq_nil_iff.2 fun slot h => by simpa using hkept slot h
    conv_rhs => rw [happend, List.filter_append, hnone, List.nil_append]

end Frame

namespace Exec

variable {m : Machine} {f : Frame}

theorem markForClosing_eq (w : Word) (hf : m.frame? = some f) :
    Instruction.markForClosing w m = .ret () (m.modifyFrame (·.mark (f.base + w.a.toNat))) := by
  unfold Instruction.markForClosing
  simp only [bind_eq, base, read, Step.bind, base_eq hf, modifyFrame, hf]

theorem marks_part (hf : m.frame? = some f) (start : Nat) :
    ∃ g, (m.part f start).frame? = some g ∧ g.marks = (f.takeMarks start).2.marks :=
  ⟨_, frame?_modifyFrame (fun _ => ((f.detachBrokers start).2.takeMarks start).2) hf, rfl⟩

/-- Closing from a register on hands over exactly the marks at or above it if the marks nest from there on. In any case
it hands over all of them from the first such one on. -/
theorem close_detaches_iff (hf : m.frame? = some f) (start : Nat) :
    (f.Detaches start ↔ f.Nests start) ∧
    ((∀ start, f.Detaches start) ↔ f.marks.toList.Pairwise (· ≤ ·)) ∧
    (∃ kept taken, f.takeMarks start = (taken.reverse, { f with marks := kept.toArray }) ∧
      f.marks.toList = kept ++ taken ∧ (∀ slot ∈ kept, slot < start) ∧ (∀ slot ∈ taken.head?, start ≤ slot) ∧
      taken.filter (start ≤ ·) = f.marks.toList.filter (start ≤ ·)) ∧
    (∀ w, ∃ m', Instruction.markForClosing w m = .ret () m' ∧ ∃ g, m'.frame? = some g ∧
      g.marks = f.marks.push (f.base + w.a.toNat) ∧
      (g.Nests start ↔ f.Nests start ∧ ∀ slot ∈ f.marks.toList, start ≤ slot → start ≤ f.base + w.a.toNat)) ∧
    ∀ w, f.base + w.a.toNat = start →
      (∃ g, (m.part f start).frame? = some g ∧ g.marks = (f.takeMarks start).2.marks) ∧
      ∀ server r m', (Instruction.close w m).run server = some (r, m') ↔
        ∃ log, Threaded server none (m.part f start) ((f.takeMarks start).1.map m.arena.get) log m' ∧
          r = outcomeOf (latest Disposal.failure? log) := by
  refine ⟨Frame.detaches_iff_nests, ?_, f.takeMarks_cases start, fun w => ?_, ?_⟩
  · simp only [Frame.detaches_iff_nests]
    exact Frame.forall_nests_iff
  · exact ⟨_, markForClosing_eq w hf, _, frame?_modifyFrame _ hf, rfl, Frame.nests_mark _⟩
  · rintro w rfl
    refine ⟨marks_part hf _, fun server r m' => ?_⟩
    rw [close_eq w hf]
    exact run_closeFrom_iff hf _

/-- Marks its second register and then its first one, closes from the second one on, and calls the handler. -/
def crossed : Prototype where
  name := "crossed"
  source := "crossed"
  window := 4
  code := #[.abx .loadK 0 0, .abx .loadK 1 1, .abc .tbc 1 (.register 0) (.register 0),
    .abc .tbc 0 (.register 0) (.register 0), .abc .close 1 (.register 0) (.register 0),
    .abc .getTabUp 2 (.register 0) (.constant 2), .asbx .loadI 3 5,
    .abc .call 2 (.register 2) (.register 1), .abc .ret 0 (.register 1) (.register 0)]
  constants := #[.str "lower", .str "upper", .str "note"]
  captures := #[⟨"globals", true, 0⟩]

/-- Its functions note what they are given. -/
def recorder : Host := fun _ args => do
  Script.perform (.note args)
  return []

/-- A machine in which strings have such a handler. -/
def noting : Machine :=
  let acts : List Action := [.newTable, .newNative ⟨"note", .host "note", 0⟩,
    .setField ⟨0⟩ (.ofString "note") (.native ⟨0⟩), .setField ⟨1⟩ (.ofString "__close") (.native ⟨0⟩),
    .setStringMetatable (some ⟨1⟩)]
  acts.foldl (fun m a => (a.apply m).2) (bare ⟨4, 64, 8, 8⟩)

/-- The first register was marked after the second one: from the second one on both are given up, and from the first
one on they are what they should be. -/
theorem close_detaches_iff_crossed :
    let m := (Config.steps recorder 9
      (Config.ask recorder (.call (.closure ⟨0⟩) []) (noting.load crossed).2 [])).machine
    ∃ f, m.frame? = some f ∧ f.base = 1 ∧ f.marks = #[2, 1] ∧ f.Detaches 1 ∧ ¬f.Detaches 2 ∧
      (f.takeMarks 2).1 = [1, 2] := by
  intro m
  have hfacts : m.frame?.any (fun f => f.base = 1 && f.marks = #[2, 1]) = true := by decide +kernel
  simp only [Option.any_eq_true, Bool.and_eq_true, decide_eq_true_eq] at hfacts
  obtain ⟨f, hf, hbase, hmarks⟩ := hfacts
  have htaken : (f.takeMarks 2).1 = [1, 2] := by
    rw [Frame.takeMarks, hmarks]
    rfl
  refine ⟨f, hf, hbase, hmarks, (close_detaches_iff hf 1).1.2 ?_, fun h => ?_, htaken⟩
  · rw [Frame.Nests, hmarks]
    decide
  · have hnests := (close_detaches_iff hf 2).1.1 h
    rw [Frame.Nests, hmarks] at hnests
    revert hnests
    decide

/-- The handler is called for the first register too, before the instruction behind the closing. -/
theorem lower_mark_handed_over :
    let f : Frame := ((default : Frame).mark 2).mark 1
    (f.takeMarks 2).1 ≠ (f.marks.toList.filter (2 ≤ ·)).reverse ∧
      (f.takeMarks 2).2.marks.toList ≠ f.marks.toList.filter (· < 2) ∧
      (serve recorder 20 (.call (.closure ⟨0⟩) []) (noting.load crossed).2).map (fun p => p.2.notes) =
        some #[[.str "lower", .nil], [.str "upper", .nil], [.int 5]] := by
  refine ⟨by decide, by decide, ?_⟩
  decide +kernel

end Exec
end RegisterMachine
